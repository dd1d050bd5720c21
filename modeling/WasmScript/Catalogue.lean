/-
  WasmScript/Catalogue.lean
  =========================
  **Published constants** — the tables of numbers and names that users of the library
  may look up by name.  The operators are published as a table that has no names.
-/
import WasmScript.Transpile
import WasmScript.Module.Opcode

namespace WasmScript

inductive Constant where
  | text (s : String)
  | number (n : Nat)
  | flag (b : Bool)
  | list (items : List Constant)
  | table (entries : List (String × Constant))
  /-- Something to call. -/
  | function
deriving Repr, Inhabited

namespace Catalogue

def numbers (entries : List (String × Nat)) : Constant :=
  .table (entries.map fun (key, n) => (key, .number n))

/-- A name with its first letter in upper case. -/
def capitalized (name : String) : String := name.capitalize

/-- A table of names under their own capitalized forms. -/
def names (list : List String) : Constant :=
  .table (list.map fun name => (capitalized name, .text name))

def bytes (list : List UInt8) : Constant := .list (list.map fun b => .number b.toNat)

def nodeKinds : List String :=
  ["Literal", "LocalRef", "TempRef", "GlobalRef", "UnaryOp", "BinaryOp", "Compare", "Select",
   "Call", "LocalTee", "EffectiveAddress", "MemoryLoad", "MemorySize", "MemoryGrow", "Block",
   "Loop", "If", "Branch", "BranchIf", "BranchTable", "Return", "Unreachable", "LocalSet",
   "GlobalSet", "TempDef", "SlotAssign", "MemoryStore", "MemoryCopy", "MemoryFill",
   "ExpressionStatement", "MultiCall"]

/-- What is chosen about a script unless something else is asked for. -/
def scriptDefaults : List (String × Constant) :=
  let o : Script.Options := {}
  [("format", .text o.format.name), ("maxPages", .number o.maxPages),
   ("runtimeSpecifier", .text o.runtimeSpecifier)]

/-- The names of the published functions and kinds of objects. -/
def functions : List String :=
  ["BuilderContext", "functionCount", "functionType", "exportNames", "numericOp", "CompilerError",
   "DecodeError", "BuildError", "DiagnosticBag", "formatDiagnostic", "formatDiagnostics",
   "ByteReader", "decodeModule", "literal", "hasEffects", "isTrappingOperator", "describeAccess",
   "isNarrowI64", "effectiveAddress", "translateLoad", "translateStore", "buildFunction",
   "buildModule", "CodeGenerator", "generateModule", "generateDeclarations", "CodegenContext",
   "TranspileError", "analyze", "transpile", "loadFactory", "runFixture", "verify",
   "referenceOutcomes", "expectationOf"]

def all : List (String × Constant) :=
  [("version", .text "0.1.0"),
   ("MAGIC", bytes Binary.magic),
   ("VERSION", bytes Binary.version),
   ("BlockTypeEmpty", .number Binary.emptyBlock),
   ("FuncTypeForm", .number Binary.functionForm),
   ("SectionId", numbers (SectionId.all.map fun id => (id.label, id.number))),
   ("sectionNames", .table (SectionId.all.map fun id => (toString id.number, .text id.name))),
   ("sectionOrder", .list (SectionId.order.map fun id => .number id.number)),
   ("ValType", numbers Binary.typeBytes),
   ("ExportDesc", numbers Binary.descriptors),
   ("Opcode", numbers (Opcode.all.map fun op => (op.name, op.byte))),
   ("MiscOpcode", numbers Binary.escaped),
   ("DiagnosticCode", numbers (DiagnosticCode.all.map fun c => (c.name, c.number))),
   ("DiagnosticSeverity",
     numbers [("Error", Severity.error.number), ("Warning", Severity.warning.number),
       ("Information", Severity.information.number)]),
   ("IrKind", .table (nodeKinds.map fun k => (k, .text k))),
   ("BranchMode", names (IR.BranchMode.all.map IR.BranchMode.name)),
   ("TempKind", names (IR.TempKind.all.map IR.TempKind.name)),
   ("FrameKind", names (IR.FrameKind.all.map IR.FrameKind.name)),
   ("ExportKind", names ([.function, .table, .memory, .global].map ExportKind.name)),
   ("ValueType", names ([.i32, .i64].map ValueType.name)),
   ("Extension", names (Extension.all.map Extension.name)),
   ("NumericCategory", names (NumericCategory.all.map NumericCategory.name)),
   ("OutputFormat", names (Script.Format.all.map Script.Format.name)),
   ("numericOps", .table []),
   ("defaultCodegenOptions", .table scriptDefaults),
   ("defaultTranspileOptions",
     .table (scriptDefaults ++ [("declarations", .flag (TranspileOptions.declarations {}))]))]

def constant? (name : String) : Option Constant :=
  if functions.contains name then some .function else all.lookup name

end Catalogue

end WasmScript
