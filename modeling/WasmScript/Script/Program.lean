/-
  WasmScript/Script/Program.lean
  ==============================
  **Generated scripts** — a whole script as data, and its text.

  A script defines one function, `instantiate`.  Each call of it binds the imports, makes
  or borrows the memory, makes the globals, defines one inner function for each function
  of the module, writes the data segments in order, calls the start function and hands
  out a frozen object with one member per export.

  `Program.ofModule` lays out these parts, functions in the order of their indices, and
  `Program.text` writes them down.  Nothing else of the module reaches the text.  Whoever
  has the literal of the place of the helpers and the line about the memory in another way
  than from the program writes it with `Program.textWith`.
-/
import WasmScript.Script.Statement

namespace WasmScript.Script

/-! ### How types appear in a script -/

def zeroText : ValueType → String
  | .i32 => "0"
  | .i64 => "0n"

def coercionName : ValueType → String
  | .i32 => "toI32"
  | .i64 => "toI64"

/-! ### Options -/

inductive Format where
  /-- A module that imports its helpers and exports `instantiate`. -/
  | esm
  /-- A function body that takes its helpers as `rt` and returns `instantiate`. -/
  | factory
deriving DecidableEq, Repr, Inhabited

namespace Format

def all : List Format := [.esm, .factory]

def name : Format → String
  | .esm => "esm"
  | .factory => "factory"

def ofName? (name : String) : Option Format := all.find? fun f => f.name == name

end Format

/-- What may be chosen about a script. -/
structure Options where
  format : Format := .esm
  /-- The most pages of a memory that declares no maximum. -/
  maxPages : Nat := 256
  /-- Where the script finds its helpers. -/
  runtimeSpecifier : String := "@herkos-ts/runtime"
deriving DecidableEq, Repr, Inhabited

/-! ### Parts -/

structure Function where
  index : Nat
  /-- The first name under which it is exported. -/
  exportName : Option String
  paramCount : Nat
  /-- The types of the declared locals. -/
  locals : List ValueType
  /-- The slots, which are declared ahead of the body. -/
  slots : List (Nat × ValueType)
  body : List Statement
deriving Repr, Inhabited

namespace Function

def ofBody (f : IR.Function) : Except FormError Function := do
  let body ← ofStatements f.body
  pure
    { index := f.index
      exportName := f.name
      paramCount := f.params.length
      locals := f.locals
      slots := (f.temps.filter fun t => t.kind = .slot).map fun t => (t.id, t.type)
      body }

def declaration (vars : List (Variable × ValueType)) : Sheet → Sheet :=
  match vars with
  | [] => id
  | _ =>
    let texts := vars.map fun (v, type) => v.text ++ " = " ++ zeroText type
    Sheet.line ("let " ++ ", ".intercalate texts ++ ";")

/-- The declared locals, numbered after the parameters. -/
def localVariables (f : Function) : List (Variable × ValueType) :=
  f.locals.zipIdx.map fun (type, i) => (.localVar (f.paramCount + i), type)

def slotVariables (f : Function) : List (Variable × ValueType) :=
  f.slots.map fun (id, type) => (.tempVar id, type)

def paramTexts (f : Function) : List String :=
  (List.range f.paramCount).map fun i => (Variable.localVar i).text

def exportComment : Option String → Sheet → Sheet
  | none => id
  | some name => Sheet.line ("// export " ++ Quoted.encode name)

def write (f : Function) : Sheet → Sheet :=
  Sheet.block
    ("function " ++ functionName f.index ++ "(" ++ ", ".intercalate f.paramTexts ++ ")")
    fun s =>
      let s := exportComment f.exportName s
      let s := declaration f.localVariables s
      let s := declaration f.slotVariables s
      Statement.writeAll f.body s

end Function

structure ImportBinding where
  index : Nat
  module : String
  field : String
  type : FunctionType
deriving DecidableEq, Repr, Inhabited

inductive MemoryBinding where
  /-- Lent by the host. -/
  | lent (module field : String) (limits : Limits)
  /-- Made anew for each instance. -/
  | owned (initial maximum : Nat)
deriving DecidableEq, Repr, Inhabited

inductive Member where
  | function (key : String) (index : Nat) (params : List ValueType)
  | memory (key : String)
  | globalValue (key : String) (index : Nat)
deriving DecidableEq, Repr, Inhabited

namespace Member

def key : Member → String
  | .function key .. | .memory key | .globalValue key _ => key

/-- The member that an export becomes.  Tables have no elements, so they are left out. -/
def ofExport? (m : Module) (e : Export) : Option Member :=
  match e.kind with
  | .function => (m.functionType? e.index).map fun type => .function e.name e.index type.params
  | .memory => some (.memory e.name)
  | .global => some (.globalValue e.name e.index)
  | .table => none

end Member

structure Program where
  options : Options
  imports : List ImportBinding
  memory : Option MemoryBinding
  globals : List Global
  functions : List Function
  data : List DataSegment
  start : Option Nat
  members : List Member
deriving Repr, Inhabited

namespace Program

/-- The bindings of the imported functions; one without a type is left out. -/
def importBindings (m : Module) : List ImportBinding :=
  m.imports.toList.zipIdx.filterMap fun (entry, index) =>
    m.types[entry.typeIndex]?.map fun type => ⟨index, entry.module, entry.name, type⟩

/-- The memory.  One that is lent keeps its own maximum; one that is owned may grow to its
declared maximum, or else to the bound that was chosen. -/
def memoryBinding (m : Module) (options : Options) : Option MemoryBinding :=
  m.memory.map fun limits =>
    match m.memoryImport with
    | some place => .lent place.module place.name limits
    | none => .owned limits.initial (limits.maximum.getD (max limits.initial options.maxPages))

def membersOf (m : Module) : List Member := m.exports.filterMap (Member.ofExport? m)

def functionsOf : List IR.Function → Except FormError (List Function)
  | [] => .ok []
  | f :: fs => do
    let t ← Function.ofBody f
    let ts ← functionsOf fs
    pure (t :: ts)

def ofModule (m : Module) (functions : List IR.Function) (options : Options) :
    Except FormError Program := do
  let functions ← functionsOf (functions.mergeSort fun f g => f.index ≤ g.index)
  pure
    { options
      imports := importBindings m
      memory := memoryBinding m options
      globals := m.globals.toList
      functions
      data := m.data
      start := m.start
      members := membersOf m }

/-! ### Text -/

def typeNames (types : List ValueType) : String :=
  bracketed (types.map fun t => Quoted.encode t.name)

def importLine (b : ImportBinding) : String :=
  "const " ++ functionName b.index ++ " = rt.bindImport(imports, " ++ Quoted.encode b.module
    ++ ", " ++ Quoted.encode b.field ++ ", " ++ typeNames b.type.params ++ ", "
    ++ typeNames b.type.results ++ ");"

def memoryLine : MemoryBinding → String
  | .lent module field limits =>
    let maximum := limits.maximum.elim "" fun n => s!", {n}"
    "const memory = rt.bindMemory(imports, " ++ Quoted.encode module ++ ", "
      ++ Quoted.encode field ++ ", " ++ toString limits.initial ++ maximum ++ ");"
  | .owned initial maximum => s!"const memory = new rt.LinearMemory({initial}, {maximum});"

/-- The text of a value outside an expression, where a sign needs no parentheses. -/
def valueText : Value → String
  | .i32 n => toString n
  | .i64 n => toString n ++ "n"

def globalLine (g : Global) (index : Nat) : String :=
  (if g.isMutable then "let " else "const ") ++ (Variable.globalVar index).text ++ " = "
    ++ valueText g.init ++ ";"

def dataLine (d : DataSegment) : String :=
  "memory.initData(" ++ toString d.offset ++ ", rt.hexToBytes("
    ++ Quoted.encode (Hex.ofBytes d.bytes) ++ "));"

def memberLine : Member → String
  | .function key index params =>
    let names := (List.range params.length).map fun i => s!"a{i}"
    let args := params.zipIdx.map fun (type, i) => "rt." ++ coercionName type ++ s!"(a{i})"
    "exports[" ++ Quoted.encode key ++ "] = (" ++ ", ".intercalate names ++ ") => "
      ++ functionName index ++ "(" ++ ", ".intercalate args ++ ");"
  | .memory key => "exports[" ++ Quoted.encode key ++ "] = memory;"
  | .globalValue key index =>
    "Object.defineProperty(exports, " ++ Quoted.encode key ++ ", \x7bget: () => "
      ++ (Variable.globalVar index).text ++ ", enumerable: true\x7d);"

/-- Writes what stands around the body of `instantiate`, with the literal of the place of the
helpers. -/
def writeAround (format : Format) (helpers : String) (body : Sheet → Sheet) (s : Sheet) : Sheet :=
  let s := s.line "// Generated by herkos-ts. Do not edit."
  match format with
  | .esm =>
    let s := s.line ("import * as rt from " ++ helpers ++ ";")
    (s.line "").block "export function instantiate(imports = \x7b\x7d)" body
  | .factory =>
    let s := (s.line "'use strict';").line ""
    let s := s.block "function instantiate(imports = \x7b\x7d)" body
    (s.line "").line "return instantiate;"

/-- Writes the data segments and the call of the start function. -/
def writeStart (p : Program) (s : Sheet) : Sheet :=
  if p.data.isEmpty ∧ p.start.isNone then s
  else
    let s := s.separate.each p.data fun d => Sheet.line (dataLine d)
    match p.start with
    | none => s
    | some index => s.line (functionName index ++ "();")

/-- Writes the body of `instantiate`, with a line about the memory. -/
def writeBody (p : Program) (memory : Option String) (s : Sheet) : Sheet :=
  let s := s.each p.imports fun b => Sheet.line (importLine b)
  let s := s.each memory.toList Sheet.line
  let s := s.each p.globals.zipIdx fun (g, index) => Sheet.line (globalLine g index)
  let s := s.each p.functions fun f s => f.write s.separate
  let s := (p.writeStart s).separate
  let s := s.line "const exports = Object.create(null);"
  let s := s.each p.members fun member => Sheet.line (memberLine member)
  s.line "return Object.freeze(exports);"

/-- Writes a script, with the literal of the place of its helpers and with a line about the
memory. -/
def writeWith (p : Program) (helpers : String) (memory : Option String) : Sheet → Sheet :=
  writeAround p.options.format helpers (p.writeBody memory)

def write (p : Program) : Sheet → Sheet :=
  p.writeWith (Quoted.encode p.options.runtimeSpecifier) (p.memory.map memoryLine)

/-- The text of a script, with the literal of the place of its helpers and with a line about the
memory. -/
def textWith (p : Program) (helpers : String) (memory : Option String) : String :=
  (p.writeWith helpers memory .blank).text

def text (p : Program) : String := (p.write .blank).text

end Program

end WasmScript.Script
