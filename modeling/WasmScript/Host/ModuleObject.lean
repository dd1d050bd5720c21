/-
  WasmScript/Host/ModuleObject.lean
  =================================
  **Modules as objects** — what a host gets of a decoded module.

  Every part becomes an object with a name for each of its own parts; what a module does
  not have is nothing.  An instruction says under `kind` what it is, and 64-bit constants
  are big integers.
-/
import WasmScript.Host.Body

namespace WasmScript

open HostValue (ofList ofOption)

def FunctionType.toHost (t : FunctionType) : HostValue :=
  .record [("params", ofList ValueType.toHost t.params),
    ("results", ofList ValueType.toHost t.results)]

def Limits.toHost (l : Limits) : HostValue :=
  .record [("initial", .ofNat l.initial), ("maximum", ofOption .ofNat l.maximum)]

def Value.hostFields (v : Value) : List (String × HostValue) :=
  [("kind", .string (v.type.name ++ ".const")), ("value", .ofValue v)]

/-- The static part of an access as an object. -/
def MemArg.toHost (a : MemArg) : HostValue :=
  .record [("align", .ofNat a.align), ("offset", .ofNat a.offset)]

namespace Instruction

def ofKind (kind : String) (fields : List (String × HostValue)) : List (String × HostValue) :=
  ("kind", .string kind) :: fields

def hostFields : Instruction → List (String × HostValue)
  | .unreachable => ofKind "unreachable" []
  | .nop => ofKind "nop" []
  | .block type => ofKind "block" [("blockType", type.toHost)]
  | .loop type => ofKind "loop" [("blockType", type.toHost)]
  | .ifBlock type => ofKind "if" [("blockType", type.toHost)]
  | .elseMark => ofKind "else" []
  | .endMark => ofKind "end" []
  | .br depth => ofKind "br" [("depth", .ofNat depth)]
  | .brIf depth => ofKind "br_if" [("depth", .ofNat depth)]
  | .brTable depths default =>
    ofKind "br_table" [("depths", ofList .ofNat depths), ("defaultDepth", .ofNat default)]
  | .ret => ofKind "return" []
  | .call function => ofKind "call" [("funcIndex", .ofNat function)]
  | .drop => ofKind "drop" []
  | .select => ofKind "select" []
  | .localGet index => ofKind "local.get" [("index", .ofNat index)]
  | .localSet index => ofKind "local.set" [("index", .ofNat index)]
  | .localTee index => ofKind "local.tee" [("index", .ofNat index)]
  | .globalGet index => ofKind "global.get" [("index", .ofNat index)]
  | .globalSet index => ofKind "global.set" [("index", .ofNat index)]
  | .const value => value.hostFields
  | .numeric opcode => ofKind "numeric" [("opcode", .ofNat opcode)]
  | .load opcode arg => ofKind "load" [("opcode", .ofNat opcode), ("memarg", arg.toHost)]
  | .store opcode arg => ofKind "store" [("opcode", .ofNat opcode), ("memarg", arg.toHost)]
  | .memorySize => ofKind "memory.size" []
  | .memoryGrow => ofKind "memory.grow" []
  | .memoryCopy => ofKind "memory.copy" []
  | .memoryFill => ofKind "memory.fill" []

end Instruction

def Located.toHost (l : Located) : HostValue :=
  .record (("pos", .ofNat l.pos) :: l.instruction.hostFields)

def Body.toHost (b : Body) : HostValue :=
  .record [("locals", ofList ValueType.toHost b.locals.toList), ("pos", .ofNat b.pos),
    ("instructions", ofList Located.toHost b.instructions.toList)]

def HostValue.place (module name : String) : List (String × HostValue) :=
  [("module", .string module), ("name", .string name)]

def FunctionImport.toHost (i : FunctionImport) : HostValue :=
  .record (HostValue.place i.module i.name ++ [("typeIndex", .ofNat i.typeIndex)])

def MemoryImport.toHost (i : MemoryImport) : HostValue := .record (HostValue.place i.module i.name)

def Global.toHost (g : Global) : HostValue :=
  .record [("type", g.type.toHost), ("mutable", .bool g.isMutable),
    ("init", .record g.init.hostFields)]

def Export.toHost (e : Export) : HostValue :=
  .record [("name", .string e.name), ("kind", .string e.kind.name), ("index", .ofNat e.index)]

def DataSegment.toHost (d : DataSegment) : HostValue :=
  .record [("offset", .ofNat d.offset), ("bytes", .bytes ⟨d.bytes.toArray⟩)]

def Module.toHost (m : Module) : HostValue :=
  .record
    [("types", ofList FunctionType.toHost m.types.toList),
     ("imports", ofList FunctionImport.toHost m.imports.toList),
     ("functions", ofList .ofNat m.functions.toList),
     ("tables", ofList Limits.toHost m.tables),
     ("memory", ofOption Limits.toHost m.memory),
     ("memoryImport", ofOption MemoryImport.toHost m.memoryImport),
     ("globals", ofList Global.toHost m.globals.toList),
     ("exports", ofList Export.toHost m.exports),
     ("start", ofOption .ofNat m.start),
     ("data", ofList DataSegment.toHost m.data),
     ("bodies", ofList Body.toHost m.bodies.toList),
     ("customSections", ofList .string m.customSections)]

end WasmScript
