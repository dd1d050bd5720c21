/-
  WasmScript/Module/Basic.lean
  ============================
  **Modules** — WebAssembly modules of integers, control flow and one memory, after the
  bytes are read and before anything is made of them.

  A `Module` is plain data and may be inconsistent: an index may name nothing and a
  function may lack its body.  The index space of functions counts imports first, so
  `functions[i]` and `bodies[i]` describe function `imports.size + i`.  Bodies are flat
  lists of instructions in which `block`, `loop` and `if` are closed by their own `end`.
-/
namespace WasmScript

inductive ValueType where
  | i32
  | i64
deriving DecidableEq, Repr, Inhabited

namespace ValueType

def name : ValueType → String
  | .i32 => "i32"
  | .i64 => "i64"

def ofName? : String → Option ValueType
  | "i32" => some .i32
  | "i64" => some .i64
  | _ => none

instance : ToString ValueType := ⟨name⟩

def width : ValueType → Nat
  | .i32 => 32
  | .i64 => 64

end ValueType

/-- A value, as the signed integer a script holds. -/
inductive Value where
  | i32 (n : Int)
  | i64 (n : Int)
deriving DecidableEq, Repr

namespace Value

def type : Value → ValueType
  | .i32 _ => .i32
  | .i64 _ => .i64

def toInt : Value → Int
  | .i32 n => n
  | .i64 n => n

def ofInt : ValueType → Int → Value
  | .i32, n => .i32 n
  | .i64, n => .i64 n

def zero (t : ValueType) : Value := ofInt t 0

instance : Inhabited Value := ⟨.i32 0⟩

/-- Whether the integer is the signed reading of as many bits as the type has. -/
def Canonical : Value → Prop
  | .i32 n => -0x80000000 ≤ n ∧ n < 0x80000000
  | .i64 n => -0x8000000000000000 ≤ n ∧ n < 0x8000000000000000

end Value

structure FunctionType where
  params : List ValueType
  results : List ValueType
deriving DecidableEq, Repr, Inhabited

abbrev BlockType := FunctionType

/-- Sizes, in pages for a memory and in entries for a table. -/
structure Limits where
  initial : Nat
  maximum : Option Nat := none
deriving DecidableEq, Repr, Inhabited

structure FunctionImport where
  module : String
  name : String
  typeIndex : Nat
deriving DecidableEq, Repr, Inhabited

structure MemoryImport where
  module : String
  name : String
deriving DecidableEq, Repr, Inhabited

structure Global where
  type : ValueType
  isMutable : Bool
  init : Value
deriving DecidableEq, Repr, Inhabited

inductive ExportKind where
  | function
  | table
  | memory
  | global
deriving DecidableEq, Repr, Inhabited

namespace ExportKind

def name : ExportKind → String
  | .function => "function"
  | .table => "table"
  | .memory => "memory"
  | .global => "global"

def ofName? : String → Option ExportKind
  | "function" => some .function
  | "table" => some .table
  | "memory" => some .memory
  | "global" => some .global
  | _ => none

end ExportKind

structure Export where
  name : String
  kind : ExportKind
  index : Nat
deriving DecidableEq, Repr, Inhabited

/-- Bytes written to the memory when a module is instantiated. -/
structure DataSegment where
  offset : Nat
  bytes : List UInt8
deriving DecidableEq, Repr, Inhabited

/-- The static part of a load or store. -/
structure MemArg where
  align : Nat
  offset : Nat
deriving DecidableEq, Repr, Inhabited

inductive Instruction where
  | unreachable
  | nop
  | block (type : BlockType)
  | loop (type : BlockType)
  | ifBlock (type : BlockType)
  | elseMark
  | endMark
  | br (depth : Nat)
  | brIf (depth : Nat)
  | brTable (depths : List Nat) (defaultDepth : Nat)
  | ret
  | call (function : Nat)
  | drop
  | select
  | localGet (index : Nat)
  | localSet (index : Nat)
  | localTee (index : Nat)
  | globalGet (index : Nat)
  | globalSet (index : Nat)
  | const (value : Value)
  | numeric (opcode : Nat)
  | load (opcode : Nat) (arg : MemArg)
  | store (opcode : Nat) (arg : MemArg)
  | memorySize
  | memoryGrow
  | memoryCopy
  | memoryFill
deriving DecidableEq, Repr, Inhabited

namespace Instruction

/-- Whether an instruction opens a block that its own `end` closes. -/
def opensBlock : Instruction → Bool
  | .block _ | .loop _ | .ifBlock _ => true
  | _ => false

def closesBlock : Instruction → Bool
  | .endMark | .elseMark => true
  | _ => false

end Instruction

/-- An instruction and the offset of its first byte within the module. -/
structure Located where
  pos : Nat
  instruction : Instruction
deriving DecidableEq, Repr, Inhabited

/-- The body of a function: its declared locals, its instructions and its offset. -/
structure Body where
  locals : Array ValueType
  instructions : Array Located
  pos : Nat
deriving DecidableEq, Repr, Inhabited

structure Module where
  types : Array FunctionType := #[]
  imports : Array FunctionImport := #[]
  functions : Array Nat := #[]
  tables : List Limits := []
  memory : Option Limits := none
  memoryImport : Option MemoryImport := none
  globals : Array Global := #[]
  exports : List Export := []
  start : Option Nat := none
  data : List DataSegment := []
  bodies : Array Body := #[]
  customSections : List String := []
deriving DecidableEq, Repr, Inhabited

namespace Module

def functionCount (m : Module) : Nat := m.imports.size + m.functions.size

/-- The type of a function, imported or defined. -/
def functionType? (m : Module) (index : Nat) : Option FunctionType :=
  match m.imports[index]? with
  | some entry => m.types[entry.typeIndex]?
  | none => do m.types[(← m.functions[index - m.imports.size]?)]?

/-- The names under which a function is exported, in the order of the exports. -/
def exportNames (m : Module) (index : Nat) : List String :=
  (m.exports.filter fun e => e.kind = .function ∧ e.index = index).map Export.name

def exportsMemory (m : Module) : Bool := m.exports.any fun e => e.kind = .memory

end Module

end WasmScript
