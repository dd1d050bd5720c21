/-
  WasmScript/Module/Access.lean
  =============================
  **Memory accesses** — how each load and store opcode touches the memory.

  An access reads or writes `width` bytes through one of the accessors of the memory.  A
  load of fewer bytes than its type has extends them by their sign or by zeros.  A 64-bit
  access of fewer than eight bytes goes through a 32-bit accessor, and its value is
  converted around it: `isNarrowI64`.
-/
import WasmScript.Module.Opcode
import WasmScript.Module.Basic

namespace WasmScript

/-- How the bytes of a narrow load become a value. -/
inductive Extension where
  | none
  | sign
  | zero
deriving DecidableEq, Repr, Inhabited

namespace Extension

def all : List Extension := [.none, .sign, .zero]

def name : Extension → String
  | .none => "none"
  | .sign => "sign"
  | .zero => "zero"

end Extension

/-- A checked access to the bytes of a memory. -/
inductive Accessor where
  | loadI32
  | loadI64
  | loadI8
  | loadU8
  | loadI16
  | loadU16
  | loadU32
  | storeI32
  | storeI64
  | storeI8
  | storeI16
deriving DecidableEq, Repr, Inhabited

namespace Accessor

def all : List Accessor :=
  [.loadI32, .loadI64, .loadI8, .loadU8, .loadI16, .loadU16, .loadU32, .storeI32, .storeI64,
   .storeI8, .storeI16]

def name : Accessor → String
  | .loadI32 => "loadI32"
  | .loadI64 => "loadI64"
  | .loadI8 => "loadI8"
  | .loadU8 => "loadU8"
  | .loadI16 => "loadI16"
  | .loadU16 => "loadU16"
  | .loadU32 => "loadU32"
  | .storeI32 => "storeI32"
  | .storeI64 => "storeI64"
  | .storeI8 => "storeI8"
  | .storeI16 => "storeI16"

def ofName? (name : String) : Option Accessor := all.find? fun a => a.name == name

def width : Accessor → Nat
  | .loadI8 | .loadU8 | .storeI8 => 1
  | .loadI16 | .loadU16 | .storeI16 => 2
  | .loadI32 | .loadU32 | .storeI32 => 4
  | .loadI64 | .storeI64 => 8

def isStore : Accessor → Bool
  | .storeI8 | .storeI16 | .storeI32 | .storeI64 => true
  | _ => false

def isSigned : Accessor → Bool
  | .loadU8 | .loadU16 | .loadU32 => false
  | _ => true

def type : Accessor → ValueType
  | .loadI64 | .storeI64 => .i64
  | _ => .i32

end Accessor

inductive Access where
  | i32Load
  | i64Load
  | i32Load8S
  | i32Load8U
  | i32Load16S
  | i32Load16U
  | i64Load8S
  | i64Load8U
  | i64Load16S
  | i64Load16U
  | i64Load32S
  | i64Load32U
  | i32Store
  | i64Store
  | i32Store8
  | i32Store16
  | i64Store8
  | i64Store16
  | i64Store32
deriving DecidableEq, Repr, Inhabited

namespace Access

/-- Every access, in the order in which they are listed. -/
def all : List Access :=
  [.i32Load, .i64Load, .i32Load8S, .i32Load8U, .i32Load16S, .i32Load16U, .i64Load8S,
   .i64Load8U, .i64Load16S, .i64Load16U, .i64Load32S, .i64Load32U, .i32Store, .i64Store,
   .i32Store8, .i32Store16, .i64Store8, .i64Store16, .i64Store32]

def opcode : Access → Opcode
  | .i32Load => .i32Load
  | .i64Load => .i64Load
  | .i32Load8S => .i32Load8S
  | .i32Load8U => .i32Load8U
  | .i32Load16S => .i32Load16S
  | .i32Load16U => .i32Load16U
  | .i64Load8S => .i64Load8S
  | .i64Load8U => .i64Load8U
  | .i64Load16S => .i64Load16S
  | .i64Load16U => .i64Load16U
  | .i64Load32S => .i64Load32S
  | .i64Load32U => .i64Load32U
  | .i32Store => .i32Store
  | .i64Store => .i64Store
  | .i32Store8 => .i32Store8
  | .i32Store16 => .i32Store16
  | .i64Store8 => .i64Store8
  | .i64Store16 => .i64Store16
  | .i64Store32 => .i64Store32

def name : Access → String
  | .i32Load => "i32.load"
  | .i64Load => "i64.load"
  | .i32Load8S => "i32.load8_s"
  | .i32Load8U => "i32.load8_u"
  | .i32Load16S => "i32.load16_s"
  | .i32Load16U => "i32.load16_u"
  | .i64Load8S => "i64.load8_s"
  | .i64Load8U => "i64.load8_u"
  | .i64Load16S => "i64.load16_s"
  | .i64Load16U => "i64.load16_u"
  | .i64Load32S => "i64.load32_s"
  | .i64Load32U => "i64.load32_u"
  | .i32Store => "i32.store"
  | .i64Store => "i64.store"
  | .i32Store8 => "i32.store8"
  | .i32Store16 => "i32.store16"
  | .i64Store8 => "i64.store8"
  | .i64Store16 => "i64.store16"
  | .i64Store32 => "i64.store32"

def width : Access → Nat
  | .i32Load => 4
  | .i64Load => 8
  | .i32Load8S => 1
  | .i32Load8U => 1
  | .i32Load16S => 2
  | .i32Load16U => 2
  | .i64Load8S => 1
  | .i64Load8U => 1
  | .i64Load16S => 2
  | .i64Load16U => 2
  | .i64Load32S => 4
  | .i64Load32U => 4
  | .i32Store => 4
  | .i64Store => 8
  | .i32Store8 => 1
  | .i32Store16 => 2
  | .i64Store8 => 1
  | .i64Store16 => 2
  | .i64Store32 => 4

/-- How a narrow load extends its bytes. -/
def extension : Access → Extension
  | .i32Load => .none
  | .i64Load => .none
  | .i32Load8S => .sign
  | .i32Load8U => .zero
  | .i32Load16S => .sign
  | .i32Load16U => .zero
  | .i64Load8S => .sign
  | .i64Load8U => .zero
  | .i64Load16S => .sign
  | .i64Load16U => .zero
  | .i64Load32S => .sign
  | .i64Load32U => .zero
  | .i32Store => .none
  | .i64Store => .none
  | .i32Store8 => .none
  | .i32Store16 => .none
  | .i64Store8 => .none
  | .i64Store16 => .none
  | .i64Store32 => .none

def accessor : Access → Accessor
  | .i32Load => .loadI32
  | .i64Load => .loadI64
  | .i32Load8S => .loadI8
  | .i32Load8U => .loadU8
  | .i32Load16S => .loadI16
  | .i32Load16U => .loadU16
  | .i64Load8S => .loadI8
  | .i64Load8U => .loadU8
  | .i64Load16S => .loadI16
  | .i64Load16U => .loadU16
  | .i64Load32S => .loadI32
  | .i64Load32U => .loadU32
  | .i32Store => .storeI32
  | .i64Store => .storeI64
  | .i32Store8 => .storeI8
  | .i32Store16 => .storeI16
  | .i64Store8 => .storeI8
  | .i64Store16 => .storeI16
  | .i64Store32 => .storeI32

def isStore : Access → Bool
  | .i32Store | .i64Store | .i32Store8 | .i32Store16
  | .i64Store8 | .i64Store16 | .i64Store32 => true
  | _ => false

def type : Access → ValueType
  | .i64Load | .i64Load8S | .i64Load8U | .i64Load16S | .i64Load16U
  | .i64Load32S | .i64Load32U | .i64Store | .i64Store8 | .i64Store16 | .i64Store32 => .i64
  | _ => .i32

/-- Whether a 64-bit access goes through a 32-bit accessor. -/
def isNarrowI64 (a : Access) : Bool := a.type = .i64 ∧ a.width < 8

/-- The power of two that an access may be aligned to. -/
def naturalAlignment (a : Access) : Nat := a.width.log2

def ofOpcode? (opcode : Nat) : Option Access := all.find? fun a => a.opcode.byte == opcode

def ofName? (name : String) : Option Access := all.find? fun a => a.name == name

end Access

end WasmScript
