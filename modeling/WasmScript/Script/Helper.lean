/-
  WasmScript/Script/Helper.lean
  =============================
  **Helpers of scripts** — the arithmetic that scripts call by name instead of writing it
  out.

  Divisions and remainders may trap; rotations and the counts of bits never do.  The name
  of a helper begins with the type of its arguments, and `Helper.apply` says what it gives.
-/
import WasmScript.Integer.Arithmetic
import WasmScript.Module.Basic

namespace WasmScript.Script

inductive Helper where
  | i32DivS
  | i32DivU
  | i32RemS
  | i32RemU
  | i32Rotl
  | i32Rotr
  | i32Ctz
  | i32Popcnt
  | i64DivS
  | i64DivU
  | i64RemS
  | i64RemU
  | i64Rotl
  | i64Rotr
  | i64Clz
  | i64Ctz
  | i64Popcnt
  | i32WrapI64
deriving DecidableEq, Repr

namespace Helper

def all : List Helper :=
  [.i32DivS, .i32DivU, .i32RemS, .i32RemU, .i32Rotl, .i32Rotr, .i32Ctz, .i32Popcnt, .i64DivS,
   .i64DivU, .i64RemS, .i64RemU, .i64Rotl, .i64Rotr, .i64Clz, .i64Ctz, .i64Popcnt, .i32WrapI64]

def name : Helper → String
  | .i32DivS => "i32DivS"
  | .i32DivU => "i32DivU"
  | .i32RemS => "i32RemS"
  | .i32RemU => "i32RemU"
  | .i32Rotl => "i32Rotl"
  | .i32Rotr => "i32Rotr"
  | .i32Ctz => "i32Ctz"
  | .i32Popcnt => "i32Popcnt"
  | .i64DivS => "i64DivS"
  | .i64DivU => "i64DivU"
  | .i64RemS => "i64RemS"
  | .i64RemU => "i64RemU"
  | .i64Rotl => "i64Rotl"
  | .i64Rotr => "i64Rotr"
  | .i64Clz => "i64Clz"
  | .i64Ctz => "i64Ctz"
  | .i64Popcnt => "i64Popcnt"
  | .i32WrapI64 => "i32WrapI64"

def ofName? (name : String) : Option Helper := all.find? fun h => h.name == name

def type : Helper → ValueType
  | .i64DivS | .i64DivU | .i64RemS | .i64RemU | .i64Rotl | .i64Rotr
  | .i64Clz | .i64Ctz | .i64Popcnt => .i64
  | _ => .i32

/-- What a helper gives for two arguments.  The counts and the conversion look at the first
alone. -/
def apply (h : Helper) (a b : Int) : Except TrapKind Int :=
  match h with
  | .i32DivS => Arithmetic.i32DivS a b
  | .i32DivU => Arithmetic.i32DivU a b
  | .i32RemS => Arithmetic.i32RemS a b
  | .i32RemU => Arithmetic.i32RemU a b
  | .i32Rotl => .ok (Arithmetic.i32Rotl a b)
  | .i32Rotr => .ok (Arithmetic.i32Rotr a b)
  | .i32Ctz => .ok (Arithmetic.i32Ctz a)
  | .i32Popcnt => .ok (Arithmetic.i32Popcnt a)
  | .i64DivS => Arithmetic.i64DivS a b
  | .i64DivU => Arithmetic.i64DivU a b
  | .i64RemS => Arithmetic.i64RemS a b
  | .i64RemU => Arithmetic.i64RemU a b
  | .i64Rotl => .ok (Arithmetic.i64Rotl a b)
  | .i64Rotr => .ok (Arithmetic.i64Rotr a b)
  | .i64Clz => .ok (Arithmetic.i64Clz a)
  | .i64Ctz => .ok (Arithmetic.i64Ctz a)
  | .i64Popcnt => .ok (Arithmetic.i64Popcnt a)
  | .i32WrapI64 => .ok (Arithmetic.i32WrapI64 a)

end Helper

end WasmScript.Script
