/-
  WasmScript/Run/Operation.lean
  =============================
  **Numeric operators at work** — the result of each operator on signed integers.

  Both ways of running a module compute with these functions.  They take and give
  integers in the signed form of their type; an operator that reads its operands as
  unsigned says so, and a result is brought back into the signed form.
-/
import WasmScript.Failure
import WasmScript.Module.NumericOp
import WasmScript.Module.Access
import WasmScript.Integer.Arithmetic

namespace WasmScript.Operation

/-! ### Comparisons -/

/-- Whether a comparison holds.  A test compares with zero. -/
def comparison (operator : Operator) (type : ValueType) (a b : Int) : Option Bool :=
  let u := Bits.unsigned type.width
  match operator with
  | .eqz | .eq => some (decide (a = b))
  | .ne => some (decide (a ≠ b))
  | .ltS => some (decide (a < b))
  | .gtS => some (decide (b < a))
  | .leS => some (decide (a ≤ b))
  | .geS => some (decide (b ≤ a))
  | .ltU => some (decide (u a < u b))
  | .gtU => some (decide (u b < u a))
  | .leU => some (decide (u a ≤ u b))
  | .geU => some (decide (u b ≤ u a))
  | _ => none

/-! ### Binary operators -/

/-- A binary operator on 32-bit values. -/
def binary32 (operator : Operator) (a b : Int) : Except Failure Int :=
  let k := Bits.count 32 b
  match operator with
  | .add => .ok (Bits.signed32 (a + b))
  | .sub => .ok (Bits.signed32 (a - b))
  | .mul => .ok (Bits.imul a b)
  | .divS => (Arithmetic.i32DivS a b).mapError .trap
  | .divU => (Arithmetic.i32DivU a b).mapError .trap
  | .remS => (Arithmetic.i32RemS a b).mapError .trap
  | .remU => (Arithmetic.i32RemU a b).mapError .trap
  | .and => .ok (Bits.and 32 a b)
  | .or => .ok (Bits.or 32 a b)
  | .xor => .ok (Bits.xor 32 a b)
  | .shl => .ok (Bits.shl32 a k)
  | .shrS => .ok (Bits.shr32 a k)
  | .shrU => .ok (Bits.signed32 (Bits.ushr32 a k))
  | .rotl => .ok (Arithmetic.i32Rotl a b)
  | .rotr => .ok (Arithmetic.i32Rotr a b)
  | _ => .error .stuck

/-- A binary operator on 64-bit values. -/
def binary64 (operator : Operator) (a b : Int) : Except Failure Int :=
  let k := Bits.count 64 b
  match operator with
  | .add => .ok (Bits.signed 64 (a + b))
  | .sub => .ok (Bits.signed 64 (a - b))
  | .mul => .ok (Bits.signed 64 (a * b))
  | .divS => (Arithmetic.i64DivS a b).mapError .trap
  | .divU => (Arithmetic.i64DivU a b).mapError .trap
  | .remS => (Arithmetic.i64RemS a b).mapError .trap
  | .remU => (Arithmetic.i64RemU a b).mapError .trap
  | .and => .ok (Bits.and 64 a b)
  | .or => .ok (Bits.or 64 a b)
  | .xor => .ok (Bits.xor 64 a b)
  | .shl => .ok (Bits.signed 64 (a * Bits.twoPow k))
  | .shrS => .ok (a >>> k)
  | .shrU => .ok (Bits.signed 64 (Bits.unsigned 64 a >>> k : Nat))
  | .rotl => .ok (Arithmetic.i64Rotl a b)
  | .rotr => .ok (Arithmetic.i64Rotr a b)
  | _ => .error .stuck

/-! ### Unary operators and conversions -/

/-- A unary operator or a conversion, from values of a type. -/
def unary (operator : Operator) (type : ValueType) (a : Int) : Except Failure Int :=
  match operator, type with
  | .clz, .i32 => .ok (Bits.clz32 a)
  | .ctz, .i32 => .ok (Arithmetic.i32Ctz a)
  | .popcnt, .i32 => .ok (Arithmetic.i32Popcnt a)
  | .clz, .i64 => .ok (Arithmetic.i64Clz a)
  | .ctz, .i64 => .ok (Arithmetic.i64Ctz a)
  | .popcnt, .i64 => .ok (Arithmetic.i64Popcnt a)
  | .extend8S, .i32 => .ok (Bits.shr32 (Bits.shl32 a 24) 24)
  | .extend16S, .i32 => .ok (Bits.shr32 (Bits.shl32 a 16) 16)
  | .extend8S, .i64 => .ok (Bits.signed 8 a)
  | .extend16S, .i64 => .ok (Bits.signed 16 a)
  | .extend32S, .i64 => .ok (Bits.signed 32 a)
  | .wrapI64, .i64 => .ok (Arithmetic.i32WrapI64 a)
  | .extendI32S, .i32 => .ok a
  | .extendI32U, .i32 => .ok (Bits.unsigned32 a)
  | _, _ => .error .stuck

/-! ### On values -/

def operand (type : ValueType) (v : Value) : Except Failure Int :=
  if v.type = type then .ok v.toInt else .error .stuck

def applyUnary (op : NumericOp) (a : Value) : Except Failure Value := do
  let a ← operand op.operand a
  let r ← unary op.operator op.operand a
  pure (.ofInt op.result r)

def applyBinary (op : NumericOp) (a b : Value) : Except Failure Value := do
  let a ← operand op.operand a
  let b ← operand op.operand b
  let r ← match op.operand with
    | .i32 => binary32 op.operator a b
    | .i64 => binary64 op.operator a b
  pure (.ofInt op.result r)

/-- A comparison of two values, which gives 1 or 0. -/
def applyComparison (op : NumericOp) (a b : Value) : Except Failure Value := do
  let a ← operand op.operand a
  let b ← operand op.operand b
  match comparison op.operator op.operand a b with
  | some holds => pure (.i32 (if holds then 1 else 0))
  | none => throw .stuck

/-! ### Accesses to memory -/

def loaded (access : Access) (n : Int) : Value := .ofInt access.type n

def stored (access : Access) (v : Value) : Except Failure Int := do
  let n ← operand access.type v
  pure (if access.isNarrowI64 then Arithmetic.i32WrapI64 n else n)

end WasmScript.Operation
