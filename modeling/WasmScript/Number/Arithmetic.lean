/-
  WasmScript/Number/Arithmetic.lean
  =================================
  **Arithmetic on host numbers** — the operations of double precision, each exact until
  its one rounding at the end.

  A quotient is computed with more bits than a double holds and one bit more that says
  whether anything was left over, so that rounding it is rounding the true quotient.  A
  remainder has the sign of the dividend and is always exact.  `ofDecimal` is the same
  rounding for decimals: it gives the double that a decimal reads as.
-/
import WasmScript.Number.Decimal

namespace WasmScript.Number

open WasmScript.Bits (twoPow)

def isZero : Number → Bool
  | .finite _ 0 _ => true
  | _ => false

def neg : Number → Number
  | .nan => .nan
  | .infinite s => .infinite !s
  | .finite s m e => .finite (!s) m e

/-- The difference, rounded to a double. -/
def sub (a b : Number) : Number := a.add b.neg

/-- `± m / n · 2 ^ e` rounded to a double, for a positive `n`. -/
def quotient (negative : Bool) (m n : Nat) (e : Int) : Number :=
  let lift := bitLength n + 56 - bitLength m
  let dividend := m <<< lift
  let rest := if dividend % n = 0 then 0 else 1
  round (.finite negative (2 * (dividend / n) + rest) (e - lift - 1))

/-- The quotient, rounded to a double. -/
def div : Number → Number → Number
  | .nan, _ | _, .nan | .infinite _, .infinite _ => .nan
  | .infinite s, .finite t _ _ => .infinite (s != t)
  | .finite s _ _, .infinite t => .finite (s != t) 0 0
  | .finite s m e, .finite t n f =>
    if n = 0 then if m = 0 then .nan else .infinite (s != t)
    else quotient (s != t) m n (e - f)

/-- The remainder of a division that is rounded toward zero; it has the sign of the dividend. -/
def rem : Number → Number → Number
  | .finite s m e, .finite _ n f =>
    if n = 0 then .nan
    else
      let low := min e f
      round (.finite s ((m <<< (e - low).toNat) % (n <<< (f - low).toNat)) low)
  | .finite s m e, .infinite _ => .finite s m e
  | _, _ => .nan

/-- Whether one number lies below another; nothing lies below or above a NaN. -/
def lt : Number → Number → Bool
  | .nan, _ | _, .nan => false
  | .infinite s, .infinite t => s && !t
  | .infinite s, _ => s
  | _, .infinite t => !t
  | .finite s m e, .finite t n f =>
    decide (align s m e (min e f) < align t n f (min e f))

/-- The double that `± digits · 10 ^ exponent` reads as. -/
def ofDecimal (negative : Bool) (digits : Nat) (exponent : Int) : Number :=
  let point := (digitCount digits : Int) + exponent
  if digits = 0 ∨ point < -330 then .finite negative 0 0
  else if 310 < point then .infinite negative
  else if 0 ≤ exponent then round (.finite negative (digits * tenPow exponent.toNat) 0)
  else quotient negative digits (tenPow (-exponent).toNat) 0

end WasmScript.Number
