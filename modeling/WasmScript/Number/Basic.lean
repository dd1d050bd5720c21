/-
  WasmScript/Number/Basic.lean
  ============================
  **Host numbers** — the double-precision numbers a host passes across the call boundary.

  A `Number` is kept as the exact value it stands for: not a number, an infinity, or a
  sign with a mantissa and a power of two.  The sign of a zero is kept, because a host
  sees it.  `Number.round` brings any value to the nearest double, ties to the even
  mantissa.

  The conversions are the ones of the call boundary: `truncated` drops the fraction,
  `toInt32` and `toUInt32` reduce modulo 2^32, and `toInteger?` is defined on the whole
  numbers alone.
-/
import WasmScript.Integer.Bits

namespace WasmScript

/-- A double-precision number, as its exact value. -/
inductive Number where
  | nan
  | infinite (negative : Bool)
  /-- The value `± mantissa · 2 ^ exponent`. -/
  | finite (negative : Bool) (mantissa : Nat) (exponent : Int)
deriving DecidableEq, Repr

namespace Number

open WasmScript.Bits (twoPow)

/-- A whole number; exact up to 2^53. -/
def ofInt (n : Int) : Number := .finite (decide (n < 0)) n.natAbs 0

instance : Inhabited Number := ⟨ofInt 0⟩

def signed (negative : Bool) (magnitude : Nat) : Int :=
  if negative then -(magnitude : Int) else magnitude

/-- `m · 2 ^ e` without its fraction. -/
def scaled (m : Nat) (e : Int) : Nat :=
  if 0 ≤ e then m <<< e.toNat else m >>> (-e).toNat

def isWhole (m : Nat) (e : Int) : Bool :=
  decide (0 ≤ e ∨ twoPow (-e).toNat ∣ m)

/-! ### Rounding -/

def bitLength (n : Nat) : Nat := if n = 0 then 0 else n.log2 + 1

/-- `m / 2 ^ k` rounded to the nearest whole number, a tie going to the even one. -/
def shiftRound (m k : Nat) : Nat :=
  let quotient := m >>> k
  let rest := m % twoPow k
  let half := twoPow k / 2
  if k = 0 then m
  else if rest < half then quotient
  else if rest = half ∧ quotient % 2 = 0 then quotient
  else quotient + 1

/-- The double nearest to a number: at most fifty-three bits of mantissa, none below
2^-1074, and an infinity from 2^1024 on. -/
def round : Number → Number
  | .finite negative m e =>
    let drop : Int := max ((bitLength m : Int) - 53) (-1074 - e)
    let (m, e) := if drop ≤ 0 then (m, e) else (shiftRound m drop.toNat, e + drop)
    if (bitLength m : Int) + e > 1024 then .infinite negative else .finite negative m e
  | other => other

/-! ### Conversions -/

/-- The number without its fraction; zero for the values that are not finite. -/
def truncated : Number → Int
  | .finite negative m e => signed negative (scaled m e)
  | _ => 0

def toInt32 (x : Number) : Int := Bits.signed 32 x.truncated

def toUInt32 (x : Number) : Nat := Bits.unsigned 32 x.truncated

/-- The byte a number is used as: its whole part, of which the lowest eight bits are kept. -/
def toByte (x : Number) : UInt8 := UInt8.ofNat (x.toUInt32 % 256)

def toInteger? : Number → Option Int
  | .finite negative m e => if isWhole m e then some (signed negative (scaled m e)) else none
  | _ => none

/-- The integer a number is, if it and its neighbours can be told apart: below 2^53 in
magnitude. -/
def toSafeInteger? (x : Number) : Option Int :=
  x.toInteger?.filter fun n => n.natAbs < twoPow 53

def negativeZero : Number := .finite true 0 0

def isNegativeZero : Number → Bool
  | .finite true 0 _ => true
  | _ => false

/-! ### Arithmetic and comparison -/

/-- The signed mantissa of `± m · 2 ^ e` at a smaller exponent. -/
def align (negative : Bool) (m : Nat) (e low : Int) : Int := signed negative (m <<< (e - low).toNat)

/-- Equality of values: a NaN equals nothing and the two zeros are equal. -/
def same : Number → Number → Bool
  | .infinite s, .infinite t => s == t
  | .finite s m e, .finite t n f =>
    align s m e (min e f) == align t n f (min e f)
  | _, _ => false

/-- The sum, rounded to a double. -/
def add : Number → Number → Number
  | .infinite s, .infinite t => if s = t then .infinite s else .nan
  | .nan, _ | _, .nan => .nan
  | .infinite s, _ | _, .infinite s => .infinite s
  | .finite s m e, .finite t n f =>
    if m = 0 ∧ n = 0 then .finite (s && t) 0 0
    else
      let low := min e f
      let sum := align s m e low + align t n f low
      round (.finite (decide (sum < 0)) sum.natAbs low)

end Number

end WasmScript
