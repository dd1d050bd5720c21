/-
  WasmScript/Integer/Arithmetic.lean
  ==================================
  **Arithmetic** — the operations that a script calls out for: divisions, which
  may trap, rotations and bit counts.

  Each operation takes and gives signed integers, as a script holds them, and reinterprets
  the bits while it computes.  A division by zero traps, and so does the one signed
  quotient that does not fit; the remainder of that same division is zero.
-/
import WasmScript.Trap
import WasmScript.Integer.Bits

namespace WasmScript.Arithmetic

open WasmScript.Bits

/-- The least 32-bit integer. -/
def i32Min : Int := -0x80000000

/-- The least 64-bit integer. -/
def i64Min : Int := -0x8000000000000000

/-! ### Division -/

/-- The signed quotient, rounded toward zero. -/
def i32DivS (a b : Int) : Except TrapKind Int :=
  if b = 0 then .error .divideByZero
  else if a = i32Min ∧ b = -1 then .error .integerOverflow
  else .ok (signed32 (a.tdiv b))

/-- The quotient of the bits read as unsigned integers. -/
def i32DivU (a b : Int) : Except TrapKind Int :=
  if b = 0 then .error .divideByZero
  else .ok (signed32 (unsigned32 a / unsigned32 b : Nat))

/-- The signed remainder, which has the sign of the dividend. -/
def i32RemS (a b : Int) : Except TrapKind Int :=
  if b = 0 then .error .divideByZero else .ok (signed32 (a.tmod b))

/-- The remainder of the bits read as unsigned integers. -/
def i32RemU (a b : Int) : Except TrapKind Int :=
  if b = 0 then .error .divideByZero
  else .ok (signed32 (unsigned32 a % unsigned32 b : Nat))

/-- The signed quotient, rounded toward zero. -/
def i64DivS (a b : Int) : Except TrapKind Int :=
  if b = 0 then .error .divideByZero
  else if a = i64Min ∧ b = -1 then .error .integerOverflow
  else .ok (a.tdiv b)

/-- The quotient of the bits read as unsigned integers. -/
def i64DivU (a b : Int) : Except TrapKind Int :=
  if b = 0 then .error .divideByZero
  else .ok (signed 64 (unsigned 64 a / unsigned 64 b : Nat))

/-- The signed remainder, which has the sign of the dividend. -/
def i64RemS (a b : Int) : Except TrapKind Int :=
  if b = 0 then .error .divideByZero else .ok (a.tmod b)

/-- The remainder of the bits read as unsigned integers. -/
def i64RemU (a b : Int) : Except TrapKind Int :=
  if b = 0 then .error .divideByZero
  else .ok (signed 64 (unsigned 64 a % unsigned 64 b : Nat))

/-! ### Rotation -/

/-- The 32 bits moved up by a count modulo 32; those that leave at the top come in below. -/
def i32Rotl (value count : Int) : Int :=
  let k := Bits.count 32 count
  signed32 (Bits.or 32 (shl32 value k) (ushr32 value ((32 - k) % 32)))

/-- The 32 bits moved down by a count modulo 32; those that leave below come in at the top. -/
def i32Rotr (value count : Int) : Int :=
  let k := Bits.count 32 count
  signed32 (Bits.or 32 (ushr32 value k) (shl32 value ((32 - k) % 32)))

/-- The 64 bits moved up by a count modulo 64; those that leave at the top come in below. -/
def i64Rotl (value count : Int) : Int :=
  let k := Bits.count 64 count
  let bits := unsigned 64 value
  signed 64 (bits <<< k ||| bits >>> ((64 - k) % 64) : Nat)

/-- The 64 bits moved down by a count modulo 64; those that leave below come in at the top. -/
def i64Rotr (value count : Int) : Int :=
  let k := Bits.count 64 count
  let bits := unsigned 64 value
  signed 64 (bits >>> k ||| bits <<< ((64 - k) % 64) : Nat)

/-! ### Counting bits -/

/-- The zeros below the lowest one; the lowest one alone is `value & -value`. -/
def i32Ctz (value : Int) : Int :=
  if value = 0 then 32 else 31 - clz32 (Bits.and 32 value (-value))

def pairCounts (value : Int) : Int := value - Bits.and 32 (ushr32 value 1) 0x55555555

/-- The sum of the counts in sixteen pairs of bits: of fours, of bytes, and all by a product. -/
def sumOfPairs (v : Int) : Int :=
  let v := Bits.and 32 v 0x33333333 + Bits.and 32 (ushr32 v 2) 0x33333333
  let v := Bits.and 32 (v + ushr32 v 4) 0x0f0f0f0f
  ushr32 (imul v 0x01010101) 24

/-- The ones, counted in pairs first. -/
def i32Popcnt (value : Int) : Int := sumOfPairs (pairCounts value)

/-- The upper half of a 64-bit value, unsigned. -/
def high32 (value : Int) : Int := (unsigned 64 value >>> 32 : Nat)

/-- The lower half of a 64-bit value, unsigned. -/
def low32 (value : Int) : Int := unsigned 32 value

/-- The zeros above the highest one: those of the upper half, and of the lower one if the upper
has no ones. -/
def i64Clz (value : Int) : Int :=
  let high := high32 value
  if high ≠ 0 then clz32 high else 32 + clz32 (low32 value)

/-- The zeros below the lowest one: those of the lower half, and of the upper one if the lower
has no ones. -/
def i64Ctz (value : Int) : Int :=
  let low := low32 value
  if low ≠ 0 then i32Ctz low else 32 + i32Ctz (high32 value)

def i64Popcnt (value : Int) : Int := i32Popcnt (low32 value) + i32Popcnt (high32 value)

/-- The low 32 bits of a 64-bit value, signed. -/
def i32WrapI64 (value : Int) : Int := signed 32 value

end WasmScript.Arithmetic
