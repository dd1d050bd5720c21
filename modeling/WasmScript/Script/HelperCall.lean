/-
  WasmScript/Script/HelperCall.lean
  =================================
  **Helpers in the hands of a host** — what the arithmetic helpers of scripts give for
  any values.

  Scripts pass integers of the right type to their helpers, and `Helper.apply` says what
  they give.  A host may pass anything.  Then the operators of the host decide: a divisor
  that is zero only after it loses its bits above the lowest 32 does not trap, a quotient
  of fractions loses its fraction in the end, and big integers do not mix with numbers.
-/
import WasmScript.Host.Convert
import WasmScript.Script.Helper

namespace WasmScript

namespace HostValue

/-- The bytes that a value stands for as a text of digits; an empty list is an empty text. -/
def hexBytes (v : HostValue) : Except TypeCause (List UInt8) := do
  let length ← v.get "length"
  match v with
  | .string s => (Hex.toBytes? s).elim (.error .hexText) .ok
  | .array _ | .bytes _ => if length.isNumber (.ofInt 0) then .ok [] else .error .hexText
  | _ => .error .hexText

end HostValue

namespace Script.Helper

/-- The 32-bit integer that a value is used as. -/
def word (v : HostValue) : Except Failure Int := Number.toInt32 <$> v.toOperand

def ofWord (n : Int) : HostValue := .number (.ofInt n)

def trapIf (condition : Bool) (kind : TrapKind) : Except Failure Unit :=
  if condition then .error (.trap kind) else .ok ()

/-- Whether a value is the zero of either kind that a helper looks for. -/
def isZero (h : Helper) (v : HostValue) : Bool :=
  match h.type with
  | .i32 => v.isNumber (.ofInt 0)
  | .i64 => v.isBigInt 0

/-- An operator on two 32-bit integers; dividing by what has no bits left gives zero. -/
def onWords (op : Int → Int → Except TrapKind Int) (a b : HostValue) :
    Except Failure HostValue := do
  let x ← word a
  let y ← word b
  pure (ofWord ((op x y).toOption.getD 0))

/-- A rotation of 32 bits, whose count is looked at first. -/
def rotateWord (op : Int → Int → Int) (a b : HostValue) : Except Failure HostValue := do
  let count ← word b
  let value ← word a
  pure (ofWord (op value count))

/-- An operator on the bits of two big integers; dividing by what has no bits left is an error. -/
def onBits (op : Int → Int → Except TrapKind Int) (a b : HostValue) :
    Except Failure HostValue := do
  let x ← a.toBigInt
  let y ← b.toBigInt
  match op x (Bits.signed 64 y) with
  | .ok n => pure (.bigint n)
  | .error _ => .error (.range .divisionByZero)

/-- A rotation of 64 bits, whose count is looked at first. -/
def rotateBits (op : Int → Int → Int) (a b : HostValue) : Except Failure HostValue := do
  match ← b.toScalar with
  | .number _ => .error (.type .mixedIntegers)
  | .bigint count => do
    let value ← a.toBigInt
    pure (.bigint (op value count))

def countBits (op : Int → Int) (a : HostValue) : Except Failure HostValue := do
  let value ← a.toBigInt
  pure (.bigint (op value))

/-- The zeros below the lowest one of a number that is not zero: one less than none if it has no
bits among the lowest 32. -/
def trailingZeros (a : HostValue) : Except Failure HostValue := do
  let n := (← a.toNumber).toInt32
  pure (ofWord (31 - Bits.clz32 (Bits.and 32 n (-n))))

/-- The ones of a number, of which the first difference is a difference of numbers. -/
def ones (a : HostValue) : Except Failure HostValue := do
  let x ← a.toOperand
  let v := x.sub (.ofInt (Bits.and 32 (Bits.ushr32 x.toInt32 1) 0x55555555))
  pure (ofWord (Arithmetic.sumOfPairs v.toInt32))

def call (h : Helper) (a b : HostValue) : Except Failure HostValue := do
  match h with
  | .i32DivS => do
    trapIf (h.isZero b) .divideByZero
    trapIf (a.isNumber (.ofInt Arithmetic.i32Min) && b.isNumber (.ofInt (-1))) .integerOverflow
    ofWord <$> word (← a.div b)
  | .i32DivU => do
    trapIf (h.isZero b) .divideByZero
    onWords Arithmetic.i32DivU a b
  | .i32RemS => do
    trapIf (h.isZero b) .divideByZero
    ofWord <$> word (← a.rem b)
  | .i32RemU => do
    trapIf (h.isZero b) .divideByZero
    onWords Arithmetic.i32RemU a b
  | .i32Rotl => rotateWord Arithmetic.i32Rotl a b
  | .i32Rotr => rotateWord Arithmetic.i32Rotr a b
  | .i32Ctz => if h.isZero a then pure (ofWord 32) else trailingZeros a
  | .i32Popcnt => ones a
  | .i64DivS => do
    trapIf (h.isZero b) .divideByZero
    trapIf (a.isBigInt Arithmetic.i64Min && b.isBigInt (-1)) .integerOverflow
    a.div b
  | .i64DivU => do
    trapIf (h.isZero b) .divideByZero
    onBits Arithmetic.i64DivU a b
  | .i64RemS => do
    trapIf (h.isZero b) .divideByZero
    a.rem b
  | .i64RemU => do
    trapIf (h.isZero b) .divideByZero
    onBits Arithmetic.i64RemU a b
  | .i64Rotl => rotateBits Arithmetic.i64Rotl a b
  | .i64Rotr => rotateBits Arithmetic.i64Rotr a b
  | .i64Clz => countBits Arithmetic.i64Clz a
  | .i64Ctz => countBits Arithmetic.i64Ctz a
  | .i64Popcnt => countBits Arithmetic.i64Popcnt a
  | .i32WrapI64 => do
    let value ← a.toBigInt
    pure (ofWord (Arithmetic.i32WrapI64 value))

end Script.Helper

end WasmScript
