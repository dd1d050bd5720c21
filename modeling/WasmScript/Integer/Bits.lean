/-
  WasmScript/Integer/Bits.lean
  ============================
  **Bit operators on integers** — the operators that generated scripts are made of.

  A script holds a 32-bit value as a signed number and a 64-bit value as a signed integer
  of any size, and reinterprets the bits at each operation.  So the operators here take
  and give integers: those named `…32` reduce their operands modulo 2^32 first, as the
  operators of a script do on numbers, and the others work on two's complement numbers
  of the given width.
-/
namespace WasmScript.Bits

/-- Two to the power `k`: the value of bit `k`, and the number of values of `k` bits. -/
def twoPow (k : Nat) : Nat := Nat.pow 2 k

/-- The signed integer with the low `width` bits of `n`. -/
def signed (width : Nat) (n : Int) : Int := n.bmod (twoPow width)

/-- The unsigned integer with the low `width` bits of `n`. -/
def unsigned (width : Nat) (n : Int) : Nat := (n % twoPow width).toNat

/-- The signed 32-bit integer with the low bits of `n`. -/
def signed32 (n : Int) : Int := signed 32 n

/-- The unsigned 32-bit integer with the low bits of `n`. -/
def unsigned32 (n : Int) : Nat := unsigned 32 n

/-- Bitwise and of the low `width` bits, signed. -/
def and (width : Nat) (a b : Int) : Int :=
  signed width (unsigned width a &&& unsigned width b : Nat)

/-- Bitwise or of the low `width` bits, signed. -/
def or (width : Nat) (a b : Int) : Int := signed width (unsigned width a ||| unsigned width b : Nat)

/-- Bitwise exclusive or of the low `width` bits, signed. -/
def xor (width : Nat) (a b : Int) : Int :=
  signed width (unsigned width a ^^^ unsigned width b : Nat)

/-- The left shift of a 32-bit number by `k` places. -/
def shl32 (n : Int) (k : Nat) : Int := signed32 (signed32 n * twoPow k)

/-- The right shift of a 32-bit number that keeps its sign. -/
def shr32 (n : Int) (k : Nat) : Int := signed32 n >>> k

/-- The right shift of a 32-bit number read as unsigned. -/
def ushr32 (n : Int) (k : Nat) : Nat := unsigned32 n >>> k

/-- The low 32 bits of a product, signed. -/
def imul (a b : Int) : Int := signed32 (a * b)

/-- The zeros above the highest one of a 32-bit number. -/
def clz32 (n : Int) : Nat :=
  let u := unsigned32 n
  if u = 0 then 32 else 31 - u.log2

/-- A shift count or rotation count, reduced modulo a power of two. -/
def count (width : Nat) (n : Int) : Nat := (n % (width : Int)).toNat

end WasmScript.Bits
