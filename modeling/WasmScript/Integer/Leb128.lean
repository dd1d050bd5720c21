/-
  WasmScript/Integer/Leb128.lean
  ==============================
  **LEB128** — integers as bytes of seven bits each, lowest first, where every byte but
  the last has its high bit set.

  The encoders give the shortest form.  An unsigned encoding ends when nothing is left; a
  signed one ends when what is left repeats the sign bit of the byte just written.
-/
import WasmScript.Integer.Bits

namespace WasmScript.Leb128

def unsigned (n : Nat) : List UInt8 :=
  let byte := n &&& 0x7f
  let rest := n >>> 7
  if rest = 0 then [UInt8.ofNat byte] else UInt8.ofNat (byte ||| 0x80) :: unsigned rest
termination_by n
decreasing_by omega

def signed (n : Int) : List UInt8 :=
  let byte := Bits.unsigned 7 n
  let rest := n >>> (7 : Nat)
  if (rest = 0 ∧ byte &&& 0x40 = 0) ∨ (rest = -1 ∧ byte &&& 0x40 ≠ 0) then [UInt8.ofNat byte]
  else UInt8.ofNat (byte ||| 0x80) :: signed rest
termination_by n.natAbs
decreasing_by
  next hmore =>
    have hrest : n >>> (7 : Nat) = n / 128 := Int.shiftRight_eq_div_pow n 7
    -- Only zero and minus one are not made smaller, and neither leaves anything to be written.
    have hzero : n ≠ 0 := fun h => hmore (by subst h; decide)
    have hminus : n ≠ -1 := fun h => hmore (by subst h; decide)
    omega

end WasmScript.Leb128
