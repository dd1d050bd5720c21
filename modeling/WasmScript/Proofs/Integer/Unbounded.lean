/-
  WasmScript/Proofs/Integer/Unbounded.lean
  ========================================
  **Bit operators on big integers** — that operators without a width agree with those on
  words.

  A big integer has as many copies of its sign as anyone looks at.  So the bits of a
  negative integer are the complement of those of a natural number, and the operators on
  the signed readings of two words give the signed reading of what they give for the
  words: the copies of the signs behave as the highest bits do.
-/
import WasmScript.Integer.Bits
import Mathlib.Data.Int.Bitwise

namespace WasmScript.Bits

variable {w : Nat} {x y : BitVec w}

theorem toInt_of_msb_false (h : x.msb = false) : x.toInt = Int.ofNat x.toNat := by
  rw [BitVec.toInt_eq_msb_cond, h]
  rfl

theorem toInt_of_msb_true (h : x.msb = true) : x.toInt = Int.negSucc (~~~x).toNat := by
  have hlt := x.isLt
  rw [BitVec.toInt_eq_msb_cond, h, BitVec.toNat_not, Int.negSucc_eq]
  simp only [if_true]
  omega

/-- What is left of a word that the complement of another is taken out of. -/
theorem ldiff_not (x y : BitVec w) : Nat.ldiff x.toNat (~~~y).toNat = (x &&& y).toNat := by
  apply Nat.eq_of_testBit_eq
  intro i
  rw [Nat.testBit_ldiff, BitVec.testBit_toNat, BitVec.testBit_toNat, BitVec.testBit_toNat,
    BitVec.getLsbD_not, BitVec.getLsbD_and]
  by_cases hi : i < w
  · simp [hi]
  · simp [BitVec.getLsbD_of_ge x i (by omega)]

theorem land_toInt (x y : BitVec w) : Int.land x.toInt y.toInt = (x &&& y).toInt := by
  have hmsb : (x &&& y).msb = (x.msb && y.msb) := BitVec.msb_and
  cases hx : x.msb <;> cases hy : y.msb <;> rw [hx, hy] at hmsb
  · rw [toInt_of_msb_false hx, toInt_of_msb_false hy, toInt_of_msb_false hmsb]
    rfl
  · rw [toInt_of_msb_false hx, toInt_of_msb_true hy, toInt_of_msb_false hmsb, ← ldiff_not]
    rfl
  · rw [toInt_of_msb_true hx, toInt_of_msb_false hy, toInt_of_msb_false hmsb, BitVec.and_comm,
      ← ldiff_not]
    rfl
  · rw [toInt_of_msb_true hx, toInt_of_msb_true hy, toInt_of_msb_true hmsb, BitVec.not_and]
    rfl

theorem lor_toInt (x y : BitVec w) : Int.lor x.toInt y.toInt = (x ||| y).toInt := by
  have hmsb : (x ||| y).msb = (x.msb || y.msb) := BitVec.msb_or
  have hnot (u v : BitVec w) : ~~~(u ||| v) = ~~~u &&& ~~~v := BitVec.not_or
  have htwice (u : BitVec w) : ~~~(~~~u) = u := BitVec.not_not
  cases hx : x.msb <;> cases hy : y.msb <;> rw [hx, hy] at hmsb
  · rw [toInt_of_msb_false hx, toInt_of_msb_false hy, toInt_of_msb_false hmsb]
    rfl
  · rw [toInt_of_msb_false hx, toInt_of_msb_true hy, toInt_of_msb_true hmsb, hnot,
      BitVec.and_comm, ← ldiff_not, htwice]
    rfl
  · rw [toInt_of_msb_true hx, toInt_of_msb_false hy, toInt_of_msb_true hmsb, hnot, ← ldiff_not,
      htwice]
    rfl
  · rw [toInt_of_msb_true hx, toInt_of_msb_true hy, toInt_of_msb_true hmsb, hnot]
    rfl

theorem xor_toInt (x y : BitVec w) : Int.xor x.toInt y.toInt = (x ^^^ y).toInt := by
  have hmsb : (x ^^^ y).msb = (x.msb ^^ y.msb) := BitVec.msb_xor
  cases hx : x.msb <;> cases hy : y.msb <;> rw [hx, hy] at hmsb
  · rw [toInt_of_msb_false hx, toInt_of_msb_false hy, toInt_of_msb_false hmsb]
    rfl
  · rw [toInt_of_msb_false hx, toInt_of_msb_true hy, toInt_of_msb_true hmsb, BitVec.not_xor_right]
    rfl
  · rw [toInt_of_msb_true hx, toInt_of_msb_false hy, toInt_of_msb_true hmsb, BitVec.not_xor_left]
    rfl
  · have hboth : x ^^^ y = ~~~x ^^^ ~~~y := by
      rw [← BitVec.not_xor_left, ← BitVec.not_xor_right, BitVec.not_not]
    rw [toInt_of_msb_true hx, toInt_of_msb_true hy, toInt_of_msb_false hmsb, hboth]
    rfl

end WasmScript.Bits
