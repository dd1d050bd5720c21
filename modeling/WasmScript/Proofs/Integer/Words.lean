/-
  WasmScript/Proofs/Integer/Words.lean
  ====================================
  **Bit operators on words** — the operators of scripts read as operators on bit patterns.

  A script holds a word of `w` bits as a signed integer, and its operators accept any
  integer at all: each of them looks at the lowest `w` bits alone.  So `BitVec.ofInt w`
  is the reading of an integer as a word, and each lemma here says that an operator of
  `WasmScript.Bits` is the operator of words on those readings, whatever integers it is
  given.  None of them asks that an operand be canonical: the helpers call these operators
  on unsigned numbers as well.
-/
import Mathlib.Algebra.Group.Nat.Defs
import Mathlib.Algebra.Ring.Int.Defs
import WasmScript.Integer.Bits

namespace WasmScript.Bits

/-! ### Readings -/

theorem twoPow_eq (k : Nat) : twoPow k = 2 ^ k := rfl

theorem signed_eq_toInt (w : Nat) (n : Int) : signed w n = (BitVec.ofInt w n).toInt := by
  rw [BitVec.toInt_ofInt]
  rfl

theorem unsigned_eq_toNat (w : Nat) (n : Int) : unsigned w n = (BitVec.ofInt w n).toNat := by
  rw [BitVec.toNat_ofInt]
  rfl

/-- The signed reading of a word is canonical. -/
@[simp] theorem signed_toInt {w : Nat} (x : BitVec w) : signed w x.toInt = x.toInt := by
  rw [signed_eq_toInt, BitVec.ofInt_toInt]

@[simp] theorem unsigned_toInt {w : Nat} (x : BitVec w) : unsigned w x.toInt = x.toNat := by
  rw [unsigned_eq_toNat, BitVec.ofInt_toInt]

theorem ofInt_natCast_toNat {w : Nat} (x : BitVec w) : BitVec.ofInt w x.toNat = x := by
  rw [BitVec.ofInt_natCast, BitVec.ofNat_toNat, BitVec.setWidth_eq]

/-- The unsigned reading of a word is brought back to the signed one. -/
@[simp] theorem signed_toNat {w : Nat} (x : BitVec w) : signed w (x.toNat : Int) = x.toInt := by
  rw [signed_eq_toInt, ofInt_natCast_toNat]

/-- Bringing an integer into the signed range does not change its word. -/
@[simp] theorem ofInt_signed (w : Nat) (n : Int) :
    BitVec.ofInt w (signed w n) = BitVec.ofInt w n := by
  rw [signed_eq_toInt, BitVec.ofInt_toInt]

/-- A number that was brought into the signed range has the same unsigned reading. -/
theorem unsigned_signed (w : Nat) (n : Int) : unsigned w (signed w n) = unsigned w n := by
  rw [unsigned_eq_toNat, ofInt_signed, unsigned_eq_toNat]

theorem unsigned_unsigned (w : Nat) (n : Int) : unsigned w (unsigned w n) = unsigned w n := by
  rw [unsigned_eq_toNat, unsigned_eq_toNat, ofInt_natCast_toNat]

theorem ofInt_sub (w : Nat) (a b : Int) :
    BitVec.ofInt w (a - b) = BitVec.ofInt w a - BitVec.ofInt w b := by
  rw [Int.sub_eq_add_neg, BitVec.ofInt_add, BitVec.ofInt_neg, ← BitVec.sub_eq_add_neg]

/-- A narrower word is the low part of a wider one. -/
theorem setWidth_ofInt {v w : Nat} (h : v ≤ w) (n : Int) :
    (BitVec.ofInt w n).setWidth v = BitVec.ofInt v n := by
  rw [← BitVec.signExtend_eq_setWidth_of_le _ h]
  apply BitVec.eq_of_toInt_eq
  rw [BitVec.toInt_signExtend, BitVec.toInt_ofInt, BitVec.toInt_ofInt, Nat.min_eq_left h]
  exact Int.bmod_bmod_of_dvd (Nat.pow_dvd_pow 2 h)

/-! ### Logic -/

theorem and_eq_toInt (w : Nat) (a b : Int) :
    Bits.and w a b = (BitVec.ofInt w a &&& BitVec.ofInt w b).toInt := by
  rw [Bits.and, unsigned_eq_toNat, unsigned_eq_toNat, ← BitVec.toNat_and, signed_toNat]

theorem or_eq_toInt (w : Nat) (a b : Int) :
    Bits.or w a b = (BitVec.ofInt w a ||| BitVec.ofInt w b).toInt := by
  rw [Bits.or, unsigned_eq_toNat, unsigned_eq_toNat, ← BitVec.toNat_or, signed_toNat]

theorem xor_eq_toInt (w : Nat) (a b : Int) :
    Bits.xor w a b = (BitVec.ofInt w a ^^^ BitVec.ofInt w b).toInt := by
  rw [Bits.xor, unsigned_eq_toNat, unsigned_eq_toNat, ← BitVec.toNat_xor, signed_toNat]

/-! ### Shifts and products -/

theorem ofInt_twoPow (w k : Nat) : BitVec.ofInt w (twoPow k) = BitVec.twoPow w k := by
  apply BitVec.eq_of_toNat_eq
  rw [BitVec.ofInt_natCast, BitVec.toNat_ofNat, BitVec.toNat_twoPow]
  rfl

/-- A shift to the left is a product with a power of two, at any width. -/
theorem ofInt_mul_twoPow (w : Nat) (n : Int) (k : Nat) :
    BitVec.ofInt w (n * twoPow k) = BitVec.ofInt w n <<< k := by
  rw [BitVec.ofInt_mul, ofInt_twoPow, BitVec.shiftLeft_eq_mul_twoPow]

theorem shl32_eq_toInt (n : Int) (k : Nat) : shl32 n k = (BitVec.ofInt 32 n <<< k).toInt := by
  rw [shl32, signed32, signed32, signed_eq_toInt 32 (_ * _), ofInt_mul_twoPow, ofInt_signed]

theorem shr32_eq_toInt (n : Int) (k : Nat) :
    shr32 n k = ((BitVec.ofInt 32 n).sshiftRight k).toInt := by
  rw [shr32, signed32, signed_eq_toInt, BitVec.toInt_sshiftRight]

theorem ushr32_eq_toNat (n : Int) (k : Nat) : ushr32 n k = (BitVec.ofInt 32 n >>> k).toNat := by
  rw [ushr32, unsigned32, unsigned_eq_toNat, BitVec.toNat_ushiftRight]

theorem imul_eq_toInt (a b : Int) :
    imul a b = (BitVec.ofInt 32 a * BitVec.ofInt 32 b).toInt := by
  rw [imul, signed32, signed_eq_toInt, BitVec.ofInt_mul]

/-- A count is reduced modulo the width, which is what the low bits of its word are. -/
theorem count_toInt {w : Nat} (x : BitVec w) (k : Nat) (h : 2 ^ w % k = 0) :
    count k x.toInt = x.toNat % k := by
  have hdvd : (k : Int) ∣ ((2 ^ w : Nat) : Int) := by
    exact_mod_cast Nat.dvd_of_mod_eq_zero h
  have hmod : x.toInt % (k : Int) = (x.toNat : Int) % (k : Int) := by
    rw [BitVec.toInt_eq_toNat_bmod, Int.bmod_def]
    split
    · exact Int.emod_emod_of_dvd _ hdvd
    · rw [Int.sub_emod, Int.emod_emod_of_dvd _ hdvd, Int.emod_eq_zero_of_dvd hdvd, Int.sub_zero,
        Int.emod_emod]
  rw [count, hmod]
  exact_mod_cast rfl

/-! ### Words of results -/

theorem ofInt_and (w : Nat) (a b : Int) :
    BitVec.ofInt w (Bits.and w a b) = BitVec.ofInt w a &&& BitVec.ofInt w b := by
  rw [and_eq_toInt, BitVec.ofInt_toInt]

theorem ofInt_shl32 (n : Int) (k : Nat) :
    BitVec.ofInt 32 (shl32 n k) = BitVec.ofInt 32 n <<< k := by
  rw [shl32_eq_toInt, BitVec.ofInt_toInt]

theorem ofInt_ushr32 (n : Int) (k : Nat) :
    BitVec.ofInt 32 (ushr32 n k) = BitVec.ofInt 32 n >>> k := by
  rw [ushr32_eq_toNat, ofInt_natCast_toNat]

theorem ofInt_imul (a b : Int) :
    BitVec.ofInt 32 (imul a b) = BitVec.ofInt 32 a * BitVec.ofInt 32 b := by
  rw [imul_eq_toInt, BitVec.ofInt_toInt]

/-! ### Zeros above the highest one -/

theorem clz_toNat_lt {w : Nat} {x : BitVec w} (hx : x ≠ 0#w) : x.clz.toNat < w := by
  have h := BitVec.clz_lt_iff_ne_zero.mpr hx
  simpa [BitVec.lt_def, Nat.mod_eq_of_lt Nat.lt_two_pow_self] using h

/-- The highest one of a word stands below its leading zeros. -/
theorem log2_toNat {w : Nat} {x : BitVec w} (hx : x ≠ 0#w) :
    x.toNat.log2 = w - 1 - x.clz.toNat := by
  have hclz := clz_toNat_lt hx
  have hne : x.toNat ≠ 0 := by simpa [← BitVec.toNat_inj] using hx
  apply (Nat.log2_eq_iff hne).mpr
  constructor
  · exact BitVec.two_pow_sub_clz_le_toNat_of_ne_zero (by omega) hx
  · have hexp : w - 1 - x.clz.toNat + 1 = w - x.clz.toNat := by omega
    rw [hexp]
    exact BitVec.toNat_lt_two_pow_sub_clz

theorem clz32_eq_toNat (n : Int) : clz32 n = (BitVec.ofInt 32 n).clz.toNat := by
  rw [clz32, unsigned32, unsigned_eq_toNat]
  generalize BitVec.ofInt 32 n = x
  by_cases hx : x = 0#32
  · subst hx
    decide
  · have hne : x.toNat ≠ 0 := by simpa [← BitVec.toNat_inj] using hx
    have hclz := clz_toNat_lt hx
    simp only [hne, if_false, log2_toNat hx]
    omega

end WasmScript.Bits
