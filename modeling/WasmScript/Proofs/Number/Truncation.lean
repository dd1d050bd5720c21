/-
  WasmScript/Proofs/Number/Truncation.lean
  ========================================
  **The integer in a double** — what a number is without its fraction.

  A finite number is a rational, and `wholePart` drops the fraction of that toward zero; what
  is not finite counts as zero.  `truncated` computes it by shifting the mantissa, and a
  number counts as a safe integer just if it is a whole one below 2^53.
-/
import Mathlib.Data.Rat.Floor
import WasmScript.Number.Basic

namespace WasmScript.Number

open WasmScript.Bits (twoPow)

def value? : Number → Option ℚ
  | .finite negative m e => some ((if negative then -1 else 1) * ((m : ℚ) * 2 ^ e))
  | _ => none

/-- A number without its fraction, zero if it is not finite. -/
def wholePart (x : Number) : Int :=
  match x.value? with
  | some q => if 0 ≤ q then ⌊q⌋ else ⌈q⌉
  | none => 0

theorem magnitude_shl (m k : Nat) : (m : ℚ) * 2 ^ (k : Int) = ((m * 2 ^ k : Nat) : ℚ) := by
  rw [zpow_natCast, Nat.cast_mul, Nat.cast_pow]
  rfl

theorem magnitude_shr (m k : Nat) : (m : ℚ) * 2 ^ (-(k : Int)) = (m : ℚ) / ((2 ^ k : Nat) : ℚ) := by
  rw [zpow_neg, zpow_natCast, Nat.cast_pow, div_eq_mul_inv]
  rfl

theorem scaled_shl (m k : Nat) : scaled m (k : Int) = m * 2 ^ k := by
  rw [scaled, if_pos (Int.natCast_nonneg k), Int.toNat_natCast, Nat.shiftLeft_eq]

theorem scaled_shr {m k : Nat} (hk : k ≠ 0) : scaled m (-(k : Int)) = m / 2 ^ k := by
  rw [scaled, if_neg (by omega), Int.neg_neg, Int.toNat_natCast, Nat.shiftRight_eq_div_pow]

/-- An exponent moves the digits of a mantissa up or down. -/
theorem exponent_cases (e : Int) : (∃ k : Nat, e = k) ∨ ∃ k : Nat, k ≠ 0 ∧ e = -(k : Int) := by
  rcases Int.lt_or_le e 0 with he | he
  · exact .inr ⟨(-e).toNat, by omega, by omega⟩
  · exact .inl ⟨e.toNat, by omega⟩

/-- Shifting a mantissa drops the fraction of the magnitude. -/
theorem floor_magnitude (m : Nat) (e : Int) : ⌊(m : ℚ) * 2 ^ e⌋ = scaled m e := by
  rcases exponent_cases e with ⟨k, rfl⟩ | ⟨k, hk, rfl⟩
  · rw [magnitude_shl, Int.floor_natCast, scaled_shl]
  · rw [magnitude_shr, Rat.floor_natCast_div_natCast, scaled_shr hk]
    rfl

theorem magnitude_nonneg (m : Nat) (e : Int) : 0 ≤ (m : ℚ) * 2 ^ e :=
  mul_nonneg (Nat.cast_nonneg m) (zpow_nonneg (by decide) e)

theorem truncated_eq_wholePart (x : Number) : x.truncated = x.wholePart := by
  cases x with
  | nan => rfl
  | infinite s => rfl
  | finite s m e =>
    have hfloor := floor_magnitude m e
    have hnonneg := magnitude_nonneg m e
    cases s with
    | false =>
      have hvalue : (Number.finite false m e).value? = some ((m : ℚ) * 2 ^ e) :=
        congrArg some (one_mul _)
      rw [wholePart, hvalue, truncated]
      dsimp only
      rw [if_pos hnonneg, hfloor]
      rfl
    | true =>
      have hvalue : (Number.finite true m e).value? = some (-((m : ℚ) * 2 ^ e)) :=
        congrArg some (neg_one_mul _)
      rw [wholePart, hvalue, truncated]
      dsimp only
      split
      · next hneg =>
        -- Only zero is neither positive nor negative, and the sign does not matter to it.
        have hzero : (m : ℚ) * 2 ^ e = 0 := le_antisymm (neg_nonneg.mp hneg) hnonneg
        rw [hzero, Int.floor_zero] at hfloor
        rw [hzero, neg_zero, Int.floor_zero, signed, if_pos rfl, ← hfloor, Int.neg_zero]
      · rw [Int.ceil_neg, hfloor]
        rfl

/-- A number is whole just if no digit of its mantissa is dropped. -/
theorem isWhole_iff (m : Nat) (e : Int) :
    isWhole m e = true ↔ (m : ℚ) * 2 ^ e = (scaled m e : ℚ) := by
  rcases exponent_cases e with ⟨k, rfl⟩ | ⟨k, hk, rfl⟩
  · have hwhole : isWhole m (k : Int) = true := decide_eq_true (.inl (Int.natCast_nonneg k))
    rw [magnitude_shl, scaled_shl]
    exact iff_of_true hwhole rfl
  · have hwhole : isWhole m (-(k : Int)) = true ↔ 2 ^ k ∣ m := by
      have hneg : ¬ (0 : Int) ≤ -(k : Int) := by omega
      rw [isWhole, decide_eq_true_eq, Int.neg_neg, Int.toNat_natCast]
      exact or_iff_right hneg
    -- The fraction is whole just if the power of two divides the mantissa.
    have hpos : ((2 ^ k : Nat) : ℚ) ≠ 0 := Nat.cast_ne_zero.mpr (Nat.two_pow_pos k).ne'
    rw [hwhole, magnitude_shr, scaled_shr hk, div_eq_iff hpos, ← Nat.cast_mul, Nat.cast_inj]
    constructor
    · exact fun h => (Nat.div_mul_cancel h).symm
    · intro h
      rw [h]
      exact Nat.dvd_mul_left _ _

/-- A number is an integer just if the rational that it is is one. -/
theorem toInteger?_eq_some_iff {x : Number} {n : Int} :
    x.toInteger? = some n ↔ x.value? = some (n : ℚ) := by
  cases x with
  | nan => exact iff_of_false (by rintro ⟨⟩) (by rintro ⟨⟩)
  | infinite s => exact iff_of_false (by rintro ⟨⟩) (by rintro ⟨⟩)
  | finite s m e =>
    have hsigned (k : Nat) : ((signed s k : Int) : ℚ) = (if s then -1 else 1) * (k : ℚ) := by
      cases s with
      | false => simp [signed]
      | true => simp [signed]
    rw [toInteger?, value?, Option.some_inj]
    constructor
    · intro h
      split at h
      · next hwhole =>
        cases h
        rw [hsigned, (isWhole_iff m e).mp hwhole]
      · cases h
    · intro h
      -- Its magnitude is an integer with it, so no digit is dropped.
      have hint : ∃ k : Int, (m : ℚ) * 2 ^ e = k := by
        cases s with
        | false => exact ⟨n, by simpa using h⟩
        | true => exact ⟨-n, by rw [Int.cast_neg, ← h]; simp⟩
      obtain ⟨k, hk⟩ := hint
      have hscaled : (scaled m e : Int) = k := by rw [← floor_magnitude, hk, Int.floor_intCast]
      have hwhole : (m : ℚ) * 2 ^ e = (scaled m e : ℚ) := by
        rw [hk, ← hscaled]
        rfl
      rw [if_pos ((isWhole_iff m e).mpr hwhole)]
      rw [hwhole, ← hsigned] at h
      rw [Int.cast_inj.mp h]

theorem toSafeInteger?_eq_some_iff {x : Number} {n : Int} :
    x.toSafeInteger? = some n ↔ x.value? = some (n : ℚ) ∧ n.natAbs < 2 ^ 53 := by
  rw [toSafeInteger?, Option.filter_eq_some_iff, toInteger?_eq_some_iff, decide_eq_true_eq]
  rfl

end WasmScript.Number
