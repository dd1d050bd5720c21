/-
  WasmScript/Proofs/Number/Sums.lean
  ==================================
  **Sums of whole numbers** — that rounding a sum never moves it across a small integer.

  A whole double may have any size and any exponent, and a sum from 2^53 on is rounded.
  Whether the sum lies beyond an integer below 2^53 can still be told from it: below 2^53
  it is exact, and from there on it is rounded to something that is no smaller than 2^53.
  So a bound that is checked against a rounded sum is checked against the sum.
-/
import WasmScript.Proofs.Number.Whole

namespace WasmScript.Number

open WasmScript.Bits (twoPow)

/-! ### Bits -/

theorem bitLength_le {m k : Nat} (h : m < 2 ^ k) : bitLength m ≤ k := by
  unfold bitLength
  split
  · exact Nat.zero_le k
  · next hm => exact (Nat.log2_lt hm).mpr h

theorem lt_bitLength {m k : Nat} (h : 2 ^ k ≤ m) : k < bitLength m := by
  have hm : m ≠ 0 := Nat.ne_of_gt (Nat.lt_of_lt_of_le (Nat.two_pow_pos k) h)
  rw [bitLength, if_neg hm]
  exact Nat.lt_succ_of_le ((Nat.le_log2 hm).mpr h)

theorem two_pow_bitLength_le {m k : Nat} (h : bitLength m = k + 1) : 2 ^ k ≤ m := by
  unfold bitLength at h
  split at h
  · omega
  · next hm => exact (Nat.le_log2 hm).mp (Nat.le_of_eq (Nat.succ.inj h).symm)

theorem shiftRight_le_shiftRound (m k : Nat) : m >>> k ≤ shiftRound m k := by
  rw [shiftRound]
  split
  · next hk =>
    rw [hk]
    exact Nat.le_refl m
  · split
    · exact Nat.le_refl _
    · split
      · exact Nat.le_refl _
      · exact Nat.le_succ _

/-- Nothing is rounded where only zeros are dropped. -/
theorem shiftRound_mul (m : Nat) {k d : Nat} (h : d ≤ k) :
    shiftRound (m * 2 ^ k) d = m * 2 ^ (k - d) := by
  have hsplit : m * 2 ^ k = m * 2 ^ (k - d) * 2 ^ d := by
    rw [Nat.mul_assoc, ← Nat.pow_add, Nat.sub_add_cancel h]
  have hquotient : (m * 2 ^ k) >>> d = m * 2 ^ (k - d) := by
    rw [Nat.shiftRight_eq_div_pow, hsplit, Nat.mul_div_cancel _ (Nat.two_pow_pos d)]
  have hrest : m * 2 ^ k % twoPow d = 0 := by
    rw [Bits.twoPow_eq, hsplit, Nat.mul_mod_left]
  rw [shiftRound]
  simp only [hquotient, hrest]
  cases d with
  | zero => rw [if_pos rfl, Nat.sub_zero]
  | succ d =>
    have hhalf : 0 < twoPow (d + 1) / 2 := by
      rw [Bits.twoPow_eq, Nat.pow_succ, Nat.mul_div_cancel _ (by decide)]
      exact Nat.two_pow_pos d
    rw [if_neg (Nat.succ_ne_zero d), if_pos hhalf]

/-! ### Comparisons -/

theorem signed_mul (s : Bool) (m k : Nat) : signed s (m * k) = signed s m * k := by
  cases s with
  | false => exact Int.natCast_mul m k
  | true =>
    change -((m * k : Nat) : Int) = -(m : Int) * k
    rw [Int.natCast_mul, Int.neg_mul]

theorem align_ofInt (n : Int) (k : Nat) :
    align (decide (n < 0)) n.natAbs 0 (-k) = n * 2 ^ k := by
  have hshift : ((0 : Int) - -k).toNat = k := by omega
  rw [align, hshift, Nat.shiftLeft_eq, signed_mul, signed_natAbs]
  push_cast
  rfl

/-- Comparing with a number that is exact below the point. -/
theorem lt_fraction (j : Int) (s : Bool) (m k : Nat) :
    (ofInt j).lt (.finite s (m * 2 ^ k) (-k)) = decide (j < signed s m) := by
  have hlow : min (0 : Int) (-k) = -k := by omega
  have hpos : (0 : Int) < 2 ^ k := Int.pow_pos (by decide)
  have hself : ((-k : Int) - -k).toNat = 0 := by omega
  rw [ofInt, lt, hlow, align_ofInt, align, hself, Nat.shiftLeft_zero, signed_mul, decide_eq_decide]
  push_cast
  exact Int.mul_lt_mul_right hpos

/-- Comparing with a number that is so large that only its sign matters. -/
theorem lt_large {j : Int} (hj : j.natAbs < 2 ^ 53) (s : Bool) {m k : Nat}
    (h : 2 ^ 53 ≤ m * 2 ^ k) :
    (ofInt j).lt (.finite s m k) = !s := by
  have hlow : min (0 : Int) k = 0 := by omega
  have halign : align (decide (j < 0)) j.natAbs 0 0 = j := by
    have hzero := align_ofInt j 0
    rwa [Int.natCast_zero, Int.neg_zero, Int.pow_zero, Int.mul_one] at hzero
  have hshift : ((k : Int) - 0).toNat = k := by omega
  rw [ofInt, lt, hlow, halign, align, hshift, Nat.shiftLeft_eq]
  cases s with
  | false =>
    change decide (j < ((m * 2 ^ k : Nat) : Int)) = true
    exact decide_eq_true (by omega)
  | true =>
    change decide (j < -((m * 2 ^ k : Nat) : Int)) = false
    exact decide_eq_false (by omega)

/-! ### Rounding -/

/-- A number with few enough digits is kept. -/
theorem round_kept {s : Bool} {m : Nat} {e : Int}
    (h : max ((bitLength m : Int) - 53) (-1074 - e) ≤ 0) :
    round (.finite s m e) = if (bitLength m : Int) + e > 1024 then .infinite s
      else .finite s m e := by
  rw [round]
  simp only [if_pos h]

/-- Of another one the lowest digits are dropped. -/
theorem round_dropped {s : Bool} {m d : Nat} {e : Int}
    (h : max ((bitLength m : Int) - 53) (-1074 - e) = d) (hd : 0 < d) :
    round (.finite s m e) =
      if (bitLength (shiftRound m d) : Int) + (e + d) > 1024 then .infinite s
      else .finite s (shiftRound m d) (e + d) := by
  have hsome : ¬ (d : Int) ≤ 0 := by omega
  rw [round]
  simp only [h, if_neg hsome, Int.toNat_natCast]

theorem bitLength_mul_le {m : Nat} (h : m < 2 ^ 53) (k : Nat) : bitLength (m * 2 ^ k) ≤ 53 + k := by
  refine bitLength_le ?_
  rw [Nat.pow_add]
  exact Nat.mul_lt_mul_of_pos_right h (Nat.two_pow_pos k)

/-- Where only zeros are dropped, rounding changes the form of a number but not its value. -/
theorem round_fraction (s : Bool) {m : Nat} (h : m < 2 ^ 53) (k : Nat) :
    ∃ i : Nat, round (.finite s (m * 2 ^ k) (-k)) = .finite s (m * 2 ^ i) (-i) := by
  have hlength := bitLength_mul_le h k
  rcases Int.lt_or_le 0 (max ((bitLength (m * 2 ^ k) : Int) - 53) (-1074 - -(k : Int))) with
    hsome | hkept
  · obtain ⟨d, hd⟩ := Int.eq_ofNat_of_zero_le (Int.le_of_lt hsome)
    have hdk : d ≤ k := by omega
    have hrest := bitLength_mul_le h (k - d)
    have hexponent : (-k : Int) + d = -((k - d : Nat) : Int) := by omega
    refine ⟨k - d, ?_⟩
    rw [round_dropped hd (by omega), shiftRound_mul m hdk, hexponent, if_neg (by omega)]
  · refine ⟨k, ?_⟩
    rw [round_kept hkept, if_neg (by omega)]

/-- From 2^53 on a number is rounded to something from 2^53 on. -/
theorem round_large (s : Bool) {m : Nat} (h : 2 ^ 53 ≤ m) (k : Nat) :
    round (.finite s (m * 2 ^ k) (-k)) = .infinite s ∨
      ∃ q i : Nat, 2 ^ 53 ≤ q * 2 ^ i ∧ round (.finite s (m * 2 ^ k) (-k)) = .finite s q i := by
  have hlength : 53 + k < bitLength (m * 2 ^ k) := by
    refine lt_bitLength ?_
    rw [Nat.pow_add]
    exact Nat.mul_le_mul_right _ h
  obtain ⟨i, hi⟩ := Nat.exists_eq_add_of_lt hlength
  have hdrop : max ((bitLength (m * 2 ^ k) : Int) - 53) (-1074 - -(k : Int)) =
      ((k + i + 1 : Nat) : Int) := by
    omega
  have hquotient : 2 ^ 52 ≤ shiftRound (m * 2 ^ k) (k + i + 1) := by
    refine Nat.le_trans ?_ (shiftRight_le_shiftRound _ _)
    rw [Nat.shiftRight_eq_div_pow, Nat.le_div_iff_mul_le (Nat.two_pow_pos _), ← Nat.pow_add]
    exact two_pow_bitLength_le (by omega)
  have hexponent : (-k : Int) + (k + i + 1 : Nat) = ((i + 1 : Nat) : Int) := by omega
  rw [round_dropped hdrop (Nat.succ_pos _), hexponent]
  split
  · exact .inl rfl
  · refine .inr ⟨_, i + 1, ?_, rfl⟩
    calc 2 ^ 53 = 2 ^ 52 * 2 ^ 1 := rfl
      _ ≤ shiftRound (m * 2 ^ k) (k + i + 1) * 2 ^ (i + 1) :=
        Nat.mul_le_mul hquotient (Nat.pow_le_pow_right (by decide) (Nat.le_add_left 1 i))

/-- Rounding does not move a number across a small integer. -/
theorem lt_round {j v : Int} (hj : j.natAbs < 2 ^ 53) (k : Nat) :
    (ofInt j).lt (round (.finite (decide (v * 2 ^ k < 0)) (v * 2 ^ k).natAbs (-k))) = decide
      (j < v) := by
  have hpos : (0 : Int) < 2 ^ k := Int.pow_pos (by decide)
  have hsign : decide (v * 2 ^ k < 0) = decide (v < 0) := by
    rw [decide_eq_decide]
    exact ⟨fun h => Int.neg_of_mul_neg_left h hpos, fun h => Int.mul_neg_of_neg_of_pos h hpos⟩
  have hmagnitude : (v * 2 ^ k).natAbs = v.natAbs * 2 ^ k := by
    rw [Int.natAbs_mul, Int.natAbs_pow]
    rfl
  rw [hsign, hmagnitude]
  by_cases hv : v.natAbs < 2 ^ 53
  · obtain ⟨i, hround⟩ := round_fraction (decide (v < 0)) hv k
    rw [hround, lt_fraction, signed_natAbs]
  · have hlarge : decide (j < v) = !decide (v < 0) := by
      rw [← decide_not, decide_eq_decide]
      omega
    rw [hlarge]
    rcases round_large (decide (v < 0)) (Nat.le_of_not_lt hv) k with hround | ⟨q, i, hq, hround⟩
    · rw [hround]
      rfl
    · rw [hround, lt_large hj _ hq]

/-! ### Sums -/

/-- A whole number among the doubles, with its fraction written out at any smaller exponent. -/
theorem exists_align {x : Number} {n : Int} (h : x.toInteger? = some n) :
    ∃ (s : Bool) (m : Nat) (e : Int) (k : Nat), x = .finite s m e ∧ min 0 e = -k ∧
      align s m e (-k) = n * 2 ^ k := by
  cases x with
  | nan => cases h
  | infinite => cases h
  | finite s m e =>
    rw [toInteger?] at h
    split at h
    · next hwhole =>
      cases h
      rcases Int.lt_or_le e 0 with hneg | hpos
      -- A negative exponent stands for a power of two that divides the mantissa.
      · obtain ⟨k, hk⟩ := Int.eq_ofNat_of_zero_le (show 0 ≤ -e by omega)
        obtain rfl : e = -k := by omega
        have hdvd : twoPow k ∣ m := by
          rcases of_decide_eq_true hwhole with hfalse | hdvd
          · omega
          · rwa [show (- -(k : Int)).toNat = k by omega] at hdvd
        obtain ⟨q, rfl⟩ := hdvd
        refine ⟨s, _, _, k, rfl, by omega, ?_⟩
        have hscaled : scaled (twoPow k * q) (-k) = q := by
          rw [scaled, if_neg (by omega), show (- -(k : Int)).toNat = k by omega,
            Nat.shiftRight_eq_div_pow, Bits.twoPow_eq,
              Nat.mul_div_cancel_left _ (Nat.two_pow_pos k)]
        have hself : ((-k : Int) - -k).toNat = 0 := by omega
        rw [align, hself, Nat.shiftLeft_zero, hscaled, Bits.twoPow_eq, Nat.mul_comm, signed_mul]
        push_cast
        rfl
      · refine ⟨s, m, e, 0, rfl, by omega, ?_⟩
        have hshift : (e - -((0 : Nat) : Int)).toNat = e.toNat := by omega
        rw [align, hshift, scaled, if_pos hpos, Int.pow_zero, Int.mul_one]
    · cases h

/-- The sum of a whole number and a double that is whole lies beyond a small integer exactly where
it would without rounding. -/
theorem lt_add {x : Number} {n : Int} (h : x.toInteger? = some n) (a : Int) {j : Int}
    (hj : j.natAbs < 2 ^ 53) : (ofInt j).lt ((ofInt a).add x) = decide (j < a + n) := by
  obtain ⟨s, m, e, k, rfl, hlow, halign⟩ := exists_align h
  have hadd : (ofInt a).add (.finite s m e) =
      if a.natAbs = 0 ∧ m = 0 then .finite (decide (a < 0) && s) 0 0
      else
        round (.finite (decide ((a + n) * 2 ^ k < 0)) ((a + n) * 2 ^ k).natAbs (-k)) := by
    have hsum : align (decide (a < 0)) a.natAbs 0 (-k) + align s m e (-k) = (a + n) * 2 ^ k := by
      rw [align_ofInt, halign, ← Int.add_mul]
    unfold ofInt add
    simp only [hlow, hsum]
  rw [hadd]
  split
  · next hzero =>
    -- Both are zeros, and whatever sign their sum has it is a zero as well.
    obtain ⟨ha, rfl⟩ := hzero
    have hn : n * 2 ^ k = 0 := by
      rw [← halign, align, Nat.zero_shiftLeft]
      cases s <;> rfl
    have hpos : (0 : Int) < 2 ^ k := Int.pow_pos (by decide)
    have hsum : a + n = 0 := by
      rcases Int.mul_eq_zero.mp hn with hn | hk
      · omega
      · omega
    have hrepresents : Represents (.finite (decide (a < 0) && s) 0 0) (a + n) := by
      rw [hsum]
      cases decide (a < 0) && s with
      | false => exact .ofInt 0
      | true => exact .negativeZero
    exact (Represents.ofInt j).lt hrepresents
  · exact lt_round hj k

end WasmScript.Number
