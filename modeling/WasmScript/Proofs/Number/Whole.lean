/-
  WasmScript/Proofs/Number/Whole.lean
  ===================================
  **Whole numbers among doubles** — that scripts compute exactly with the integers that
  they hold as numbers.

  A 32-bit value is held as a number, and zero may have a minus sign.  `Represents x n` says
  that the number `x` is the integer `n`, whatever the sign of a zero.  The conversions
  and comparisons of such numbers are those of the integers; sums and differences are
  too, up to 2^53, since nothing is lost when they are rounded.
-/
import WasmScript.Number.Arithmetic
import WasmScript.Proofs.Integer.Words

namespace WasmScript.Number

theorem signed_natAbs (n : Int) : signed (decide (n < 0)) n.natAbs = n := by
  unfold signed
  by_cases hn : n < 0
  · rw [if_pos (decide_eq_true hn)]
    omega
  · rw [if_neg (by simpa using hn)]
    omega

/-- The number is the integer. -/
def Represents (x : Number) (n : Int) : Prop := x = .ofInt n ∨ n = 0 ∧ x = .negativeZero

namespace Represents

theorem ofInt (n : Int) : Represents (.ofInt n) n := .inl rfl

theorem negativeZero : Represents .negativeZero 0 := .inr ⟨rfl, rfl⟩

/-- The shape that a whole number has: its magnitude, and its sign unless it is zero. -/
theorem shape {x : Number} {n : Int} (h : Represents x n) :
    ∃ s, x = .finite s n.natAbs 0 ∧ signed s n.natAbs = n := by
  rcases h with rfl | ⟨rfl, rfl⟩
  · exact ⟨decide (n < 0), rfl, signed_natAbs n⟩
  · exact ⟨true, rfl, rfl⟩

/-- Every number of that shape stands for the integer. -/
theorem of_shape {s : Bool} {n : Int} (h : signed s n.natAbs = n) :
    Represents (.finite s n.natAbs 0) n := by
  by_cases hn : n = 0
  · subst hn
    cases s
    · exact ofInt 0
    · exact negativeZero
  · have hs : s = decide (n < 0) := by
      cases s with
      | false =>
        have h : (n.natAbs : Int) = n := h
        exact (decide_eq_false (by omega)).symm
      | true =>
        have h : -(n.natAbs : Int) = n := h
        exact (decide_eq_true (by omega)).symm
    rw [hs]
    exact ofInt n

variable {x y : Number} {a b : Int}

/-! ### Conversions -/

theorem truncated (h : Represents x a) : x.truncated = a := by
  obtain ⟨s, rfl, hs⟩ := h.shape
  rw [Number.truncated, scaled, if_pos (Int.le_refl 0), Int.toNat_zero, Nat.shiftLeft_zero, hs]

theorem toInt32 (h : Represents x a) : x.toInt32 = Bits.signed 32 a := by
  rw [Number.toInt32, h.truncated]

theorem toUInt32 (h : Represents x a) : x.toUInt32 = Bits.unsigned 32 a := by
  rw [Number.toUInt32, h.truncated]

theorem toInteger? (h : Represents x a) : x.toInteger? = some a := by
  obtain ⟨s, rfl, hs⟩ := h.shape
  have hwhole : isWhole a.natAbs 0 = true := by simp [isWhole]
  rw [Number.toInteger?, if_pos hwhole, scaled, if_pos (Int.le_refl 0), Int.toNat_zero,
    Nat.shiftLeft_zero, hs]

/-! ### Comparisons -/

theorem align (h : Represents x a) : ∃ s, x = .finite s a.natAbs 0 ∧ align s a.natAbs 0 0 = a := by
  obtain ⟨s, rfl, hs⟩ := h.shape
  refine ⟨s, rfl, ?_⟩
  rw [Number.align, Int.sub_self, Int.toNat_zero, Nat.shiftLeft_zero, hs]

theorem same (hx : Represents x a) (hy : Represents y b) : x.same y = decide (a = b) := by
  obtain ⟨s, rfl, hs⟩ := hx.align
  obtain ⟨t, rfl, ht⟩ := hy.align
  rw [Number.same, Int.min_self, hs, ht]
  rfl

theorem lt (hx : Represents x a) (hy : Represents y b) : x.lt y = decide (a < b) := by
  obtain ⟨s, rfl, hs⟩ := hx.align
  obtain ⟨t, rfl, ht⟩ := hy.align
  rw [Number.lt, Int.min_self, hs, ht]

/-! ### Sums -/

/-- A whole number of few bits is not rounded. -/
theorem round_eq {s : Bool} {m : Nat} (h : m < 2 ^ 53) : round (.finite s m 0) = .finite s m 0 := by
  have hlength : bitLength m ≤ 53 := by
    unfold bitLength
    split
    · omega
    · next hm =>
      have := (Nat.log2_lt hm).mpr h
      omega
  have hdrop : max ((bitLength m : Int) - 53) (-1074 - 0) ≤ 0 := by omega
  rw [round]
  simp only [if_pos hdrop]
  rw [if_neg (by omega)]

theorem add (hx : Represents x a) (hy : Represents y b) (h : (a + b).natAbs < 2 ^ 53) :
    Represents (x.add y) (a + b) := by
  obtain ⟨s, rfl, hs⟩ := hx.align
  obtain ⟨t, rfl, ht⟩ := hy.align
  rw [Number.add]
  by_cases hzero : a.natAbs = 0 ∧ b.natAbs = 0
  · rw [if_pos hzero]
    have hsum : a + b = 0 := by omega
    rw [hsum]
    cases s <;> cases t
    case true.true => exact negativeZero
    all_goals exact ofInt 0
  · rw [if_neg hzero]
    simp only [Int.min_self, hs, ht]
    rw [round_eq h]
    exact ofInt (a + b)

theorem neg (h : Represents x a) : Represents x.neg (-a) := by
  obtain ⟨s, rfl, hs⟩ := h.shape
  rw [Number.neg, ← Int.natAbs_neg]
  apply of_shape
  cases s with
  | false =>
    have hs : (a.natAbs : Int) = a := hs
    show -((-a).natAbs : Int) = -a
    omega
  | true =>
    have hs : -(a.natAbs : Int) = a := hs
    show ((-a).natAbs : Int) = -a
    omega

theorem sub (hx : Represents x a) (hy : Represents y b) (h : (a - b).natAbs < 2 ^ 53) :
    Represents (x.sub y) (a - b) := by
  rw [Number.sub, Int.sub_eq_add_neg]
  exact hx.add hy.neg (by rwa [← Int.sub_eq_add_neg])

end Represents

end WasmScript.Number
