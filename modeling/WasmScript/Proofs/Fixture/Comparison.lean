/-
  WasmScript/Proofs/Fixture/Comparison.lean
  =========================================
  **Comparing values** — when the value that a call gave counts as the expected one.

  Two scalars are identical if they are of one type and equal as numbers, and two payloads
  if both are lone values or both are lists, with identical values in the same places.  An
  outcome is compared value by value, after a lone value was made a list of one.  So what
  counts as met is what is identical, and besides a lone value where a list of just that
  value is expected, or the other way round (`Payload.Conflated`).
-/
import Mathlib.Data.List.Forall2
import Mathlib.Tactic.FieldSimp
import WasmScript.Fixture.Run
import WasmScript.Proofs.Number.Truncation

namespace WasmScript

/-! ### Equal numbers -/

namespace Number

/-- An aligned mantissa is the number in units of the exponent that it was aligned to. -/
theorem value?_align {s : Bool} {m : Nat} {e low : Int} (h : low ≤ e) :
    (finite s m e).value? = some ((align s m e low : ℚ) * 2 ^ low) := by
  obtain ⟨k, rfl⟩ := Int.le.dest h
  have hpow : (2 : ℚ) ^ (low + k) = 2 ^ (k : Int) * 2 ^ low := by
    rw [← zpow_add₀ (by decide), add_comm]
  have halign : align s m (low + k) low = signed s (m * 2 ^ k) := by
    rw [align, add_sub_cancel_left, Int.toNat_natCast, Nat.shiftLeft_eq]
  have hsigned :
      ((signed s (m * 2 ^ k) : Int) : ℚ) = (if s then -1 else 1) * ((m : ℚ) * 2 ^ (k : Int)) := by
    rw [magnitude_shl]
    cases s <;> simp [signed]
  rw [value?, halign, hsigned, hpow, mul_assoc, mul_assoc]

/-- Finite numbers are the same just if they are one rational. -/
theorem same_finite_iff {s t : Bool} {m n : Nat} {e f : Int} :
    (finite s m e).same (finite t n f) = true ↔ (finite s m e).value? = (finite t n f).value? := by
  have hpow : (2 : ℚ) ^ min e f ≠ 0 := zpow_ne_zero _ (by decide)
  rw [value?_align (Int.min_le_left e f), value?_align (Int.min_le_right e f), same, beq_iff_eq,
    Option.some_inj, mul_left_inj' hpow, Int.cast_inj]

/-- A number is the same as a finite one just if it is that rational as well. -/
theorem same_iff {x y : Number} {q : ℚ} (hy : y.value? = some q) :
    x.same y = true ↔ x.value? = some q := by
  cases y with
  | nan => cases hy
  | infinite t => cases hy
  | finite t n f =>
    cases x with
    | nan => exact iff_of_false Bool.false_ne_true nofun
    | infinite s => exact iff_of_false Bool.false_ne_true nofun
    | finite s m e => rw [same_finite_iff, hy]

end Number

/-! ### Identical values -/

namespace Scalar

/-- One type and one value. -/
inductive Identical : Scalar → Scalar → Prop where
  | number {x y : Number} {q : ℚ} : x.value? = some q → y.value? = some q →
      Identical (.number x) (.number y)
  | bigint (n : Int) : Identical (.bigint n) (.bigint n)

/-- Whether a scalar is an integer, as a number or as a big integer. -/
def Integral : Scalar → Prop
  | .number x => ∃ n : Int, x.value? = some (n : ℚ)
  | .bigint _ => True

theorem same_iff_identical {x y : Scalar} (hy : y.Integral) : x.same y = true ↔ x.Identical y := by
  cases x with
  | number a =>
    cases y with
    | number b =>
      obtain ⟨n, hn⟩ := hy
      rw [same, Number.same_iff hn]
      constructor
      · exact fun ha => .number ha hn
      · rintro ⟨ha, hb⟩
        rwa [← hb.symm.trans hn]
    | bigint n => exact iff_of_false Bool.false_ne_true nofun
  | bigint m =>
    cases y with
    | number b => exact iff_of_false Bool.false_ne_true nofun
    | bigint n =>
      rw [same, beq_iff_eq]
      constructor
      · rintro rfl
        exact .bigint m
      · rintro ⟨⟩
        rfl

end Scalar

namespace Payload

/-- Both lone values or both lists, of one length and identical value by value. -/
inductive Identical : Payload → Payload → Prop where
  | single {x y : Scalar} : x.Identical y → Identical (.single x) (.single y)
  | several {xs ys : List Scalar} : List.Forall₂ Scalar.Identical xs ys →
      Identical (.several xs) (.several ys)

/-- A lone value and a list of just that value. -/
inductive Conflated : Payload → Payload → Prop where
  | listed {x y : Scalar} : x.Identical y → Conflated (.several [x]) (.single y)
  | alone {x y : Scalar} : x.Identical y → Conflated (.single x) (.several [y])

/-- Whether all values are integers. -/
def Integral (p : Payload) : Prop := ∀ x ∈ p.toList, x.Integral

theorem not_identical_of_conflated {a b : Payload} (h : a.Conflated b) : ¬ a.Identical b := by
  cases h <;> nofun

/-- Lists are compared by their lengths and then value by value. -/
theorem all_zip_iff (xs ys : List Scalar) (hys : ∀ y ∈ ys, y.Integral) :
    (xs.length == ys.length && (xs.zip ys).all fun (x, y) => x.same y) = true ↔
      List.Forall₂ Scalar.Identical xs ys := by
  rw [List.forall₂_iff_zip, Bool.and_eq_true, beq_iff_eq, List.all_eq_true]
  refine and_congr_right fun _ => ?_
  constructor
  · intro h x y hxy
    exact (Scalar.same_iff_identical (hys y (List.of_mem_zip hxy).2)).mp (h (x, y) hxy)
  · rintro h ⟨x, y⟩ hxy
    exact (Scalar.same_iff_identical (hys y (List.of_mem_zip hxy).2)).mpr (h hxy)

theorem same_iff {a b : Payload} (hb : b.Integral) :
    a.same b = true ↔ a.Identical b ∨ a.Conflated b := by
  have hsame : a.same b = true ↔ List.Forall₂ Scalar.Identical a.toList b.toList :=
    all_zip_iff a.toList b.toList hb
  rw [hsame]
  constructor
  -- A lone value is compared as a list of one item, so it is the same as a list of just it.
  · intro h
    cases a with
    | single x =>
      cases b with
      | single y => exact .inl (.single (List.forall₂_cons.mp h).1)
      | several ys =>
        obtain ⟨y, ys, hy, hnil, rfl⟩ := List.forall₂_cons_left_iff.mp h
        obtain rfl := List.forall₂_nil_left_iff.mp hnil
        exact .inr (.alone hy)
    | several xs =>
      cases b with
      | single y =>
        obtain ⟨x, xs, hx, hnil, rfl⟩ := List.forall₂_cons_right_iff.mp h
        obtain rfl := List.forall₂_nil_right_iff.mp hnil
        exact .inr (.listed hx)
      | several ys => exact .inl (.several h)
  · rintro (h | h)
    · cases h with
      | single h => exact .cons h .nil
      | several h => exact h
    · cases h with
      | listed h => exact .cons h .nil
      | alone h => exact .cons h .nil

end Payload

/-- Nothing is wrong with an outcome just if it is the expected one. -/
theorem Fixture.checkOutcome_eq_nil_iff {f : Fixture} {o : Outcome} :
    f.checkOutcome o = [] ↔ o.matches f.expect = true := by
  unfold checkOutcome
  split
  · next h => exact iff_of_true rfl h
  · next h => exact iff_of_false (List.cons_ne_nil _ _) h

/-- **An outcome counts as the expected value just if the two are identical, unless they differ
in that one is a lone value and the other a list of just that value.**  Then it counts as well, and
nothing is said to be wrong with it. -/
theorem value_accepted_iff_identical {found wanted : Payload} (h : wanted.Integral) :
    (((Outcome.value found).matches (.value wanted) = true ↔ found.Identical wanted) ↔
      ¬ found.Conflated wanted) ∧
    ∀ f : Fixture, f.expect = .value wanted →
      (f.checkOutcome (.value found) = [] ↔ found.Identical wanted ∨ found.Conflated wanted) := by
  have hmatches : (Outcome.value found).matches (.value wanted) = true ↔
      found.Identical wanted ∨ found.Conflated wanted := Payload.same_iff h
  constructor
  · rw [hmatches]
    constructor
    · intro haccepts hconflated
      exact Payload.not_identical_of_conflated hconflated (haccepts.mp (.inr hconflated))
    · intro hnot
      exact or_iff_left hnot
  · intro f hf
    rw [Fixture.checkOutcome_eq_nil_iff, hf, hmatches]

/-- A zero with a minus sign is a zero: the list of it and of a big integer is accepted. -/
theorem value_accepted_iff_identical_zeros :
    let wanted : Payload := .several [.number (.ofInt 0), .bigint 5]
    let found : Payload := .several [.number .negativeZero, .bigint 5]
    wanted.Integral ∧ ¬ found.Conflated wanted ∧ found.Identical wanted ∧
      (Outcome.value found).matches (.value wanted) = true := by
  intro wanted found
  have hintegral : wanted.Integral := by
    intro x hx
    rcases List.mem_pair.mp hx with rfl | rfl
    · exact ⟨0, Number.toInteger?_eq_some_iff.mp rfl⟩
    · trivial
  have hnot : ¬ found.Conflated wanted := by
    change ¬ (Payload.several [_, _]).Conflated (.several [_, _])
    rintro ⟨⟩
  have haccepted : (Outcome.value found).matches (.value wanted) = true := by decide +kernel
  exact ⟨hintegral, hnot, ((value_accepted_iff_identical hintegral).1.mpr hnot).mp haccepted,
    haccepted⟩

/-- A call that gives the list of seven alone meets the expectation of seven: nothing is wrong with
its outcome, although that is a list and no lone value. -/
theorem list_of_one_accepted :
    let seven : Scalar := .number (.ofInt 7)
    let f : Fixture := { exportName := .string "f", args := [], expect := .value (.single seven) }
    let found := Outcome.ofReturned (.array [seven.toHost])
    found = .value (.several [seven]) ∧ found.matches f.expect = true ∧ f.checkOutcome found = [] ∧
      ¬ (Payload.several [seven]).Identical (.single seven) := by
  exact ⟨rfl, by decide +kernel, by decide +kernel, nofun⟩

end WasmScript
