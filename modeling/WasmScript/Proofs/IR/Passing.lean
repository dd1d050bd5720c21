/-
  WasmScript/Proofs/IR/Passing.lean
  =================================
  **Instructions that are passed over** — what a build leaves out where no code runs.

  Where the innermost open block is dead, a build only looks for the `else` or the `end`
  that belongs to that block, and counts the blocks that it meets on the way.  `passes` is
  this count after an instruction that is passed over, and `Passed` has one rule for each
  way in which that happens.  Whatever goes through a body along with a build takes its
  steps from here.
-/
import WasmScript.Proofs.IR.Primitives

namespace WasmScript

theorem Instruction.not_closesBlock {i : Instruction} (hend : i ≠ .endMark)
    (helse : i ≠ .elseMark) :
    ¬ i.closesBlock = true := by
  cases i with
  | elseMark => exact (helse rfl).elim
  | endMark => exact (hend rfl).elim
  | _ => exact Bool.false_ne_true

namespace IR.Build

variable {ctx : Context} {next : Located} {rest : List Located} {b : Builder} {f : Frame}
    {fs : List Frame}
variable {dead : Bool} {i : Instruction} {skipped s : Nat}

/-- The number of blocks that are passed over after an instruction, if that is passed over: where no
code runs, only what ends the innermost open block or its first arm is built. -/
def passes (dead : Bool) (i : Instruction) (skipped : Nat) : Option Nat :=
  if dead ∧ i.opensBlock then some (skipped + 1)
  else if dead ∧ i = .endMark ∧ 0 < skipped then some (skipped - 1)
  else if dead ∧ (0 < skipped ∨ ¬ i.closesBlock) then some skipped
  else none

/-- The instructions that are passed over, with the number of blocks that are before and after. -/
inductive Passed : Instruction → Nat → Nat → Prop
  | opens {i : Instruction} (opens : i.opensBlock = true) (skipped : Nat) :
  Passed i skipped (skipped + 1)
  | ends (skipped : Nat) : Passed .endMark (skipped + 1) skipped
  | stays {i : Instruction} {skipped : Nat} (opens : i.opensBlock = false) (ends : i ≠ .endMark)
      (turns : i = .elseMark → 0 < skipped) : Passed i skipped skipped

theorem passed_of_passes (h : passes dead i skipped = some s) :
    dead = true ∧ Passed i skipped s := by
  unfold passes at h
  split at h
  · next hopens =>
    cases h
    exact ⟨hopens.1, .opens hopens.2 skipped⟩
  next hopens =>
  split at h
  · next hends =>
    obtain ⟨hdead, rfl, hpos⟩ := hends
    obtain ⟨skipped, rfl⟩ := Nat.exists_eq_add_one.mpr hpos
    cases h
    exact ⟨hdead, .ends skipped⟩
  next hends =>
  split at h
  · next hstays =>
    cases h
    refine ⟨hstays.1, .stays (Bool.eq_false_iff.mpr fun h => hopens ⟨hstays.1, h⟩) ?_ ?_⟩
    · rintro rfl
      exact hends ⟨hstays.1, rfl, hstays.2.resolve_right (not_not_intro rfl)⟩
    · rintro rfl
      exact hstays.2.resolve_right (not_not_intro rfl)
  · cases h

theorem Passed.passes_eq (h : Passed i skipped s) : passes true i skipped = some s := by
  unfold passes
  cases h with
  | opens opens => rw [if_pos ⟨rfl, opens⟩]
  | ends skipped => rfl
  | stays opens ends turns =>
    have hstays : 0 < skipped ∨ ¬ i.closesBlock = true := by
      by_cases helse : i = .elseMark
      · exact .inl (turns helse)
      · exact .inr (Instruction.not_closesBlock ends helse)
    rw [if_neg fun h => Bool.false_ne_true (opens.symm.trans h.2), if_neg fun h => ends h.2.1,
      if_pos ⟨rfl, hstays⟩]

/-- Where no code runs, an instruction is built only if it closes the innermost open block. -/
theorem closes_of_not_passes (h : passes dead i skipped = none) (hdead : dead = true) :
    skipped = 0 ∧ i.closesBlock := by
  subst hdead
  have hstays : ¬ (0 < skipped ∨ ¬ i.closesBlock) := by
    intro hstays
    unfold passes at h
    split at h
    · cases h
    split at h
    · cases h
    rw [if_pos ⟨rfl, hstays⟩] at h
    cases h
  rw [not_or, Decidable.not_not] at hstays
  exact ⟨Nat.eq_zero_of_not_pos hstays.1, hstays.2⟩

theorem skipped_of_not_passes (h : passes dead i skipped = none)
    (hskipped : skipped = 0 ∨ dead = true) :
    skipped = 0 :=
  hskipped.elim id fun hdead => (closes_of_not_passes h hdead).1

/-- An instruction that is built, and those after it. -/
def building (ctx : Context) (next : Located) (rest : List Located) : Build (List Statement) := do
  match ← instruction ctx next with
  | none => instructions ctx rest 0
  | some body => ended ctx body rest

/-- What goes on in one of the ways in which an instruction is passed over, or in another way. -/
theorem elim_passes {α : Type} {P : Prop} [Decidable P] (dead : Bool) (hP : P ↔ dead = true)
    (i : Instruction) (skipped : Nat) (built : α) (go : Nat → α) :
    (if P ∧ i.opensBlock then go (skipped + 1)
      else if P ∧ i = .endMark ∧ 0 < skipped then go (skipped - 1)
      else if P ∧ (0 < skipped ∨ ¬ i.closesBlock) then go skipped
      else built) = (passes dead i skipped).elim built go := by
  simp only [hP, passes]
  split
  · rfl
  split
  · rfl
  split <;> rfl

theorem instructions_of_passes (hframes : b.frames = f :: fs)
    (h : passes f.unreachable next.instruction skipped = some s) :
    instructions ctx (next :: rest) skipped b = instructions ctx rest s b := by
  rw [instructions, bind_of_ok (frame_eq hframes),
    elim_passes _ Iff.rfl next.instruction skipped _ fun s => instructions ctx rest s, h]
  rfl

theorem instructions_of_not_passes (hframes : b.frames = f :: fs)
    (h : passes f.unreachable next.instruction 0 = none) :
    instructions ctx (next :: rest) 0 b = building ctx next rest b := by
  rw [instructions, bind_of_ok (frame_eq hframes),
    elim_passes _ Iff.rfl next.instruction 0 _ fun s => instructions ctx rest s, h]
  rfl

/-- Only the `end` of a function gives its body. -/
theorem eq_endMark_of_some {body : List Statement} {b' : Builder}
    (h : instruction ctx next b = .ok (some body, b')) : next.instruction = .endMark := by
  rw [instruction, bind_of_ok (a := ()) rfl] at h
  split at h
  · next hend => exact hend
  · obtain ⟨_, _, -, h⟩ := bind_ok h
    cases h

/-- Instructions that are built pass the first one over, build it and go on, or end with it. -/
theorem instructions_ok {r : List Statement × Builder} (hframes : b.frames = f :: fs)
    (h : instructions ctx (next :: rest) skipped b = .ok r) :
    (∃ s, passes f.unreachable next.instruction skipped = some s ∧
      instructions ctx rest s b = .ok r) ∨
      passes f.unreachable next.instruction skipped = none ∧
        ((∃ b', instruction ctx next b = .ok (none, b') ∧
          instructions ctx rest skipped b' = .ok r) ∨
          (next.instruction = .endMark ∧ rest = [] ∧ instruction ctx next b =
            .ok (some r.1, r.2))) := by
  rw [instructions, bind_of_ok (frame_eq hframes),
    elim_passes _ Iff.rfl next.instruction skipped _ fun s => instructions ctx rest s] at h
  cases hpasses : passes f.unreachable next.instruction skipped with
  | some s =>
    rw [hpasses] at h
    exact .inl ⟨s, rfl, h⟩
  | none =>
    rw [hpasses] at h
    obtain ⟨made, b', hmade, hlater⟩ := bind_ok h
    refine .inr ⟨rfl, ?_⟩
    -- A body is made at the `end` of the function, after which nothing may come.
    cases made with
    | none => exact .inl ⟨b', hmade, hlater⟩
    | some body =>
      cases rest with
      | nil =>
        cases hlater
        exact .inr ⟨eq_endMark_of_some hmade, rfl, hmade⟩
      | cons after rest => cases hlater

end IR.Build

end WasmScript
