/-
  WasmScript/Proofs/IR/Flow.lean
  ==============================
  **Where control goes on** — statements that control may leave at their end.

  `Passes` reads off a statement whether control may go on after it: a block is left at its
  end or by a branch that names it, and nothing goes on after a branch.  The builder keeps
  track of the same by marking open blocks as unreachable.  It never marks one that control
  passes through, so a function with results does not fall off its end.
-/
import WasmScript.Proofs.IR.ScopedBodies

namespace WasmScript.IR

namespace Statement

mutual
/-- Whether control may go on after a statement. -/
def Passes : Statement → Prop
  | .block label _ body => PassesAll body ∨ Names label body
  | .loop _ _ body => PassesAll body
  | .conditional label _ _ yes no => (PassesAll yes ∨ PassesAll no) ∨ Names label (yes ++ no)
  | .branch _ | .branchTable .. | .leave _ | .unreachable => False
  | _ => True

/-- Whether control may go on after some statements. -/
def PassesAll : List Statement → Prop
  | [] => True
  | s :: ss => s.Passes ∧ PassesAll ss
end

theorem passesAll_append {ss ts : List Statement} :
    PassesAll (ss ++ ts) ↔ PassesAll ss ∧ PassesAll ts := by
  induction ss with
  | nil => simp [PassesAll]
  | cons s ss ih => rw [List.cons_append, PassesAll, PassesAll, ih, and_assoc]

theorem not_passesAll_concat {ss : List Statement} {s : Statement} (h : ¬ s.Passes) :
    ¬ PassesAll (ss ++ [s]) := fun hall => h (passesAll_append.mp hall).2.1

end Statement

open Statement

/-! ### Open blocks -/

/-- Control passes through no arm of an open block that is marked as unreachable. -/
structure Frame.Ends (f : Frame) : Prop where
  body : f.unreachable = true → ¬ PassesAll f.body.toList
  firstArm : ∀ ss ∈ f.firstArm, f.firstFallsThrough = false → ¬ PassesAll ss

namespace Frame.Ends

variable {f : Frame}

theorem add (h : f.Ends) (ss : List Statement) : (f.add ss).Ends where
  body hdead := by
    rw [toList_body_add, passesAll_append]
    exact fun hall => h.body hdead hall.1
  firstArm := h.firstArm

theorem dead (h : f.Ends) {ss : List Statement} (hss : ¬ PassesAll ss) : (f.add ss).dead.Ends where
  body _ := by
    change ¬ PassesAll (f.add ss).body.toList
    rw [toList_body_add, passesAll_append]
    exact fun hall => hss hall.2
  firstArm := h.firstArm

theorem mark (h : f.Ends) (targeted : Bool) : (f.mark targeted).Ends := ⟨h.body, h.firstArm⟩

theorem finished (h : f.Ends) (pend : List Expression) : (Build.finished f pend).Ends := by
  obtain ⟨ss, hss⟩ := Build.exists_finished f pend
  rw [hss]
  exact h.add ss

theorem secondArm (h : f.Ends) : (Build.secondArm f).Ends where
  body hdead := by cases hdead
  firstArm := by
    rintro ss ⟨⟩ hfalls
    refine h.body ?_
    simpa [Build.secondArm] using hfalls

/-- Control does not go on after a block that the builder takes to be left nowhere. -/
theorem not_passes_toStatement (h : f.Ends) (htargeted : f.targeted = true ↔ Names f.label f.built)
    (hfirst : ∀ ss ∈ f.firstArm, f.kind = .conditional) (hleaves : f.leaves = false) :
    ¬ f.toStatement.Passes := by
  unfold Frame.leaves at hleaves
  simp only [decide_eq_false_iff_not, not_or, not_and, Bool.not_eq_true,
    Bool.not_eq_false] at hleaves
  obtain ⟨hdead, hmarked, harms⟩ := hleaves
  have hbody := h.body (by simpa using hdead)
  -- Only a branch would mark the block, and it is not marked.
  have hunnamed (hkind : f.kind ≠ .loop) : ¬ Names f.label f.built := fun hnames =>
    Bool.false_ne_true ((hmarked hkind).symm.trans (htargeted.mpr hnames))
  rw [built] at hunnamed
  unfold Frame.toStatement
  split
  · exact hbody
  · next hkind =>
    obtain ⟨hfalls, harm⟩ := harms hkind
    obtain ⟨yes, hyes⟩ := Option.isSome_iff_exists.mp (by simpa using harm)
    rw [hyes] at hunnamed ⊢
    rintro ((hpasses | hpasses) | hnames)
    · exact h.firstArm yes hyes hfalls hpasses
    · exact hbody hpasses
    · exact hunnamed (by rw [hkind]; rintro ⟨⟩) hnames
  · next hloop hconditional =>
    have hnone : f.firstArm = none := Option.eq_none_iff_forall_not_mem.mpr fun ss hss =>
      hconditional (hfirst ss hss)
    rw [hnone, Option.getD_none, List.nil_append] at hunnamed
    rintro (hpasses | hnames)
    · exact hbody hpasses
    · exact hunnamed hloop hnames

end Frame.Ends

/-- All open blocks of a draft are marked as they should be. -/
def Draft.Ends (d : Draft) : Prop := ∀ l ∈ d.layers, l.frame.Ends

namespace Build

variable {ctx : Context}

/-- What is never left is added to the innermost block before that is marked as unreachable. -/
theorem not_passes_straight {fs : List Frame} {first : Nat} {i : Instruction}
    {pend : List Expression} {o : Outcome} (h : Straight ctx fs first i pend o)
    (hlive : o.live = false) :
    ¬ PassesAll o.statements := by
  cases h with
  | nop | work | drop | select | brIf => cases hlive
  | unreachable | br | ret | brTable => exact not_passesAll_concat id

theorem ends_target {ls : List Layer} (h : ∀ l ∈ ls, l.frame.Ends) (targets : Nat → Bool) :
    ∀ l ∈ Layer.target targets ls, l.frame.Ends := by
  intro l hl
  obtain ⟨l₀, hl₀, targeted, rfl⟩ := Layer.exists_of_mem_target hl
  exact (h l₀ hl₀).mark targeted

/-- Each step marks open blocks as it should. -/
theorem ends_step {i : Instruction} {d d' : Draft} (hscoped : d.Scoped) (h : d.Ends)
    (hstep : Step ctx i d d') : d'.Ends := by
  cases hstep with
  | @straight i f pend ls temps label o live outcome =>
    obtain ⟨hf, hls⟩ := List.forall_mem_cons.mp h
    change ∀ l ∈ Layer.target (decide <| · ∈ o.depths) (o.layer f :: ls), l.frame.Ends
    refine ends_target (List.forall_mem_cons.mpr ⟨?_, hls⟩) _
    rw [Outcome.layer]
    dsimp only
    split
    · exact hf.add _
    · next hlive => exact hf.dead (not_passes_straight outcome (Bool.eq_false_iff.mpr hlive))
  | @enter i kind type condition f pend rest params ls temps label live opens operands types =>
    obtain ⟨hf, hls⟩ := List.forall_mem_cons.mp h
    refine List.forall_mem_cons.mpr ⟨⟨?_, ?_⟩, List.forall_mem_cons.mpr ⟨(hf.add _).add _, hls⟩⟩
    · rintro ⟨⟩
    · rintro _ ⟨⟩
  | @second f pend ls temps label kind first types =>
    obtain ⟨hf, hls⟩ := List.forall_mem_cons.mp h
    exact List.forall_mem_cons.mpr ⟨(hf.finished pend).secondArm, hls⟩
  | @leave f pend l ls temps label kind arms types =>
    obtain ⟨hf, hl, hls⟩ := List.forall_mem_cons.mp h |>.imp_right List.forall_mem_cons.mp
    have hfinished := hscoped.finished
    refine List.forall_mem_cons.mpr ⟨?_, hls⟩
    unfold resumed
    dsimp only
    split
    · exact hl.add _
    · next hleaves =>
      -- What follows the block is dead, so its own end must not be reached either.
      refine hl.dead fun hpasses => ?_
      refine (hf.finished pend).not_passes_toStatement ?_ ?_
        (Bool.eq_false_iff.mpr hleaves) hpasses.1
      · have htargeted := hfinished.targeted.1
        rwa [List.nil_append] at htargeted
      · exact fun ss hss => (hfinished.placed.1.firstArm ss hss).1

end Build

/-! ### Functions -/

open Build

/-- A function that is built has no results or never falls off its end. -/
theorem Function.ends_of_build {m : Module} {index : Nat} {fn : Function}
    (h : buildFunction m index = .ok fn) : fn.results = [] ∨ ¬ PassesAll fn.body := by
  obtain ⟨type, body, f, pend, temps, label, -, hsteps, hkind, htypes, hfn⟩ :=
    exists_steps_of_build h
  obtain ⟨htyped, -, hends⟩ := hsteps.keeps (P := fun d => d.Typed _ ∧ d.Scoped ∧ d.Ends)
    (fun hd hstep =>
      ⟨typed_step hd.1 hstep, scoped_step hd.1 hd.2.1 hstep, ends_step hd.2.1 hd.2.2 hstep⟩)
    ⟨typed_start type rfl, scoped_start type,
      List.forall_mem_singleton.mpr ⟨by rintro ⟨⟩, by rintro _ ⟨⟩⟩⟩
  have hresults : f.results = type.results :=
    (htyped.layers _ List.mem_cons_self).frame.results hkind
  have hf : f.Ends := hends _ List.mem_cons_self
  have hfresults : fn.results = type.results := by rw [hfn]
  have hbody : fn.body = finishedBody f pend := by rw [hfn]
  rw [hfresults, hbody, ← hresults, finishedBody]
  -- A live end has values for all results, and if there are any, they are left with.
  cases hdead : f.unreachable with
  | true =>
    rw [if_pos (.inl rfl)]
    exact .inr (hf.body hdead)
  | false =>
    by_cases hpend : pend = []
    · rw [← htypes hdead, hpend]
      exact .inl rfl
    · rw [if_neg (by simp [hpend])]
      exact .inr (not_passesAll_concat id)

end WasmScript.IR
