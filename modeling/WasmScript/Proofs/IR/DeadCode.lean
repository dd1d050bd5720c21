/-
  WasmScript/Proofs/IR/DeadCode.lean
  ==================================
  **Dead regions** — instructions that are not reached have no part in what is built.

  A region of a body that control does not reach may be any `balanced` list of instructions,
  whether they would be valid or not.  With other instructions in its place the function is
  the same, with its temporaries, labels and targets, or it has the same fault at the same
  offset.

  The two builds run side by side.  Up to the region they do the same, with `Follows` between
  them and the open blocks; at the region the builder skips, and `instructions_balanced` says
  that it comes out where it went in.
-/
import Mathlib.Data.List.Forall2
import WasmScript.Proofs.IR.OtherBodies
import WasmScript.Proofs.IR.Reach

namespace WasmScript

/-- Whether instructions inside some blocks close these and each block that they open, and no
other. -/
def Instruction.balanced : (depth : Nat) → List Instruction → Bool
  | depth, [] => depth = 0
  | depth, i :: is =>
    if i.opensBlock then balanced (depth + 1) is
    else if i = .endMark then 0 < depth && balanced (depth - 1) is
    else (0 < depth || i ≠ .elseMark) && balanced depth is

def Module.withInstructions (m : Module) (i : Nat) (is : List Located) : Module :=
  { m with bodies := m.bodies.modify i fun body => { body with instructions := is.toArray } }

namespace IR.Build

open Reach (Level pass passAll)

variable {ctx : Context} {ls : List Level} {layer : Layer} {layers : List Layer} {b : Builder}

/-! ### Skipping -/

/-- Instructions that close each block that they open are skipped where control does not get. -/
theorem instructions_balanced {f : Frame} {fs : List Frame} (hb : b.frames = f :: fs)
    (hdead : f.unreachable = true) (rest : List Located) (skipped : Nat) (is : List Located) :
    ∀ depth, Instruction.balanced depth (Located.plain is) →
      instructions ctx (is ++ rest) (skipped + depth) b = instructions ctx rest skipped b := by
  -- The induction is on the dead code, whose blocks are counted as they open and close.
  induction is with
  | nil =>
    intro depth h
    obtain rfl : depth = 0 := of_decide_eq_true h
    rfl
  | cons next is ih =>
    intro depth h
    have hskip {s : Nat} (h : Passed next.instruction (skipped + depth) s) :
        instructions ctx (next :: (is ++ rest)) (skipped + depth) b =
          instructions ctx (is ++ rest) s b :=
      instructions_of_passes hb (by rw [hdead]; exact h.passes_eq)
    rw [Located.plain, List.map_cons, Instruction.balanced] at h
    rw [List.cons_append]
    by_cases hopens : next.instruction.opensBlock = true
    · rw [if_pos hopens] at h
      rw [hskip (.opens hopens _)]
      exact ih (depth + 1) h
    rw [if_neg hopens] at h
    by_cases hend : next.instruction = .endMark
    · rw [if_pos hend, Bool.and_eq_true, decide_eq_true_iff] at h
      obtain ⟨depth, rfl⟩ := Nat.exists_eq_add_one.mpr h.1
      have hends : Passed next.instruction (skipped + depth + 1) (skipped + depth) := hend ▸ .ends _
      rw [hskip hends]
      exact ih depth h.2
    · rw [if_neg hend, Bool.and_eq_true, Bool.or_eq_true, decide_eq_true_iff,
        decide_eq_true_iff] at h
      have hturns (helse : next.instruction = .elseMark) : 0 < skipped + depth :=
        Nat.add_pos_right skipped (h.1.resolve_right (not_not_intro helse))
      rw [hskip (.stays (Bool.eq_false_iff.mpr hopens) hend hturns)]
      exact ih depth h.2

/-! ### Two builds side by side -/

/-- What comes before a dead region is built in the same way whatever the region is, and the region
is skipped. -/
theorem instructions_replaced (ctx : Context) {region replacement : List Located}
    (hregion : Instruction.balanced 0 (Located.plain region))
    (hreplacement : Instruction.balanced 0 (Located.plain replacement))
    (after before : List Located) :
    ∀ (ls : List Level) (count pos : Nat) (d : Draft) (layer : Layer) (layers : List Layer),
      d.layers = layer :: layers → Stacked d.layers → Follows ls count d.layers →
      Reach.dead (passAll (Located.plain before) ls) →
      instructions ctx (before ++ (region ++ after)) count (d.builder pos)
        = instructions ctx (before ++ (replacement ++ after)) count (d.builder pos) := by
  induction before with
  | nil =>
    intro ls count pos d layer layers hlayers _ hfollows hdead
    rw [hlayers] at hfollows
    have hframes : (d.builder pos).frames = layer.frame :: layers.map Layer.frame := by
      rw [Draft.builder, hlayers]
      rfl
    have hunreachable : layer.frame.unreachable = true := by
      have hlive := hfollows.live_eq
      rw [Reach.live_of_dead (show Reach.dead ls from hdead)] at hlive
      simpa using hlive.symm
    have hskip {is : List Located} (h : Instruction.balanced 0 (Located.plain is)) :
        instructions ctx (is ++ after) count (d.builder pos) =
          instructions ctx after count (d.builder pos) :=
      instructions_balanced hframes hunreachable after count is 0 h
    exact (hskip hregion).trans (hskip hreplacement).symm
  | cons next before ih =>
    intro ls count pos d layer layers hlayers hs hfollows hdead
    have hframes : (d.builder pos).frames = layer.frame :: layers.map Layer.frame := by
      rw [Draft.builder, hlayers]
      rfl
    rw [hlayers] at hfollows
    rcases hfollows.skips_or_builds ctx next with
      ⟨-, count', hfollows', hskip⟩ | ⟨rfl, hreflects, hcloses, hbuild⟩
    · have hsame (rest : List Located) :
          instructions ctx (next :: before ++ rest) count (d.builder pos)
          = instructions ctx (before ++ rest) count' (d.builder pos) := hskip _ _ _ hframes
      rw [hsame, hsame]
      exact ih _ count' pos d layer layers hlayers hs (hlayers ▸ hfollows') hdead
    · have hsame (rest : List Located) : instructions ctx (next :: before ++ rest) 0 (d.builder pos)
          = building ctx next (before ++ rest) (d.builder pos) := hbuild _ _ _ hframes
      rw [hsame, hsame, building, building]
      cases hmade : instruction ctx next (d.builder pos) with
      | error e => simp only [bind, StateT.bind, hmade, Except.bind]
      | ok r =>
        obtain ⟨made, b⟩ := r
        rw [bind_of_ok hmade, bind_of_ok hmade]
        obtain ⟨_, temps, label⟩ := d
        cases hlayers
        have hleaves := instruction_of_ok hs hcloses hmade
        cases made with
        | none =>
          obtain ⟨d', hstep, rfl, hs'⟩ := hleaves
          have hreflects' : Reflects (pass next.instruction ls) d'.layers :=
            reflects_step hstep hreflects
          cases hlayers' : d'.layers with
          | nil =>
            rw [hlayers'] at hreflects'
            have hnone : pass next.instruction ls = [] := List.forall₂_nil_right_iff.mp hreflects'
            change Reach.dead (passAll (Located.plain before) (pass next.instruction ls)) at hdead
            rw [hnone, Reach.passAll_nil] at hdead
            cases hdead
          | cons layer' layers' =>
            exact ih (pass next.instruction ls) 0 next.pos d' layer' layers' hlayers' hs'
              (.built hreflects') hdead
        | some body =>
          -- After the end of the function there is no open block left to be dead.
          obtain ⟨f, pend, hd, -⟩ := hleaves
          cases hd
          cases hreflects with
          | cons _ hrest =>
          cases hrest
          rw [Located.plain, List.map_cons, eq_endMark_of_some hmade] at hdead
          exact absurd hdead (by rw [Reach.passAll_end]; exact Bool.false_ne_true)

end IR.Build

namespace IR

open Build

variable {m : Module} {index : Nat} {body : Body} {before region after : List Located}

/-- With other instructions in a region of a body that is not reached, each block of which is closed
there, the function is the same or has the same fault. -/
theorem dead_region_irrelevant (hindex : m.imports.size ≤ index)
    (hbody : m.bodies[index - m.imports.size]? = some body)
    (hsplit : body.instructions.toList = before ++ (region ++ after))
    (hdead : Reach.dead (Reach.passAll (Located.plain before) Reach.start))
    (hregion : Instruction.balanced 0 (Located.plain region)) (replacement : List Located)
    (hreplacement : Instruction.balanced 0 (Located.plain replacement)) :
    buildFunction
      (m.withInstructions (index - m.imports.size) (before ++ (replacement ++ after))) index
      = buildFunction m index := by
  have hnot : ¬ index < m.imports.size := Nat.not_lt.mpr hindex
  have hbody' :
      (m.withInstructions (index - m.imports.size) (before ++ (replacement ++ after))).bodies[
      index - m.imports.size]? =
        some { body with instructions := (before ++ (replacement ++ after)).toArray } := by
    rw [Module.withInstructions, Array.getElem?_modify, if_pos rfl, hbody]
    rfl
  -- Control does not reach the region, so all of it is passed over.
  have hsame (name : Option String) (type : FunctionType) :
      buildBody m index name type
          { body with instructions := (before ++ (replacement ++ after)).toArray }
        = buildBody m index name type body := by
    have hstart : Follows Reach.start 0 (Draft.start type).layers :=
      .built (.cons ⟨rfl, rfl, rfl, rfl, rfl⟩ .nil)
    have hinstructions :=
      instructions_replaced ⟨m, index, name, type, type.params.toArray ++ body.locals⟩
        hregion hreplacement after before Reach.start 0 body.pos (Draft.start type) _ _ rfl
        (Draft.stacked_start type) hstart hdead
    rw [← hsplit] at hinstructions
    rw [buildBody, buildBody, List.toList_toArray, StateT.run, StateT.run]
    exact congrArg (· >>= _) hinstructions.symm
  -- Names, types and imports have nothing to do with the bodies.
  have hname :
      (m.withInstructions (index - m.imports.size) (before ++ (replacement ++ after))).exportNames
      = m.exportNames := rfl
  have htype :
      (m.withInstructions (index - m.imports.size) (before ++ (replacement ++ after))).functionType?
      = m.functionType? := rfl
  have himports :
      (m.withInstructions (index - m.imports.size) (before ++ (replacement ++ after))).imports
      = m.imports := rfl
  rw [buildFunction, buildFunction, himports, hname, htype, hbody', hbody, if_neg hnot, if_neg hnot]
  cases m.functionType? index with
  | none => rfl
  | some type => exact (buildBody_withBodies m _ index _ type _).trans (hsame _ type)

/-- A module with a function that leaves a block before an `if` in it, of no use and not valid, and
gives 7. -/
def leftBlock : Module where
  types := #[⟨[], [.i32]⟩]
  functions := #[0]
  bodies :=
    #[⟨#[], #[⟨25, .block ⟨[], []⟩⟩, ⟨27, .br 0⟩, ⟨29, .ifBlock ⟨[], [.i64]⟩⟩, ⟨31, .brIf 5⟩,
      ⟨33, .elseMark⟩,
      ⟨34, .localGet 3⟩, ⟨36, .endMark⟩, ⟨37, .endMark⟩, ⟨38, .const (.i32 7)⟩, ⟨40, .endMark⟩],
        24⟩]

/-- The function is the same without the `if`. -/
theorem dead_region_irrelevant_left :
    buildFunction (leftBlock.withInstructions 0
      [⟨25, .block ⟨[], []⟩⟩, ⟨27, .br 0⟩, ⟨37, .endMark⟩, ⟨38, .const (.i32 7)⟩, ⟨40, .endMark⟩]) 0
        = buildFunction leftBlock 0 :=
  @dead_region_irrelevant leftBlock 0 _ [⟨25, .block ⟨[], []⟩⟩, ⟨27, .br 0⟩]
    [⟨29, .ifBlock ⟨[], [.i64]⟩⟩, ⟨31, .brIf 5⟩, ⟨33, .elseMark⟩, ⟨34, .localGet 3⟩, ⟨36, .endMark⟩]
    [⟨37, .endMark⟩, ⟨38, .const (.i32 7)⟩, ⟨40, .endMark⟩] (by decide) rfl rfl (by decide)
      (by decide) [] (by decide)

end IR

end WasmScript
