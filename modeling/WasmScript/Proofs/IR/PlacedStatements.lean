/-
  WasmScript/Proofs/IR/PlacedStatements.lean
  ==========================================
  **Statements of plain instructions** — that they fit the place where they are put.

  An instruction that neither opens nor closes a block adds statements that have no others
  inside.  `Plain` says all that matters about those: what they name is there, which
  temporaries they bind, and which branches they take.

  `placed_straight` says so of each such instruction, if what is pending fits the place: it
  binds exactly the values that are made, and branches to exactly the blocks that it marks.
-/
import WasmScript.Proofs.IR.TypedBodies
import WasmScript.Proofs.IR.Scoping

namespace WasmScript.IR

open Expression (usesAll usesAll_subset)
open Statement

/-! ### What plain instructions use -/

/-- What is made of some expressions uses only what they use, and goes to one place. -/
inductive Work.From (es : List Expression) : Work → Prop
  | value {e : Expression} (uses : e.uses ⊆ usesAll es) : From es (.value e)
  | statement {s : Statement} (uses : s.uses ⊆ usesAll es) (label : s.label? = none)
      (branches : s.branches = []) (binds : s.binds = []) : From es (.statement s)
  | results {function : Nat} {types : List ValueType} : From es (.results function es types)

theorem Expression.uses_effectiveAddress (base : Expression) (offset : Nat) :
    (base.effectiveAddress offset).uses = base.uses := by
  unfold effectiveAddress
  split <;> rfl

theorem Expression.uses_ofOperator {op : NumericOp} {es : List Expression} {e : Expression}
    (h : ofOperator op es = some e) : e.uses ⊆ usesAll es := by
  have hconstant (type : ValueType) : (constant type 0).uses = [] := by cases type <;> rfl
  rcases es with _ | ⟨a, _ | ⟨b, _ | ⟨c, es⟩⟩⟩
  · cases h
  · rw [ofOperator] at h
    cases hcat : op.category <;> rw [hcat] at h <;> cases h <;> simp [uses, usesAll, hconstant]
  · rw [ofOperator] at h
    cases hcat : op.category <;> rw [hcat] at h <;> cases h <;> simp [uses, usesAll]
  · cases h

theorem Work.from_ofCall (function : Nat) (es : List Expression) (types : List ValueType) :
    (Work.ofCall function es types).From es := by
  rcases types with _ | ⟨result, _ | ⟨result', results⟩⟩
  · exact .statement (List.Subset.refl _) rfl rfl rfl
  · exact .value (List.Subset.refl _)
  · exact .results

theorem from_work {i : Instruction} {m : Module} {locals : Array ValueType} {es : List Expression}
    {w : Work} (made : i.work m locals es = some w) : w.From es := by
  cases Instruction.becomes_of_work made with
  | call => exact Work.from_ofCall ..
  | localGet | globalGet | memorySize => exact .value (List.nil_subset _)
  | localTee | memoryGrow => exact .value (by simp [Expression.uses, usesAll])
  | const v => cases v <;> exact .value (List.nil_subset _)
  | numeric _ he => exact .value (Expression.uses_ofOperator he)
  | load => exact .value (by simp [Expression.uses, usesAll, Expression.uses_effectiveAddress])
  | store =>
    exact .statement (by simp [Statement.uses, usesAll, Expression.uses_effectiveAddress])
      rfl rfl rfl
  | localSet | globalSet | memoryCopy | memoryFill =>
    exact .statement (by simp [Statement.uses, usesAll]) rfl rfl rfl

/-! ### Statements without others inside -/

/-- Statements that have no others inside and fit a place, the branches they take and the
temporaries they bind. -/
structure Plain (p : Place) (bs : List Branch) (ids : List Nat) (ss : List Statement) : Prop where
  placed : PlacedAll p ss
  labels : ∀ s ∈ ss, s.label? = none
  branches : ss.flatMap Statement.branches = bs
  binds : bound ss = ids

namespace Plain

variable {p : Place} {bs bs' : List Branch} {ids ids' : List Nat} {ss ts : List Statement}

theorem nil : Plain p [] [] [] := ⟨trivial, fun _ hs => absurd hs List.not_mem_nil, rfl, rfl⟩

theorem single {s : Statement} (label : s.label? = none) (uses : s.uses ⊆ p.known)
    (reaches : ∀ b ∈ s.branches, p.Reaches b) : Plain p s.branches s.binds [s] where
  placed := ⟨(placed_iff_of_label? label).mpr ⟨uses, reaches⟩, trivial⟩
  labels := List.forall_mem_singleton.mpr label
  branches := by simp
  binds := by simp [bound_eq_flatMap]

theorem append (hs : Plain p bs ids ss) (ht : Plain (p.learn ids) bs' ids' ts) :
    Plain p (bs ++ bs') (ids ++ ids') (ss ++ ts) where
  placed := by
    rw [placedAll_append, hs.binds]
    exact ⟨hs.placed, ht.placed⟩
  labels := List.forall_mem_append.mpr ⟨hs.labels, ht.labels⟩
  branches := by rw [List.flatMap_append, hs.branches, ht.branches]
  binds := by rw [bound_append, hs.binds, ht.binds]

theorem withinAll_eq (h : Plain p bs ids ss) : withinAll ss = ss := by
  have hlabels := h.labels
  clear h
  induction ss with
  | nil => rfl
  | cons s ss ih =>
    obtain ⟨hs, hss⟩ := List.forall_mem_cons.mp hlabels
    rw [withinAll, within_of_label? hs, ih hss]
    rfl

theorem bindsIn_eq (h : Plain p bs ids ss) : bindsIn ss = ids := by
  rw [bindsIn, h.withinAll_eq, ← bound_eq_flatMap, h.binds]

theorem branchesIn_eq (h : Plain p bs ids ss) : branchesIn ss = bs := by
  rw [branchesIn, h.withinAll_eq, h.branches]

theorem labelsIn_eq (h : Plain p bs ids ss) : labelsIn ss = [] := by
  rw [labelsIn, h.withinAll_eq]
  exact List.filterMap_eq_nil_iff.mpr h.labels

end Plain

namespace Build

variable {p : Place} {bs bs' : List Branch}

theorem plain_effects {es : List Expression} (h : ∀ e ∈ es, e.uses ⊆ p.known) :
    Plain p [] [] (effects es) := by
  induction es with
  | nil => exact .nil
  | cons e es ih =>
    obtain ⟨he, hes⟩ := List.forall_mem_cons.mp h
    rw [effects, List.filter_cons]
    split
    · refine Plain.append (.single (s := .evaluate (.single e)) rfl he ?_) ?_
      · exact fun b hb => absurd hb List.not_mem_nil
      · rw [show (Statement.evaluate (.single e)).binds = [] from rfl, Place.learn_nil]
        exact ih hes
    · exact ih hes

theorem plain_assignments (slots : List Nat) {es : List Expression}
    (h : ∀ e ∈ es, e.uses ⊆ p.known) :
    Plain p [] [] (assignments slots es) := by
  unfold assignments
  split
  · exact .nil
  · exact .single (s := .assign slots es) rfl (usesAll_subset.mpr h) fun b hb =>
      absurd hb List.not_mem_nil

/-! ### What is settled -/

/-- What is settled in a place is known there from then on, and control goes to certain branches. -/
structure Settling.Placed (p : Place) (bs : List Branch) (s : Settling) : Prop where
  operands : ∀ e ∈ s.operands, e.uses ⊆ (p.learn (Temp.ids .value s.temps)).known
  statements : Plain p bs (Temp.ids .value s.temps) s.statements

theorem placed_pending {es : List Expression} (h : ∀ e ∈ es, e.uses ⊆ p.known) :
    Settling.Placed p [] ⟨es, [], []⟩ where
  operands e he := List.Subset.trans (h e he) (List.subset_append_left _ _)
  statements := .nil

theorem placed_settling (es : List Expression) : ∀ (first : Nat) (p : Place),
    (∀ e ∈ es, e.uses ⊆ p.known) → (settling first es).Placed p [] := by
  induction es with
  | nil => exact fun first p h => placed_pending h
  | cons e es ih =>
    intro first p h
    obtain ⟨he, hes⟩ := List.forall_mem_cons.mp h
    unfold settling
    split
    · obtain ⟨operands, statements⟩ := ih first p hes
      refine ⟨List.forall_mem_cons.mpr ⟨?_, operands⟩, statements⟩
      exact List.Subset.trans he (List.subset_append_left _ _)
    · have hlater : ∀ e' ∈ es, e'.uses ⊆ (p.learn [first]).known := fun e' he' =>
        List.Subset.trans (hes e' he') (List.subset_append_left _ _)
      obtain ⟨operands, statements⟩ := ih (first + 1) (p.learn [first]) hlater
      have hids : Temp.ids .value (⟨first, e.type, .value⟩ :: (settling (first + 1) es).temps)
          = [first] ++ Temp.ids .value (settling (first + 1) es).temps := rfl
      have hdefine : Plain p [] [first] [.define [first] (.single e)] :=
        .single (s := .define [first] (.single e)) rfl he fun b hb => absurd hb List.not_mem_nil
      refine ⟨List.forall_mem_cons.mpr ⟨?_, ?_⟩, hids ▸ hdefine.append statements⟩
      · simp [Expression.uses, Place.learn, hids]
      · rwa [hids, ← Place.learn_learn]

/-- Statements that bind nothing go after all that is settled. -/
theorem Settling.Placed.emit {s : Settling} (h : s.Placed p bs) {ss : List Statement}
    (hss : Plain (p.learn (Temp.ids .value s.temps)) bs' [] ss) :
    (s.emit ss).Placed p (bs ++ bs') where
  operands := h.operands
  statements := by
    have happend := h.statements.append hss
    rwa [List.append_nil] at happend

theorem Settling.Placed.push {s : Settling} (h : s.Placed p bs) {es : List Expression}
    (hes : ∀ e ∈ es, e.uses ⊆ (p.learn (Temp.ids .value s.temps)).known) :
    Settling.Placed p bs { s with operands := es } :=
  ⟨hes, h.statements⟩

theorem placed_settlingIf (needed : Bool) {es : List Expression} (first : Nat)
    (h : ∀ e ∈ es, e.uses ⊆ p.known) : (settlingIf needed first es).Placed p [] := by
  cases needed with
  | true => exact placed_settling es first p h
  | false => exact placed_pending h

theorem uses_refs {ids : List Nat} {types : List ValueType} {e : Expression}
    (h : e ∈ refs ids types) :
    e.uses ⊆ ids := by
  induction ids generalizing types with
  | nil => cases types <;> cases h
  | cons id ids ih =>
    cases types with
    | nil => cases h
    | cons type types =>
      rcases List.mem_cons.mp h with rfl | h
      · simp [Expression.uses]
      · exact List.Subset.trans (ih h) (List.subset_cons_self _ _)

theorem ids_freshTemps (kind other : TempKind) (first : Nat) (types : List ValueType) :
    Temp.ids kind (freshTemps other first types)
      = if other = kind then List.range' first types.length else [] := by
  have hkind : ∀ t ∈ freshTemps other first types, t.kind = other := by
    induction types generalizing first with
    | nil => exact fun t ht => absurd ht List.not_mem_nil
    | cons type types ih => exact List.forall_mem_cons.mpr ⟨rfl, ih (first + 1)⟩
  split
  · next heq =>
    rw [Temp.ids, List.filter_eq_self.mpr fun t ht => by simp [hkind t ht, heq], map_id_freshTemps]
  · next hne =>
    rw [Temp.ids, List.filter_eq_nil_iff.mpr fun t ht => by simp [hkind t ht, hne], List.map_nil]

theorem placed_settlingWork {rest es : List Expression} {w : Work} (first : Nat)
    (hrest : ∀ e ∈ rest, e.uses ⊆ p.known) (hes : usesAll es ⊆ p.known) (hw : w.From es) :
    (settlingWork first rest w).Placed p [] := by
  have hsettled : (settling first rest).Placed p [] := placed_settling rest first p hrest
  have hlater : usesAll es ⊆ (p.learn (Temp.ids .value (settling first rest).temps)).known :=
    List.Subset.trans hes (List.subset_append_left _ _)
  -- A value stays pending, a statement is written, and several results are bound to new constants.
  cases hw with
  | value uses =>
    refine placed_pending (List.forall_mem_append.mpr ⟨hrest, List.forall_mem_singleton.mpr ?_⟩)
    exact List.Subset.trans uses hes
  | @statement s uses label branches binds =>
    have hplain := Plain.single label (List.Subset.trans uses hlater) fun b hb =>
      absurd (branches ▸ hb) List.not_mem_nil
    rw [branches, binds] at hplain
    exact hsettled.emit hplain
  | @results function types =>
    let ids := List.range' (first + (settling first rest).temps.length) types.length
    have hids : Temp.ids .value (settlingWork first rest (.results function es types)).temps
        = Temp.ids .value (settling first rest).temps ++ ids := by
      rw [settlingWork, Temp.ids_append, ids_freshTemps, if_pos rfl]
    have hdefine : Plain (p.learn (Temp.ids .value (settling first rest).temps)) [] ids
        [.define ids (.multi function es types)] :=
      .single (s := .define ids (.multi function es types)) rfl hlater fun b hb =>
        absurd hb List.not_mem_nil
    refine ⟨List.forall_mem_append.mpr ⟨fun e he => ?_, fun e he => ?_⟩, ?_⟩ <;> rw [hids]
    · rw [← Place.learn_learn]
      exact List.Subset.trans (hsettled.operands e he) (List.subset_append_left _ _)
    · rw [← Place.learn_learn]
      exact List.Subset.trans (uses_refs he) (List.subset_append_right _ _)
    · exact hsettled.statements.append hdefine

/-! ### Instructions that stay in a block -/

theorem values_branchAt (fs : List Frame) (es : List Expression) (depth : Nat) :
    (branchAt fs es depth).values = es := by
  unfold branchAt branchTo
  split <;> rfl

/-- What an instruction makes of operands that fit a place fits it too, and its branches go to the
blocks that it marks. -/
theorem placed_straight {ctx : Context} {fs : List Frame} {first : Nat} {i : Instruction}
    {pend : List Expression} {o : Outcome} (hpend : ∀ e ∈ pend, e.uses ⊆ p.known)
    (hreaches : ∀ (es : List Expression), ∀ d < fs.length, p.Reaches (branchAt fs es d))
    (h : Straight ctx fs first i pend o) :
    ∃ es, (∀ d ∈ o.depths, d < fs.length) ∧
      o.toSettling.Placed p (o.depths.map (branchAt fs es)) := by
  have hdepth {es : List Expression} {d : Nat}
      (htarget : fs[d]?.map Frame.labelTypes = some (es.map Expression.type)) : d < fs.length := by
    obtain ⟨f, hf, -⟩ := Option.map_eq_some_iff.mp htarget
    exact (List.getElem?_eq_some_iff.mp hf).1
  cases h with
  | nop => exact ⟨[], fun d hd => absurd hd List.not_mem_nil, placed_pending hpend⟩
  | @work i type rest es w signature types made gives =>
    obtain ⟨hrest, hes⟩ := List.forall_mem_append.mp hpend
    exact ⟨[], fun d hd => absurd hd List.not_mem_nil,
      placed_settlingWork first hrest (usesAll_subset.mpr hes) (from_work made)⟩
  | drop =>
    obtain ⟨hrest, he⟩ := List.forall_mem_append.mp hpend
    refine ⟨[], fun d hd => absurd hd List.not_mem_nil, (placed_settlingIf _ first hrest).emit ?_⟩
    exact plain_effects fun e' he' => List.Subset.trans (he e' he') (List.subset_append_left _ _)
  | @select rest rest' condition a b needed type operands same quiet =>
    obtain ⟨hrest, hc⟩ := List.forall_mem_append.mp hpend
    have hsettled := placed_settlingIf needed first hrest
    have hoperands := hsettled.operands
    rw [operands, List.forall_mem_append] at hoperands
    obtain ⟨hrest', hab⟩ := hoperands
    refine ⟨[], fun d hd => absurd hd List.not_mem_nil, hsettled.push ?_⟩
    refine List.forall_mem_append.mpr ⟨hrest', List.forall_mem_singleton.mpr ?_⟩
    rw [Expression.uses, List.append_subset, List.append_subset]
    exact ⟨⟨List.Subset.trans (hc _ List.mem_cons_self) (List.subset_append_left _ _),
      hab _ List.mem_cons_self⟩, hab _ (List.mem_cons_of_mem _ List.mem_cons_self)⟩
  | unreachable =>
    refine ⟨[], fun d hd => absurd hd List.not_mem_nil, fun e he => absurd he List.not_mem_nil, ?_⟩
    exact (plain_effects hpend).append
      (.single (s := .unreachable) rfl (List.nil_subset _) fun b hb => absurd hb List.not_mem_nil)
  | @br rest es depth target =>
    obtain ⟨hrest, hes⟩ := List.forall_mem_append.mp hpend
    refine ⟨es, List.forall_mem_singleton.mpr (hdepth target), fun e he =>
      absurd he List.not_mem_nil, ?_⟩
    refine (plain_effects hrest).append (.single (s := .branch (branchAt fs es depth)) rfl ?_ ?_)
    · rw [Statement.uses, values_branchAt, Place.learn_nil]
      exact usesAll_subset.mpr hes
    · exact List.forall_mem_singleton.mpr (hreaches es depth (hdepth target))
  | @ret rest es types =>
    obtain ⟨hrest, hes⟩ := List.forall_mem_append.mp hpend
    refine ⟨[], fun d hd => absurd hd List.not_mem_nil, fun e he => absurd he List.not_mem_nil, ?_⟩
    refine (plain_effects hrest).append (.single (s := .leave es) rfl ?_ fun b hb =>
      absurd hb List.not_mem_nil)
    rw [Place.learn_nil]
    exact usesAll_subset.mpr hes
  | @brIf rest rest' es depth condition type operands target =>
    obtain ⟨hrest, hc⟩ := List.forall_mem_append.mp hpend
    have hsettled := placed_settling rest first p hrest
    have hoperands := hsettled.operands
    rw [operands, List.forall_mem_append] at hoperands
    refine ⟨es, List.forall_mem_singleton.mpr (hdepth target), hsettled.emit ?_⟩
    -- The values come out of what has been settled, so the branch reads nothing that is not known.
    refine .single (s := .branchIf condition (branchAt fs es depth)) rfl ?_ ?_
    · rw [Statement.uses, values_branchAt, List.append_subset]
      exact ⟨List.Subset.trans (hc _ List.mem_cons_self) (List.subset_append_left _ _),
        usesAll_subset.mpr hoperands.2⟩
    · exact List.forall_mem_singleton.mpr (hreaches es depth (hdepth target))
  | @brTable rest rest' es default depths index type operands targets =>
    obtain ⟨hrest, hindex⟩ := List.forall_mem_append.mp hpend
    have hsettled := placed_settling rest first p hrest
    have hoperands := hsettled.operands
    rw [operands, List.forall_mem_append] at hoperands
    have hbranches : depths.map (branchAt fs es) ++ [branchAt fs es default]
        = (depths ++ [default]).map (branchAt fs es) := by simp
    have hin : ∀ d ∈ depths ++ [default], d < fs.length := fun d hd => hdepth (targets d hd)
    refine ⟨es, hin, Settling.Placed.push ?_ fun e he => absurd he List.not_mem_nil⟩
    dsimp only
    rw [← hbranches]
    refine hsettled.emit (.single (s := .branchTable index (depths.map (branchAt fs es))
      (branchAt fs es default)) rfl ?_ ?_)
    · rw [Statement.uses, hbranches, List.append_subset]
      refine ⟨List.Subset.trans (hindex _ List.mem_cons_self) (List.subset_append_left _ _), ?_⟩
      intro id hid
      obtain ⟨b, hb, hid⟩ := List.mem_flatMap.mp hid
      obtain ⟨d, -, rfl⟩ := List.mem_map.mp hb
      rw [values_branchAt] at hid
      exact usesAll_subset.mpr hoperands.2 hid
    · rw [Statement.branches, hbranches]
      intro b hb
      obtain ⟨d, hd, rfl⟩ := List.mem_map.mp hb
      exact hreaches es d (hin d hd)

end Build

end WasmScript.IR
