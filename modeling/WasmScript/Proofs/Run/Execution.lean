/-
  WasmScript/Proofs/Run/Execution.lean
  ====================================
  **Running typed statements** — how they end, and what they leave.

  A typed statement in its place ends in a way that the place allows: it goes on to the next
  only if control may pass, it names a block or a loop around it, or it leaves with the
  results of the function.  What is left fits, and the temporaries that it binds are known
  where it goes on.  They are forgotten at the end of their list, which takes nothing away
  that is known around it, as each is bound in one place only.

  So a function that is typed, has its names in order and does not fall off its end gives its
  results, or it fails as a call may.
-/
import WasmScript.Proofs.IR.Flow
import WasmScript.Proofs.Run.Evaluation

namespace WasmScript.IR

open WasmScript.Action Statement
open Expression (usesAll usesAll_subset)

variable {σ : Type} {Γ : Scope} {count : Nat} {known : List Nat} {F : Failure → Prop}
variable {around around' : Surroundings σ} {p : Place} {s : Statement} {ss : List Statement}

/-! ### Temporaries that are bound -/

/-- Statements that bind what is not known yet, each temporary once. -/
structure Fresh (known : List Nat) (ss : List Statement) : Prop where
  unknown : ∀ id ∈ bindsIn ss, id ∉ known
  nodup : (bindsIn ss).Nodup

theorem binds_subset_bindsIn (s : Statement) : s.binds ⊆ bindsIn [s] := by
  have hmem : s ∈ withinAll [s] := by
    cases s <;> simp [withinAll, within]
  exact fun id hid => List.mem_flatMap.mpr ⟨s, hmem, hid⟩

theorem bound_subset_bindsIn (ss : List Statement) : bound ss ⊆ bindsIn ss := by
  induction ss with
  | nil => exact List.Subset.refl _
  | cons s ss ih =>
    rw [bound_eq_flatMap, List.flatMap_cons, ← bound_eq_flatMap, ← List.singleton_append,
      bindsIn_append]
    exact List.append_subset.mpr ⟨List.subset_append_of_subset_left _ (binds_subset_bindsIn s),
      List.subset_append_of_subset_right _ ih⟩

namespace Fresh

variable {ts : List Statement}

theorem left (h : Fresh known (ss ++ ts)) : Fresh known ss where
  unknown id hid := h.unknown id (by rw [bindsIn_append]; exact List.mem_append_left _ hid)
  nodup := (List.nodup_append.mp (bindsIn_append ss ts ▸ h.nodup)).1

theorem right (h : Fresh known (ss ++ ts)) : Fresh known ts where
  unknown id hid := h.unknown id (by rw [bindsIn_append]; exact List.mem_append_right _ hid)
  nodup := (List.nodup_append.mp (bindsIn_append ss ts ▸ h.nodup)).2.1

theorem head (h : Fresh known (s :: ss)) : Fresh known [s] := by
  rw [← List.singleton_append] at h
  exact h.left

theorem of_bindsIn_eq (h : Fresh known ss) (hsame : bindsIn ss = bindsIn ts) : Fresh known ts :=
  ⟨hsame ▸ h.unknown, hsame ▸ h.nodup⟩

/-- What follows some statements binds none of what they bind. -/
theorem learn (h : Fresh known (ss ++ ts)) : Fresh (known ++ bound ss) ts where
  unknown id hid hknown := by
    have hnodup := h.nodup
    rw [bindsIn_append] at hnodup
    rcases List.mem_append.mp hknown with hknown | hbound
    · exact h.right.unknown id hid hknown
    · exact (List.nodup_append.mp hnodup).2.2 id (bound_subset_bindsIn ss hbound) id hid rfl
  nodup := h.right.nodup

end Fresh

theorem bound_singleton (s : Statement) : bound [s] = s.binds := by simp [bound_eq_flatMap]

theorem Fresh.next (h : Fresh known (s :: ss)) : Fresh (known ++ s.binds) ss := by
  rw [← List.singleton_append] at h
  rw [← bound_singleton]
  exact h.learn

/-- Typed statements in their place, which bind what is not known there yet. -/
structure Belongs (Γ : Scope) (p : Place) (ss : List Statement) : Prop where
  typed : ∀ s ∈ ss, s.Typed Γ
  placed : PlacedAll p ss
  fresh : Fresh p.known ss

namespace Belongs

variable {ts : List Statement}

theorem left (h : Belongs Γ p (ss ++ ts)) : Belongs Γ p ss where
  typed s hs := h.typed s (List.mem_append_left _ hs)
  placed := (placedAll_append.mp h.placed).1
  fresh := h.fresh.left

theorem right (h : Belongs Γ p (ss ++ ts)) : Belongs Γ (p.learn (bound ss)) ts where
  typed s hs := h.typed s (List.mem_append_right _ hs)
  placed := (placedAll_append.mp h.placed).2
  fresh := h.fresh.learn

theorem head (h : Belongs Γ p (s :: ss)) : Belongs Γ p [s] := by
  rw [← List.singleton_append] at h
  exact h.left

theorem tail (h : Belongs Γ p (s :: ss)) : Belongs Γ (p.learn s.binds) ss := by
  rw [← List.singleton_append] at h
  rw [← bound_singleton]
  exact h.right

theorem block {label : Int} {targeted : Bool} (h : Belongs Γ p [.block label targeted ss]) :
    Belongs Γ (p.inBlock label) ss where
  typed := by
    cases List.forall_mem_singleton.mp h.typed with
    | block body => exact body
  placed := h.placed.1.2
  fresh := h.fresh.of_bindsIn_eq (bindsIn_block ..)

theorem loop {label : Int} {targeted : Bool} (h : Belongs Γ p [.loop label targeted ss]) :
    Belongs Γ (p.inLoop label) ss where
  typed := by
    cases List.forall_mem_singleton.mp h.typed with
    | loop body => exact body
  placed := h.placed.1.2
  fresh := h.fresh.of_bindsIn_eq (bindsIn_loop ..)

/-- The arms of a choice, one as if it came before the other. -/
theorem conditional {label : Int} {targeted : Bool} {c : Expression}
    (h : Belongs Γ p [.conditional label targeted c ss ts]) :
    Belongs Γ (p.inBlock label) ss ∧ Belongs Γ (p.inBlock label) ts := by
  obtain ⟨⟨-, -, hyes, hno⟩, -⟩ := h.placed
  have hboth : Fresh (p.inBlock label).known (ss ++ ts) :=
    h.fresh.of_bindsIn_eq (bindsIn_conditional ..)
  cases List.forall_mem_singleton.mp h.typed with
  | conditional condition type yes no =>
    exact ⟨⟨yes, hyes, hboth.left⟩, ⟨no, hno, hboth.right⟩⟩

end Belongs

/-! ### How statements end -/

/-- What is so where statements end in some way: what they do not hand on to the next leads to a
block or a loop around or out of the function, and `ids` are known where they go on. -/
def Ending.Fits (Γ : Scope) (count : Nat) (p : Place) (ss : List Statement) (ids : List Nat) :
    Ending → Variables σ → Prop
  | .next, v => PassesAll ss ∧ v.Fits Γ count (p.known ++ ids)
  | .exit label, v => (label ∈ p.exits ∧ Names label ss) ∧ v.Fits Γ count p.known
  | .restart label, v => (label ∈ p.restarts ∧ Names label ss) ∧ v.Fits Γ count p.known
  | .leave cells, v => FitAll cells Γ.results ∧ v.Fits Γ count p.known

/-- Two runs that both end as they should. -/
def AgreeIn (Γ : Scope) (count : Nat) (p : Place) (F : Failure → Prop) (ss : List Statement)
    (ids : List Nat) (run run' : Run σ Ending) : Prop :=
  Agree (Variables.Fits Γ count p.known) run run' (Ending.Fits Γ count p ss ids) (Failed Γ count F)

namespace Run

/-! ### Temporaries -/

theorem fits_setTemp {v : Variables σ} (hv : v.Fits Γ count known) {id : Nat} {type : ValueType}
    {kind : TempKind} (hid : Γ.temps[id]? = some ⟨id, type, kind⟩) {c : Cell} (hc : c.Fits type) :
    ({ v with temps := v.temps.setIfInBounds id (some c) } : Variables σ).Fits Γ count
    (id :: known) := by
  have hlt : id < v.temps.size := hv.size ▸ (Array.getElem?_eq_some_iff.mp hid).1
  refine ⟨hv.locals, Array.size_setIfInBounds.trans hv.size, fun i t ht d hd => ?_, fun i hi =>
    ?_, hv.store⟩
  · by_cases heq : id = i
    · subst heq
      rw [hid] at ht
      cases ht
      rw [Array.getElem?_setIfInBounds_self_of_lt hlt] at hd
      cases hd
      exact hc
    · rw [Array.getElem?_setIfInBounds_ne heq] at hd
      exact hv.temps i t ht d hd
  · by_cases heq : id = i
    · subst heq
      rw [Array.getElem?_setIfInBounds_self_of_lt hlt]
      rfl
    · rw [Array.getElem?_setIfInBounds_ne heq]
      exact hv.known i ((List.mem_cons.mp hi).resolve_left (Ne.symm heq))

theorem agree_setTemp {id : Nat} {type : ValueType} {kind : TempKind}
    (hid : Γ.temps[id]? = some ⟨id, type, kind⟩) {c : Cell} (hc : c.Fits type) :
    Agree (Variables.Fits (σ := σ) Γ count known) (setTemp id c) (setTemp id c)
      (fun _ v => v.Fits Γ count (id :: known)) (Failed Γ count F) := by
  rintro ⟨locals, temps, store⟩ hv
  have hlt : id < temps.size := hv.size ▸ (Array.getElem?_eq_some_iff.mp hid).1
  refine ⟨rfl, ?_⟩
  simp only [setTemp]
  rw [if_pos hlt]
  exact fits_setTemp hv hid hc

/-- Temporaries of the types of some values are assigned and known from then on. -/
theorem agree_setTemps {kind : TempKind} {ids : List Nat} {types : List ValueType}
    {cells : List Cell} (hids : Γ.Declares kind ids types) (hcells : FitAll cells types) :
    Agree (Variables.Fits (σ := σ) Γ count known) (setTemps ids cells) (setTemps ids cells)
      (fun _ v => v.Fits Γ count (known ++ ids)) (Failed Γ count F) := by
  induction hids generalizing cells known with
  | nil =>
    cases hcells
    rw [List.append_nil]
    exact Agree.pure fun _ h => h
  | @cons id type ids types found _ ih =>
    cases hcells with
    | @cons c _ cells _ hc hcells =>
      refine (agree_setTemp found hc).bind fun _ => (ih hcells).post fun _ v hv =>
        hv.mono fun i hi => ?_
      rcases List.mem_append.mp hi with hi | hi
      · exact List.mem_append_left _ (List.mem_cons_of_mem _ hi)
      · rcases List.mem_cons.mp hi with rfl | hi
        · exact List.mem_append_left _ List.mem_cons_self
        · exact List.mem_append_right _ hi

/-- What some temporaries hold after others are cleared. -/
theorem getElem?_cleared (ids : List Nat) (temps : Array (Option Cell)) (i : Nat) :
    (ids.foldl (fun temps id => temps.setIfInBounds id none) temps)[i]?.join
      = if i ∈ ids then none else temps[i]?.join := by
  induction ids generalizing temps with
  | nil => rfl
  | cons id ids ih =>
    rw [List.foldl_cons, ih]
    by_cases hmem : i ∈ ids
    · simp [hmem]
    · by_cases heq : id = i
      · subst heq
        rw [Array.getElem?_setIfInBounds, if_neg hmem, if_pos List.mem_cons_self, if_pos rfl]
        split <;> rfl
      · rw [Array.getElem?_setIfInBounds_ne heq]
        simp [hmem, Ne.symm heq]

/-- Clearing temporaries leaves the others as they are. -/
theorem getElem?_cleared_of_not_mem {ids : List Nat} {i : Nat} (hi : i ∉ ids)
    (temps : Array (Option Cell)) :
    (ids.foldl (fun temps id => temps.setIfInBounds id none) temps)[i]? = temps[i]? := by
  induction ids generalizing temps with
  | nil => rfl
  | cons id ids ih =>
    obtain ⟨hne, hi⟩ := not_or.mp (List.mem_cons.not.mp hi)
    rw [List.foldl_cons, ih hi, Array.getElem?_setIfInBounds_ne (Ne.symm hne)]

theorem size_cleared (ids : List Nat) (temps : Array (Option Cell)) :
    (ids.foldl (fun temps id => temps.setIfInBounds id none) temps).size = temps.size := by
  induction ids generalizing temps with
  | nil => rfl
  | cons id ids ih => rw [List.foldl_cons, ih, Array.size_setIfInBounds]

/-- Nothing that is known is lost where other temporaries are cleared. -/
theorem fits_cleared {v : Variables σ} (hv : v.Fits Γ count known) {ids : List Nat}
    (hids : ∀ id ∈ ids, id ∉ known) :
    (⟨v.locals, ids.foldl (fun temps id => temps.setIfInBounds id none) v.temps, v.store⟩ :
      Variables σ).Fits Γ count known where
  locals := hv.locals
  size := (size_cleared ids v.temps).trans hv.size
  temps i t ht c hc := by
    rw [getElem?_cleared] at hc
    split at hc
    · cases hc
    · exact hv.temps i t ht c hc
  known i hi := by
    rw [getElem?_cleared, if_neg fun hmem => hids i hmem hi]
    exact hv.known i hi
  store := hv.store

/-! ### Branches and blocks -/

theorem agree_takeBranch (ha : SurroundingsAgree Γ count F around around') {b : Branch}
    (ids : List Nat) (htyped : b.Typed Γ) (huses : usesAll b.values ⊆ p.known)
    (hreaches : p.Reaches b) (hnames : Names b.label ss) :
    AgreeIn Γ count p F ss ids (takeBranch around b) (takeBranch around' b) := by
  unfold takeBranch
  refine (agree_evaluateAll ha htyped.values huses).bind fun cells => Agree.of_fact fun hcells => ?_
  unfold Place.Reaches at hreaches
  cases hmode : b.mode with
  | leave =>
    rw [(htyped.results hmode).2] at hcells
    exact Agree.pure fun v hv => ⟨hcells, hv⟩
  | exit =>
    rw [hmode] at hreaches
    refine (agree_setTemps (htyped.slots (by rw [hmode]; rintro ⟨⟩)) hcells).bind fun _ => ?_
    exact Agree.pure fun v hv => ⟨⟨hreaches, hnames⟩, hv.mono (List.subset_append_left _ _)⟩
  | restart =>
    rw [hmode] at hreaches
    refine (agree_setTemps (htyped.slots (by rw [hmode]; rintro ⟨⟩)) hcells).bind fun _ => ?_
    exact Agree.pure fun v hv => ⟨⟨hreaches, hnames⟩, hv.mono (List.subset_append_left _ _)⟩

/-- What a list of statements binds is forgotten at its end. -/
theorem agree_inScope {run run' : Run σ Ending} (hfresh : Fresh p.known ss)
    (h : AgreeIn Γ count p F ss (bound ss) run run') :
    AgreeIn Γ count p F ss [] (inScope ss run) (inScope ss run') := by
  have hunknown : ∀ id ∈ bound ss, id ∉ p.known := fun id hid =>
    hfresh.unknown id (bound_subset_bindsIn ss hid)
  refine Agree.bind h fun ending => ?_
  rintro ⟨locals, temps, store⟩ hv
  refine ⟨rfl, ?_⟩
  have hclear (hp : (⟨locals, temps, store⟩ : Variables σ).Fits Γ count p.known) :=
    fits_cleared hp hunknown
  cases ending with
  | next =>
    refine ⟨hv.1, ?_⟩
    rw [List.append_nil]
    exact hclear (hv.2.mono (List.subset_append_left _ _))
  | exit label => exact ⟨hv.1, hclear hv.2⟩
  | restart label => exact ⟨hv.1, hclear hv.2⟩
  | leave cells => exact ⟨hv.1, hclear hv.2⟩

/-- A block that its body leaves by its end or by a branch to it goes on after it. -/
theorem agree_endBlock {label : Int} {run run' : Run σ Ending}
    (hpasses : PassesAll ss ∨ Names label ss → s.Passes) (hbinds : s.binds = [])
    (hnames : ∀ l, Names l ss → Names l [s])
    (h : AgreeIn Γ count (p.inBlock label) F ss [] run run') :
    AgreeIn Γ count p F [s] s.binds (do pure (endBlock label (← run)))
      (do pure (endBlock label (← run'))) := by
  refine Agree.bind h fun ending => Agree.pure fun v hv => ?_
  rw [hbinds]
  cases ending with
  | next => exact ⟨⟨hpasses (.inl hv.1), trivial⟩, hv.2⟩
  | exit l =>
    obtain ⟨⟨hl, hnamed⟩, hfits⟩ := hv
    rw [endBlock]
    split
    · next heq =>
      subst heq
      exact ⟨⟨hpasses (.inr hnamed), trivial⟩, (List.append_nil _).symm ▸ hfits⟩
    · next hne => exact ⟨⟨(List.mem_cons.mp hl).resolve_left hne, hnames l hnamed⟩, hfits⟩
  | restart l => exact ⟨⟨hv.1.1, hnames l hv.1.2⟩, hv.2⟩
  | leave cells => exact hv

/-- A loop goes on after its body, or makes another turn where that branches to it. -/
theorem agree_repeatBody (hlong : F .tooLong) {label : Int} {run run' : Run σ Ending}
    (h : AgreeIn Γ count (p.inLoop label) F ss [] run run') (turns : Nat) :
    AgreeIn Γ count p F ss [] (repeatBody label run turns) (repeatBody label run' turns) := by
  induction turns with
  | zero => exact Agree.throw fun v hv => ⟨hlong, hv.store⟩
  | succ turns ih =>
    rw [repeatBody, repeatBody]
    refine Agree.bind h fun ending => ?_
    cases ending with
    | next => exact Agree.pure fun v hv => hv
    | exit l => exact Agree.pure fun v hv => hv
    | restart l =>
      dsimp only
      split
      · exact Agree.pre ih fun v hv => hv.2
      · next hne =>
        exact Agree.pure fun v hv => ⟨⟨(List.mem_cons.mp hv.1.1).resolve_left hne, hv.1.2⟩, hv.2⟩
    | leave cells => exact Agree.pure fun v hv => hv

/-- A loop whose body ends as it should does so as well. -/
theorem agree_loop (hlong : F .tooLong) {label : Int} (targeted : Bool) {run run' : Run σ Ending}
    (h : AgreeIn Γ count (p.inLoop label) F ss [] run run') (turns : Nat) :
    AgreeIn Γ count p F [.loop label targeted ss] [] (repeatBody label run turns)
      (repeatBody label run' turns) := by
  refine Agree.post (agree_repeatBody hlong h turns) fun ending v hv => ?_
  cases ending with
  | next => exact ⟨⟨hv.1, trivial⟩, hv.2⟩
  | exit l | restart l => exact ⟨⟨hv.1.1, by rw [Names, branchesIn_loop]; exact hv.1.2⟩, hv.2⟩
  | leave cells => exact hv

/-! ### Statements -/

/-- The branches of a statement name labels. -/
theorem names_of_mem_branches {b : Branch} (h : b ∈ s.branches) : Names b.label [s] := by
  have hmem : s ∈ withinAll [s] := by
    cases s <;> simp [withinAll, within]
  exact ⟨b, List.mem_flatMap.mpr ⟨s, hmem, h⟩, rfl⟩

/-- An operation on the memory of the instance. -/
theorem agree_onMemory (ha : SurroundingsAgree Γ count F around around')
    (hmemory : Γ.module.memory.isSome) {op : LinearMemory.Op Unit}
    (hkeeps : Keeps LinearMemory.Fits op) :
    Agree (Variables.Fits (σ := σ) Γ count known)
      (do act (onOwnMemory around.place op); pure Ending.next)
      (do act (onOwnMemory around.place op); pure Ending.next)
      (fun ending v => ending = .next ∧ v.Fits Γ count known) (Failed Γ count F) := by
  refine (agree_actTraps (Q := fun _ => True) ha ?_).bind fun _ => Agree.pure fun v hv =>
    ⟨rfl, hv.2⟩
  exact agree_onOwnMemory ha.inside hmemory hkeeps fun _ _ _ _ _ => trivial

/-- What goes on with an operand that is an `i32`. -/
theorem agree_i32 {α β : Type} (ha : SurroundingsAgree Γ count F around around')
    {convert : Cell → Run σ α} (hconvert : ∀ c : Cell, (∃ n, c.toValue = .i32 n) →
      Agree (Variables.Fits Γ count known) (convert c) (convert c) (fun _ v => v.Fits Γ count known)
        (Failed Γ count F))
    {e : Expression} (htyped : e.Typed Γ .value) (htype : e.type = .i32) (huses : e.uses ⊆ known)
    {k k' : α → Run σ β} {Q : β → Variables σ → Prop}
    (hk : ∀ n, Agree (Variables.Fits Γ count known) (k n) (k' n) Q (Failed Γ count F)) :
    Agree (Variables.Fits Γ count known) (evaluate around e >>= fun c => convert c >>= k)
      (evaluate around' e >>= fun c => convert c >>= k') Q (Failed Γ count F) := by
  refine (agree_evaluate ha htyped huses).bind fun c => Agree.of_fact fun hc => ?_
  exact (hconvert c (exists_i32 (htyped.fits_as htype hc))).bind hk

/-- A statement that goes on to the next. -/
theorem AgreeIn.of_next {run run' : Run σ Ending} (hpasses : s.Passes) (hbinds : s.binds = [])
    (h : Agree (Variables.Fits Γ count p.known) run run'
      (fun ending v => ending = .next ∧ v.Fits Γ count p.known) (Failed Γ count F)) :
    AgreeIn Γ count p F [s] s.binds run run' := by
  refine Agree.post h fun ending v hv => ?_
  obtain ⟨rfl, hv⟩ := hv
  rw [hbinds]
  exact ⟨⟨hpasses, trivial⟩, (List.append_nil _).symm ▸ hv⟩

theorem agree_setGlobal (ha : SurroundingsAgree Γ count F around around') {index : Nat} {g : Global}
    (hfound : Γ.module.globals[index]? = some g) {c : Cell} (hc : c.Fits g.type) :
    Agree (Variables.Fits (σ := σ) Γ count known)
      (do act (setGlobal around.place index c); pure Ending.next)
      (do act (setGlobal around.place index c); pure Ending.next)
      (fun ending v => ending = .next ∧ v.Fits Γ count known) (Failed Γ count F) := by
  refine (agree_actTraps (Q := fun _ => True) ha fun s hs => ?_).bind fun _ =>
    Agree.pure fun v hv => ⟨rfl, hv.2⟩
  obtain ⟨s', hset, hs'⟩ := setGlobal_eq hs ha.inside (Module.globalTypes_of_found hfound) hc
  rw [hset]
  exact ⟨rfl, trivial, hs'⟩

/-- A number is stored at an address once both are there. -/
theorem agree_store (ha : SurroundingsAgree Γ count F around around')
    (hmemory : Γ.module.memory.isSome) {access : Access} {address value : Expression}
    (haddress : address.Typed Γ .address) (hvalue : value.Typed Γ .value)
    (htype : value.type = access.type) (huses : address.uses ++ value.uses ⊆ known) :
    Agree (Variables.Fits Γ count known) (execute around (.store access address value))
      (execute around' (.store access address value))
      (fun ending v => ending = .next ∧ v.Fits Γ count known) (Failed Γ count F) := by
  obtain ⟨hua, huv⟩ := List.append_subset.mp huses
  rw [execute, execute, ha.place]
  refine (agree_evaluate ha haddress hua).bind fun c => Agree.of_fact fun hc => ?_
  refine (agree_toAddress (haddress.exists_address hc)).bind fun n => ?_
  refine (agree_evaluate ha hvalue huv).bind fun d => Agree.of_fact fun hd => ?_
  obtain ⟨k, hk⟩ := Operation.stored_eq (hvalue.fits_as htype hd)
  rw [hk]
  exact agree_onMemory ha hmemory (.fits fun _ => LinearMemory.keeps_store _ _ _)

theorem three_uses {a b c : Expression} {known : List Nat}
    (h : a.uses ++ b.uses ++ c.uses ⊆ known) :
    a.uses ⊆ known ∧ b.uses ⊆ known ∧ c.uses ⊆ known := by
  rw [List.append_subset, List.append_subset] at h
  exact ⟨h.1.1, h.1.2, h.2⟩

mutual
/-- A typed statement in its place ends as it should. -/
theorem agree_execute (ha : SurroundingsAgree Γ count F around around') {s : Statement} {p : Place}
    (htyped : s.Typed Γ) (hplaced : s.Placed p) (hfresh : Fresh p.known [s]) :
    AgreeIn Γ count p F [s] s.binds (execute around s) (execute around' s) := by
  cases s with
  | block label targeted body =>
    cases htyped with
    | block htyped =>
    rw [execute, execute]
    have hbody : Fresh (p.inBlock label).known body := hfresh.of_bindsIn_eq (bindsIn_block ..)
    -- A branch out of the body ends here, or goes on to a label that the block names as well.
    refine agree_endBlock id rfl (fun l hl => ?_)
      (agree_inScope hbody (agree_executeAll ha htyped hplaced.2 hbody))
    rwa [Names, branchesIn_block]
  | loop label targeted body =>
    cases htyped with
    | loop htyped =>
    rw [execute, execute, ha.turns]
    have hbody : Fresh (p.inLoop label).known body := hfresh.of_bindsIn_eq (bindsIn_loop ..)
    exact agree_loop ha.tooLong targeted
      (agree_inScope hbody (agree_executeAll ha htyped hplaced.2 hbody)) around.turns
  | conditional label targeted condition yes no =>
    cases htyped with
    | conditional hcondition htype hyes hno =>
    obtain ⟨huses, -, hpyes, hpno⟩ := hplaced
    rw [execute, execute]
    have hboth : Fresh (p.inBlock label).known (yes ++ no) :=
      hfresh.of_bindsIn_eq (bindsIn_conditional ..)
    have hnames (l : Int) (hl : Names l yes ∨ Names l no) :
        Names l [.conditional label targeted condition yes no] := by
      rw [Names, branchesIn_conditional]
      exact names_append.mpr hl
    refine agree_i32 ha (fun c => agree_toI32) hcondition htype huses fun n => ?_
    split
    · refine agree_endBlock (fun h => ?_) rfl (fun l hl => hnames l (.inl hl))
        (agree_inScope hboth.left (agree_executeAll ha hyes hpyes hboth.left))
      exact h.imp .inl fun hl => names_append.mpr (.inl hl)
    · refine agree_endBlock (fun h => ?_) rfl (fun l hl => hnames l (.inr hl))
        (agree_inScope hboth.right (agree_executeAll ha hno hpno hboth.right))
      exact h.imp .inr fun hl => names_append.mpr (.inr hl)
  | branch b =>
    cases htyped with
    | branch htyped =>
    obtain ⟨huses, hreaches⟩ := hplaced
    rw [execute, execute]
    exact agree_takeBranch ha _ htyped huses (hreaches b List.mem_cons_self)
      (names_of_mem_branches (s := .branch b) List.mem_cons_self)
  | branchIf condition b =>
    cases htyped with
    | branchIf hcondition htype htyped =>
    obtain ⟨huses, hreaches⟩ := hplaced
    obtain ⟨hc, hb⟩ := List.append_subset.mp huses
    rw [execute, execute]
    refine agree_i32 ha (fun c => agree_toI32) hcondition htype hc fun n => ?_
    split
    · exact agree_takeBranch ha _ htyped hb (hreaches b List.mem_cons_self)
        (names_of_mem_branches (s := .branchIf condition b) List.mem_cons_self)
    · exact Agree.pure fun v hv => ⟨⟨trivial, trivial⟩, (List.append_nil _).symm ▸ hv⟩
  | branchTable index targets default =>
    cases htyped with
    | branchTable hindex htype htargets hdefault =>
    obtain ⟨huses, hreaches⟩ := hplaced
    obtain ⟨hi, hbs⟩ := List.append_subset.mp huses
    have hall : ∀ b ∈ targets ++ [default], b.Typed Γ :=
      List.forall_mem_append.mpr ⟨htargets, List.forall_mem_singleton.mpr hdefault⟩
    rw [execute, execute]
    refine agree_i32 ha (fun c => agree_toAddress) hindex htype hi fun n => ?_
    have hmem : targets[n]?.getD default ∈ targets ++ [default] := by
      cases hn : targets[n]? with
      | none => exact List.mem_append_right _ List.mem_cons_self
      | some b => exact List.mem_append_left _ (List.mem_of_getElem? hn)
    refine agree_takeBranch ha _ (hall _ hmem)
      (fun id hid => hbs (List.mem_flatMap.mpr ⟨_, hmem, hid⟩)) (hreaches _ hmem)
      (names_of_mem_branches (s := .branchTable index targets default) hmem)
  | leave values =>
    cases htyped with
    | leave hvalues =>
    rw [execute, execute]
    refine (agree_yields ha hvalues hplaced.1).bind fun cells => Agree.of_fact fun hcells => ?_
    exact Agree.pure fun v hv => ⟨hcells, hv⟩
  | unreachable =>
    rw [execute, execute]
    exact Agree.throw fun v hv => ⟨ha.traps _, hv.store⟩
  | localSet index value =>
    cases htyped with
    | localSet hfound hvalue =>
    rw [execute, execute]
    refine AgreeIn.of_next trivial rfl
      ((agree_evaluate ha hvalue hplaced.1).bind fun c => Agree.of_fact fun hc => ?_)
    refine (agree_setLocal hfound (hvalue.fits_of_result hc)).bind fun _ => ?_
    exact Agree.pure fun v hv => ⟨rfl, hv⟩
  | globalSet index value =>
    cases htyped with
    | globalSet hfound _ hvalue htype =>
    rw [execute, execute, ha.place]
    exact AgreeIn.of_next trivial rfl ((agree_evaluate ha hvalue hplaced.1).bind fun c =>
      Agree.of_fact fun hc => agree_setGlobal ha hfound (hvalue.fits_as htype hc))
  | define ids value =>
    cases htyped with
    | define hvalue htemps =>
    rw [execute, execute]
    refine (agree_evaluateOperand ha hvalue hplaced.1).bind fun cells =>
      Agree.of_fact fun hcells => ?_
    refine (agree_setTemps htemps hcells).bind fun _ => ?_
    exact Agree.pure fun v hv => ⟨⟨trivial, trivial⟩, hv⟩
  | assign ids values =>
    cases htyped with
    | assign hvalues htemps =>
    rw [execute, execute]
    refine AgreeIn.of_next trivial rfl ((agree_yields ha hvalues hplaced.1).bind fun cells =>
      Agree.of_fact fun hcells => ?_)
    refine (agree_setTemps htemps hcells).bind fun _ => ?_
    exact Agree.pure fun v hv => ⟨rfl, hv.mono (List.subset_append_left _ _)⟩
  | store access address value =>
    cases htyped with
    | store hmemory hstores haddress hvalue htype =>
    exact AgreeIn.of_next trivial rfl (agree_store ha hmemory haddress hvalue htype hplaced.1)
  | memoryCopy destination source length =>
    cases htyped with
    | memoryCopy hmemory hoperands =>
    obtain ⟨hd, hs, hn⟩ := hoperands.three
    obtain ⟨hud, hus, hun⟩ := three_uses hplaced.1
    rw [execute, execute, ha.place]
    refine AgreeIn.of_next trivial rfl
      (agree_i32 ha (fun c => agree_toAddress) hd.1 hd.2 hud fun d => ?_)
    refine agree_i32 ha (fun c => agree_toAddress) hs.1 hs.2 hus fun s => ?_
    refine agree_i32 ha (fun c => agree_toAddress) hn.1 hn.2 hun fun n => ?_
    exact agree_onMemory ha hmemory (.fits fun _ => LinearMemory.keeps_copy _ _ _)
  | memoryFill destination value length =>
    cases htyped with
    | memoryFill hmemory hoperands =>
    obtain ⟨hd, hv, hn⟩ := hoperands.three
    obtain ⟨hud, huv, hun⟩ := three_uses hplaced.1
    rw [execute, execute, ha.place]
    refine AgreeIn.of_next trivial rfl
      (agree_i32 ha (fun c => agree_toAddress) hd.1 hd.2 hud fun d => ?_)
    refine agree_i32 ha (fun c => agree_toI32) hv.1 hv.2 huv fun v => ?_
    refine agree_i32 ha (fun c => agree_toAddress) hn.1 hn.2 hun fun n => ?_
    exact agree_onMemory ha hmemory (.fits fun _ => LinearMemory.keeps_fill _ _ _)
  | evaluate value =>
    cases htyped with
    | evaluate hvalue =>
    rw [execute, execute]
    refine AgreeIn.of_next trivial rfl
      ((agree_evaluateOperand ha hvalue hplaced.1).bind fun cells => ?_)
    exact Agree.pure fun v hv => ⟨rfl, hv.2⟩

/-- Typed statements one after another end as they should. -/
theorem agree_executeAll (ha : SurroundingsAgree Γ count F around around') {ss : List Statement}
    {p : Place} (htyped : ∀ s ∈ ss, s.Typed Γ) (hplaced : PlacedAll p ss)
    (hfresh : Fresh p.known ss) :
    AgreeIn Γ count p F ss (bound ss) (executeAll around ss) (executeAll around' ss) := by
  cases ss with
  | nil =>
    rw [executeAll, executeAll]
    exact Agree.pure fun v hv => ⟨trivial, (List.append_nil _).symm ▸ hv⟩
  | cons s ss =>
    obtain ⟨hs, hss⟩ := List.forall_mem_cons.mp htyped
    rw [executeAll, executeAll]
    refine Agree.bind (agree_execute ha hs hplaced.1 hfresh.head) fun ending => ?_
    cases ending with
    | next =>
      refine Agree.of_fact fun hpasses => ?_
      refine Agree.post (agree_executeAll ha hss hplaced.2 hfresh.next) fun ending v hv => ?_
      -- What the first statement binds is of no use to one that the branch goes to.
      have hmono {v : Variables σ} (h : v.Fits Γ count (p.known ++ s.binds)) :
          v.Fits Γ count p.known :=
        h.mono (List.subset_append_left _ _)
      cases ending with
      | next =>
        refine ⟨⟨hpasses.1, hv.1⟩, ?_⟩
        rw [← List.singleton_append, bound_append, bound_singleton, ← List.append_assoc]
        exact hv.2
      | exit l | restart l =>
        refine ⟨⟨hv.1.1, ?_⟩, hmono hv.2⟩
        rw [← List.singleton_append]
        exact names_append.mpr (.inr hv.1.2)
      | leave cells => exact ⟨hv.1, hmono hv.2⟩
    | exit l | restart l =>
      refine Agree.pure fun v hv => ⟨⟨hv.1.1, ?_⟩, hv.2⟩
      rw [← List.singleton_append]
      exact names_append.mpr (.inl hv.1.2)
    | leave cells => exact Agree.pure fun v hv => hv
end

end Run

/-! ### Functions -/

/-- A function whose parts fit together, which names what is there, and which has no results or does
not fall off its end. -/
structure Function.Proper (m : Module) (f : Function) : Prop where
  typed : f.Typed m
  names : f.Scoped
  ends : f.results = [] ∨ ¬ PassesAll f.body

theorem Function.proper_of_build {m : Module} {index : Nat} {f : Function}
    (h : buildFunction m index = .ok f) : f.Proper m :=
  ⟨Function.typed_of_build h, Function.scoped_of_build h, Function.ends_of_build h⟩

namespace Function.Proper

variable {m : Module} {f : Function} {args : List Cell} {store : Store σ}

theorem temp_id (h : f.Proper m) {i : Nat} {t : Temp} (ht : f.temps[i]? = some t) : t.id = i := by
  have hmap : (f.temps.map Temp.id)[i]? = some t.id := by
    rw [List.getElem?_map, ht, Option.map_some]
  rw [h.typed.temps] at hmap
  exact (List.getElem?_eq_some_iff.mp hmap).2.symm.trans (List.getElem_range _)

/-- The variables that a function starts with fit, and its slots hold something. -/
theorem fits_start (h : f.Proper m) (hargs : FitAll args f.params) (hstore : store.Fits m count) :
    (⟨(args ++ f.locals.map Cell.zero).toArray, (f.temps.map Temp.initial).toArray, store⟩ :
      Variables σ).Fits (f.scope m) count (Temp.ids .slot f.temps) := by
  have hzeros : FitAll (f.locals.map Cell.zero) f.locals := by
    rw [FitAll, List.forall₂_map_left_iff]
    exact List.forall₂_same.mpr fun type _ => Cell.fits_zero type
  refine ⟨fitEach_toArray (List.rel_append hargs hzeros), ?_, fun i t ht c hc => ?_, fun i hi =>
    ?_, hstore⟩
  · simp [Function.scope]
  · have ht : f.temps[i]? = some t := by simpa [Function.scope] using ht
    rw [List.getElem?_toArray, List.getElem?_map, ht, Option.map_some, Option.join_some] at hc
    unfold Temp.initial at hc
    split at hc
    · cases hc
    · cases hc
      exact Cell.fits_zero t.type
  · obtain ⟨t, ht, rfl⟩ := List.mem_map.mp hi
    obtain ⟨hmem, hkind⟩ := List.mem_filter.mp ht
    obtain ⟨j, hj⟩ := List.mem_iff_getElem?.mp hmem
    rw [h.temp_id hj, List.getElem?_toArray, List.getElem?_map, hj, Option.map_some,
      Option.join_some, Temp.initial, of_decide_eq_true hkind]
    rfl

theorem fresh (h : f.Proper m) : Fresh (Temp.ids .slot f.temps) f.body where
  unknown id hid hslot := h.names.slots id hslot hid
  nodup := List.nodup_iff_count_le_one.mpr fun id => by
    rw [h.names.binds id]
    split <;> omega

/-- A proper function gives its results, or fails as a call may. -/
theorem agree_run (h : f.Proper m) (ha : SurroundingsAgree (f.scope m) count F around around')
    (hargs : FitAll args f.params) :
    Agree (Store.Fits m count) (f.run around args) (f.run around' args)
      (fun cells s => FitAll cells f.results ∧ s.Fits m count)
      (fun e s => F e ∧ s.Fits m count) := by
  intro store hstore
  obtain ⟨hsame, hmeets⟩ := Run.agree_executeAll ha h.typed.body h.names.placed h.fresh _
    (h.fits_start hargs hstore)
  unfold Function.run
  dsimp only
  rw [hsame]
  refine ⟨rfl, ?_⟩
  cases hrun : Run.executeAll around' f.body
      ⟨(args ++ f.locals.map Cell.zero).toArray, (f.temps.map Temp.initial).toArray, store⟩ with
  | error e v =>
    rw [hrun] at hmeets
    exact hmeets
  | ok ending v =>
    rw [hrun] at hmeets
    cases ending with
    | next =>
      -- The end of the body is reached only in a function without results.
      have hnone : f.results = [] := h.ends.resolve_right (not_not_intro hmeets.1)
      have hstore := hmeets.2.store
      simp only [Function.results?, hnone, if_true]
      exact ⟨.nil, hstore⟩
    -- No label is open around the body, so no branch leaves it.
    | exit label => exact absurd hmeets.1.1 List.not_mem_nil
    | restart label => exact absurd hmeets.1.1 List.not_mem_nil
    | leave cells => exact ⟨hmeets.1, hmeets.2.store⟩

end Function.Proper

end WasmScript.IR
