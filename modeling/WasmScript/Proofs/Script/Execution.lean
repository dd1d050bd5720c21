/-
  WasmScript/Proofs/Script/Execution.lean
  =======================================
  **Running the script of a body** — that it does what the body does.

  The two sides do not hold the same.  What a block binds is forgotten at its end, but a block
  that no branch targets is not written, so in the script its constants stay in scope.  The
  variables of both sides are therefore compared where something is known, and nowhere else:
  `Matches` is what all statements keep, with one lemma for each kind of statement, and
  `related_ofStatements` takes them together along a body.

  A loop without a mark runs once, as nothing restarts it.  A script can also leave a loop by
  its label, which no jump does, as no block around a loop has the same label.
-/
import WasmScript.Proofs.Run.Execution
import WasmScript.Proofs.Script.Statements

namespace WasmScript.Script

open IR (Belongs Branch Ending Expression Fresh Place Run Surroundings Uniform Variables bound)
open IR.Expression (usesAll)
open IR.Run (DependsOn Unwatched dependsOn_evaluate dependsOn_evaluateAll)
open IR.Statement (AllSmall Names PlacedAll allSmall_iff bindsIn bindsIn_append labelsIn
  labelsIn_append tablesAll tablesAll_singleton)
open Statement (bindsAll declaresAll executeAll executeAll_append executeAll_singleton)

variable {σ α β : Type} {Γ : IR.Scope} {count : Nat} {known ids : List Nat} {F : Failure → Prop}
variable {around : Surroundings σ} {v w : Variables σ}

/-! ### Variables that hold the same -/

/-- Variables with the same locals and the same store, which hold the same in some temporaries. -/
structure SameOn (known : List Nat) (v w : Variables σ) : Prop where
  locals : w.locals = v.locals
  store : w.store = v.store
  size : w.temps.size = v.temps.size
  temps : ∀ id ∈ known, w.temps[id]? = v.temps[id]?

namespace SameOn

theorem mono (h : SameOn known v w) (hsub : ids ⊆ known) : SameOn ids v w :=
  { h with temps := fun id hid => h.temps id (hsub hid) }

theorem eq_with (h : SameOn known v w) : w = { v with temps := w.temps } := by
  obtain ⟨locals, temps, store⟩ := w
  obtain ⟨rfl, rfl, -, -⟩ := h
  rfl

end SameOn

/-- Outcomes with the same value and related variables, or with the same failure and store. -/
inductive Related (R : α → Variables σ → Variables σ → Prop) :
    EStateM.Result Failure (Variables σ) α → EStateM.Result Failure (Variables σ) α → Prop
  | ok {a : α} {v w : Variables σ} (holds : R a v w) : Related R (.ok a v) (.ok a w)
  | error {e : Failure} {v w : Variables σ} (store : w.store = v.store) :
      Related R (.error e v) (.error e w)

namespace Related

variable {R R' : α → Variables σ → Variables σ → Prop} {S : β → Variables σ → Variables σ → Prop}
variable {x y : Run σ α} {k k' : α → Run σ β}

theorem mono {r r' : EStateM.Result Failure (Variables σ) α} (h : Related R r r')
    (himp : ∀ a v w, R a v w → R' a v w) : Related R' r r' := by
  cases h with
  | ok hR => exact .ok (himp _ _ _ hR)
  | error store => exact .error store

theorem bind (h : Related R (x v) (y w))
    (hk : ∀ a v w, R a v w → Related S (k a v) (k' a w)) :
    Related S ((x >>= k) v) ((y >>= k') w) := by
  generalize hx : x v = r at h
  generalize hy : y w = r' at h
  cases h with
  | ok hR =>
    rw [bind_at_ok hx, bind_at_ok hy]
    exact hk _ _ _ hR
  | error store =>
    rw [bind_at_error hx, bind_at_error hy]
    exact .error store

/-- As `bind`, where only the second run goes on. -/
theorem bind_right {k' : α → Run σ α} (h : Related R (x v) (y w))
    (hk : ∀ a v w, R a v w → Related R' (.ok a v) (k' a w)) :
    Related R' (x v) ((y >>= k') w) := by
  rw [← bind_pure x]
  exact h.bind hk

/-- As `bind`, where only the first run goes on. -/
theorem bind_left {k : α → Run σ α} (h : Related R (x v) (y w))
    (hk : ∀ a v w, R a v w → Related R' (k a v) (.ok a w)) :
    Related R' ((x >>= k) v) (y w) := by
  rw [← bind_pure y]
  exact h.bind hk

/-- A run that depends on certain temporaries alone does the same where they hold the same. -/
theorem of_dependsOn (hreads : DependsOn known x) (h : SameOn known v w) :
    Related (fun _ => SameOn known) (x v) (x w) := by
  have hw := hreads v w.temps h.temps
  rw [← h.eq_with] at hw
  rw [hw]
  cases hv : x v with
  | ok a v' =>
    have htemps := hreads.temps_eq hv
    refine .ok ⟨rfl, rfl, ?_, fun id hid => ?_⟩
    · rw [htemps]
      exact h.size
    · rw [htemps]
      exact h.temps id hid
  | error e v' => exact .error rfl

end Related

theorem related_setTemp (h : SameOn known v w) (id : Nat) (c : Cell) :
    Related (fun _ => SameOn (id :: known)) (IR.Run.setTemp id c v) (IR.Run.setTemp id c w) := by
  unfold IR.Run.setTemp
  dsimp only
  rw [h.size]
  split
  · next hlt =>
    refine .ok ⟨h.locals, h.store, by simp [h.size], fun i hi => ?_⟩
    have hlt' : id < w.temps.size := h.size ▸ hlt
    by_cases heq : id = i
    · subst heq
      rw [Array.getElem?_setIfInBounds_self_of_lt hlt, Array.getElem?_setIfInBounds_self_of_lt hlt']
    · rw [Array.getElem?_setIfInBounds_ne heq, Array.getElem?_setIfInBounds_ne heq]
      exact h.temps i ((List.mem_cons.mp hi).resolve_left (Ne.symm heq))
  · exact .error h.store

theorem related_setTemps (ids : List Nat) (cells : List Cell) :
    ∀ {known : List Nat} {v w : Variables σ}, SameOn known v w →
      Related (fun _ => SameOn (known ++ ids)) (IR.Run.setTemps ids cells v)
        (IR.Run.setTemps ids cells w) := by
  induction ids generalizing cells with
  | nil =>
    intro known v w h
    cases cells with
    | nil => exact .ok (h.mono (by simp))
    | cons c cells => exact .error h.store
  | cons id ids ih =>
    intro known v w h
    cases cells with
    | nil => exact .error h.store
    | cons c cells =>
      rw [IR.Run.setTemps]
      refine (related_setTemp h id c).bind fun _ v w h => ?_
      exact (ih cells h).mono fun _ v w h => h.mono (by simp)

/-! ### Statements without others inside -/

section

variable (hwatch : ∀ e c v, around.watch e c v = true)

include hwatch

theorem related_takeBranch {b : Branch} (huses : usesAll b.values ⊆ known) (h : SameOn known v w) :
    Related (fun _ => SameOn known) (IR.Run.takeBranch around b v)
      (IR.Run.takeBranch around b w) := by
  unfold IR.Run.takeBranch
  refine (Related.of_dependsOn ((dependsOn_evaluateAll hwatch b.values).mono huses) h).bind ?_
  intro cells v w h
  cases b.mode with
  | leave => exact .ok h
  | exit | restart =>
    refine (related_setTemps b.slots cells h).bind fun _ v w h => .ok (h.mono ?_)
    exact List.subset_append_left _ _

/-- A statement does the same where the temporaries that it uses hold the same. -/
theorem related_execute {st : IR.Statement} (hlabel : st.label? = none) (huses : st.uses ⊆ known)
    (h : SameOn known v w) :
    Related (fun _ => SameOn (known ++ st.binds)) (IR.Run.execute around st v)
      (IR.Run.execute around st w) := by
  have heval (e : Expression) (he : e.uses ⊆ known) : DependsOn known (IR.Run.evaluate around e) :=
    (dependsOn_evaluate hwatch e).mono he
  have hall (es : List Expression) (hes : usesAll es ⊆ known) :
      DependsOn known (IR.Run.evaluateAll around es) :=
    (dependsOn_evaluateAll hwatch es).mono hes
  have hoperand (operand : IR.Operand) (huses : operand.uses ⊆ known) :
      DependsOn known (IR.Run.evaluateOperand around operand) := by
    cases operand with
    | single e => exact (heval e huses).bind fun _ => .pure _
    | multi function args types => exact (hall args huses).bind fun _ => .act _
  -- Only a definition binds anything; all others keep what was known.
  have hsame (hbinds : st.binds = [])
      (hrun : Related (fun _ => SameOn known) (IR.Run.execute around st v)
        (IR.Run.execute around st w)) :
      Related (fun _ => SameOn (known ++ st.binds)) (IR.Run.execute around st v)
        (IR.Run.execute around st w) := by
    rw [hbinds, List.append_nil]
    exact hrun
  cases st with
  | block | loop | conditional => cases hlabel
  | branch b =>
    refine hsame rfl ?_
    rw [IR.Run.execute]
    exact related_takeBranch hwatch huses h
  | branchIf c b =>
    obtain ⟨hc, hb⟩ := List.append_subset.mp huses
    refine hsame rfl ?_
    rw [IR.Run.execute]
    refine (Related.of_dependsOn (heval c hc) h).bind fun d v w h => ?_
    refine (Related.of_dependsOn (.toI32 d) h).bind fun n v w h => ?_
    split
    · exact related_takeBranch hwatch hb h
    · exact .ok h
  | branchTable index targets default =>
    obtain ⟨hi, hbs⟩ := List.append_subset.mp huses
    refine hsame rfl ?_
    rw [IR.Run.execute]
    refine (Related.of_dependsOn (heval index hi) h).bind fun d v w h => ?_
    refine (Related.of_dependsOn (.toAddress d) h).bind fun n v w h =>
      related_takeBranch hwatch ?_ h
    -- The branch that is taken is one of those listed, whatever the index is.
    have hmem : targets[n]?.getD default ∈ targets ++ [default] := by
      cases hn : targets[n]? with
      | none => exact List.mem_append_right _ List.mem_cons_self
      | some b => exact List.mem_append_left _ (List.mem_of_getElem? hn)
    exact fun id hid => hbs (List.mem_flatMap.mpr ⟨_, hmem, hid⟩)
  | leave values =>
    refine hsame rfl (.of_dependsOn ?_ h)
    rw [IR.Run.execute]
    exact (hall values huses).bind fun _ => .pure _
  | unreachable =>
    refine hsame rfl (.of_dependsOn ?_ h)
    rw [IR.Run.execute]
    exact .throw _
  | localSet index value =>
    refine hsame rfl (.of_dependsOn ?_ h)
    rw [IR.Run.execute]
    exact (heval value huses).bind fun _ => (DependsOn.setLocal _ _).bind fun _ => .pure _
  | globalSet index value =>
    refine hsame rfl (.of_dependsOn ?_ h)
    rw [IR.Run.execute]
    exact (heval value huses).bind fun _ => (DependsOn.act _).bind fun _ => .pure _
  | define ids value =>
    rw [IR.Run.execute, IR.Statement.binds]
    refine (Related.of_dependsOn (hoperand value huses) h).bind fun cells v w h => ?_
    exact (related_setTemps ids cells h).bind fun _ v w h => .ok h
  | assign ids values =>
    refine hsame rfl ?_
    rw [IR.Run.execute]
    refine (Related.of_dependsOn (hall values huses) h).bind fun cells v w h => ?_
    refine (related_setTemps ids cells h).bind fun _ v w h => .ok (h.mono ?_)
    exact List.subset_append_left _ _
  | store access address value =>
    obtain ⟨ha, hv⟩ := List.append_subset.mp huses
    refine hsame rfl (.of_dependsOn ?_ h)
    rw [IR.Run.execute]
    refine (heval address ha).bind fun _ => (DependsOn.toAddress _).bind fun _ => ?_
    refine (heval value hv).bind fun _ => (DependsOn.result _).bind fun _ => ?_
    exact (DependsOn.act _).bind fun _ => .pure _
  | memoryCopy destination source length =>
    obtain ⟨hd, hs, hn⟩ := IR.Run.three_uses huses
    refine hsame rfl (.of_dependsOn ?_ h)
    rw [IR.Run.execute]
    refine (heval destination hd).bind fun _ => (DependsOn.toAddress _).bind fun _ => ?_
    refine (heval source hs).bind fun _ => (DependsOn.toAddress _).bind fun _ => ?_
    refine (heval length hn).bind fun _ => (DependsOn.toAddress _).bind fun _ => ?_
    exact (DependsOn.act _).bind fun _ => .pure _
  | memoryFill destination value length =>
    obtain ⟨hd, hv, hn⟩ := IR.Run.three_uses huses
    refine hsame rfl (.of_dependsOn ?_ h)
    rw [IR.Run.execute]
    refine (heval destination hd).bind fun _ => (DependsOn.toAddress _).bind fun _ => ?_
    refine (heval value hv).bind fun _ => (DependsOn.toI32 _).bind fun _ => ?_
    refine (heval length hn).bind fun _ => (DependsOn.toAddress _).bind fun _ => ?_
    exact (DependsOn.act _).bind fun _ => .pure _
  | evaluate value =>
    refine hsame rfl (.of_dependsOn ?_ h)
    rw [IR.Run.execute]
    exact (hoperand value huses).bind fun _ => .pure _

end

/-! ### What scripts declare -/

namespace Statement

theorem declaresAll_append (ts us : List Statement) :
    declaresAll (ts ++ us) = declaresAll ts ++ declaresAll us := by
  induction ts with
  | nil => rfl
  | cons t ts ih => rw [List.cons_append, declaresAll, declaresAll, ih, List.append_assoc]

theorem declaresAll_singleton (t : Statement) : declaresAll [t] = t.declares := List.append_nil _

theorem bindsAll_subset (ts : List Statement) : bindsAll ts ⊆ declaresAll ts := by
  induction ts with
  | nil => exact List.Subset.refl _
  | cons t ts ih =>
    have hhead : t.binds ⊆ t.declares := by
      cases t with
      | define ids value => exact List.Subset.refl _
      | _ => exact List.nil_subset _
    exact append_subset_append hhead ih

end Statement

open Statement (bindsAll_subset declaresAll_append declaresAll_singleton declaresGroups)

theorem declaresAll_ofBranch {b : Branch} {ts : List Statement} (hts : ofBranch b = .ok ts) :
    declaresAll ts = [] := by
  obtain ⟨values, -, hts⟩ := ok_of_bind hts
  cases hts
  split <;> rfl

theorem declares_ofBranchIf {c : Expression} {b : Branch} {t : Statement}
    (ht : ofBranchIf c b = .ok t) : t.declares = [] := by
  obtain ⟨condition, -, ht⟩ := ok_of_bind ht
  split at ht
  · obtain ⟨values, -, ht⟩ := ok_of_bind ht
    cases ht
    rfl
  · obtain ⟨body, hbody, ht⟩ := ok_of_bind ht
    cases ht
    rw [Statement.declares, declaresAll_ofBranch hbody]
    rfl

theorem declaresGroups_ofGroups {targets : List Branch} {depths : List Nat}
    {groups : List (List Nat × List Statement)} (h : ofGroups targets depths = .ok groups) :
    declaresGroups groups = [] := by
  induction depths generalizing groups with
  | nil =>
    cases h
    rfl
  | cons depth rest ih =>
    rw [ofGroups] at h
    split at h
    · obtain ⟨body, hbody, h⟩ := ok_of_bind h
      obtain ⟨others, hothers, h⟩ := ok_of_bind h
      cases h
      rw [declaresGroups, declaresAll_ofBranch hbody, ih hothers]
      rfl
    · exact ih h

theorem declares_ofBranchTable {e : Expression} {targets : List Branch} {default : Branch}
    {t : Statement} (ht : ofBranchTable e targets default = .ok t) : t.declares = [] := by
  obtain ⟨index, -, ht⟩ := ok_of_bind ht
  obtain ⟨groups, hgroups, ht⟩ := ok_of_bind ht
  obtain ⟨last, hlast, ht⟩ := ok_of_bind ht
  cases ht
  rw [Statement.declares, declaresGroups_ofGroups hgroups, declaresAll_ofBranch hlast]
  rfl

mutual
/-- The script of a statement declares what the statement binds, at whatever depth. -/
theorem declares_ofStatement {s : IR.Statement} {ts : List Statement}
    (hts : ofStatement s = .ok ts) : declaresAll ts = bindsIn [s] := by
  cases s with
  | block label targeted body =>
    obtain ⟨us, hus, hts⟩ := ok_of_bind hts
    cases hts
    rw [IR.Statement.bindsIn_block, ← declares_ofStatements hus]
    split
    · exact declaresAll_singleton _
    · rfl
  | loop label targeted body =>
    obtain ⟨us, hus, hts⟩ := ok_of_bind hts
    cases hts
    rw [IR.Statement.bindsIn_loop, ← declares_ofStatements hus]
    split
    · exact declaresAll_singleton _
    · rfl
  | conditional label targeted c yes no =>
    obtain ⟨t, -, hts⟩ := ok_of_bind hts
    obtain ⟨us, hus, hts⟩ := ok_of_bind hts
    obtain ⟨others, hothers, hts⟩ := ok_of_bind hts
    cases hts
    rw [IR.Statement.bindsIn_conditional, bindsIn_append, ← declares_ofStatements hus,
      ← declares_ofStatements hothers, declaresAll_singleton, Statement.declares]
    congr 1
    -- Without statements in the second arm there is no `else`, and nothing to declare.
    cases no with
    | nil =>
      cases hothers
      rfl
    | cons s ss => rfl
  | branch b => exact declaresAll_ofBranch hts
  | branchIf c b =>
    obtain ⟨t, ht, hts⟩ := ok_of_bind hts
    cases hts
    rw [declaresAll_singleton, declares_ofBranchIf ht]
    rfl
  | branchTable e targets default =>
    obtain ⟨t, ht, hts⟩ := ok_of_bind hts
    cases hts
    rw [declaresAll_singleton, declares_ofBranchTable ht]
    rfl
  | unreachable =>
    cases hts
    rfl
  | define ids value =>
    obtain ⟨t, -, hts⟩ := ok_of_bind hts
    cases hts
    rw [declaresAll_singleton]
    simp [Statement.declares, bindsIn, IR.Statement.withinAll, IR.Statement.within,
      IR.Statement.binds]
  | leave | localSet | globalSet | assign | evaluate =>
    obtain ⟨t, -, hts⟩ := ok_of_bind hts
    cases hts
    rfl
  | store =>
    obtain ⟨t, -, hts⟩ := ok_of_bind hts
    obtain ⟨u, -, hts⟩ := ok_of_bind hts
    cases hts
    rfl
  | memoryCopy | memoryFill =>
    obtain ⟨t, -, hts⟩ := ok_of_bind hts
    obtain ⟨u, -, hts⟩ := ok_of_bind hts
    obtain ⟨v, -, hts⟩ := ok_of_bind hts
    cases hts
    rfl

theorem declares_ofStatements {ss : List IR.Statement} {ts : List Statement}
    (hts : ofStatements ss = .ok ts) : declaresAll ts = bindsIn ss := by
  cases ss with
  | nil =>
    cases hts
    rfl
  | cons s ss =>
    obtain ⟨us, hus, hts⟩ := ok_of_bind hts
    obtain ⟨vs, hvs, hts⟩ := ok_of_bind hts
    cases hts
    rw [declaresAll_append, declares_ofStatement hus, declares_ofStatements hvs,
      ← bindsIn_append, List.singleton_append]
end

/-! ### Variables of a script and of a body -/

/-- Variables of a script and of a body that both fit and hold the same where something is known.
The script may hold more, as what an unmarked block binds stays in scope after it. -/
structure Matches (Γ : IR.Scope) (count : Nat) (known : List Nat) (v w : Variables σ) : Prop where
  script : v.Fits Γ count known
  body : w.Fits Γ count known
  same : SameOn known v w

/-- How the variables match after statements that bind `ids` have ended in some way. -/
def After (Γ : IR.Scope) (count : Nat) (known ids : List Nat) :
    Ending → Variables σ → Variables σ → Prop
  | .next => Matches Γ count (known ++ ids)
  | _ => Matches Γ count known

namespace Matches

theorem mono (h : Matches Γ count known v w) (hsub : ids ⊆ known) : Matches Γ count ids v w :=
  ⟨h.script.mono hsub, h.body.mono hsub, h.same.mono hsub⟩

theorem after_nil (h : Matches Γ count known v w) (ending : Ending) :
    After Γ count known [] ending v w := by
  cases ending with
  | next =>
    rw [After, List.append_nil]
    exact h
  | _ => exact h

end Matches

theorem After.matches {ending : Ending} (h : After Γ count known ids ending v w) :
    Matches Γ count known v w := by
  cases ending with
  | next => exact Matches.mono h (List.subset_append_left _ _)
  | _ => exact h

/-- What is not known may be forgotten on both sides. -/
theorem SameOn.cleared (h : SameOn known v w) {ids ids' : List Nat} (hids : ∀ id ∈ ids, id ∉ known)
    (hids' : ∀ id ∈ ids', id ∉ known) :
    SameOn known
      { v with temps := ids.foldl (fun temps id => temps.setIfInBounds id none) v.temps }
      { w with temps := ids'.foldl (fun temps id => temps.setIfInBounds id none) w.temps } where
  locals := h.locals
  store := h.store
  size := by rw [IR.Run.size_cleared, IR.Run.size_cleared, h.size]
  temps id hid := by
    rw [IR.Run.getElem?_cleared_of_not_mem fun hmem => hids id hmem hid,
      IR.Run.getElem?_cleared_of_not_mem fun hmem => hids' id hmem hid]
    exact h.temps id hid

theorem Matches.cleared (h : Matches Γ count known v w) {ids ids' : List Nat}
    (hids : ∀ id ∈ ids, id ∉ known) (hids' : ∀ id ∈ ids', id ∉ known) :
    Matches Γ count known
      { v with temps := ids.foldl (fun temps id => temps.setIfInBounds id none) v.temps }
      { w with temps := ids'.foldl (fun temps id => temps.setIfInBounds id none) w.temps } :=
  ⟨IR.Run.fits_cleared h.script hids, IR.Run.fits_cleared h.body hids', h.same.cleared hids hids'⟩

/-! ### Statements in their place -/

/-- Statements in their place, with labels of their own and with tables and offsets that a script
can take. -/
structure Ready (Γ : IR.Scope) (p : Place) (ss : List IR.Statement) : Prop
    extends Belongs Γ p ss where
  small : AllSmall ss
  tables : ∀ branches ∈ tablesAll ss, Uniform branches
  labels : (labelsIn ss).Nodup
  apart : ∀ label ∈ p.exits, label ∉ labelsIn ss

namespace Ready

variable {p : Place} {s : IR.Statement} {ss ts : List IR.Statement} {label : Int} {targeted : Bool}

theorem labelsIn_cons (s : IR.Statement) (ss : List IR.Statement) :
    labelsIn (s :: ss) = labelsIn [s] ++ labelsIn ss := by
  rw [← labelsIn_append, List.singleton_append]

theorem head (h : Ready Γ p (s :: ss)) : Ready Γ p [s] where
  toBelongs := h.toBelongs.head
  small := ⟨h.small.1, trivial⟩
  tables branches hmem := by
    rw [tablesAll_singleton] at hmem
    exact h.tables branches (List.mem_append_left _ hmem)
  labels := (List.nodup_append.mp (labelsIn_cons s ss ▸ h.labels)).1
  apart l hl hmem := h.apart l hl (labelsIn_cons s ss ▸ List.mem_append_left _ hmem)

theorem tail (h : Ready Γ p (s :: ss)) : Ready Γ (p.learn s.binds) ss where
  toBelongs := h.toBelongs.tail
  small := h.small.2
  tables branches hmem := h.tables branches (List.mem_append_right _ hmem)
  labels := (List.nodup_append.mp (labelsIn_cons s ss ▸ h.labels)).2.1
  apart l hl hmem := h.apart l hl (labelsIn_cons s ss ▸ List.mem_append_right _ hmem)

theorem labelsIn_of_label? (hlabel : s.label? = some label)
    (hwithin : s.within = s :: IR.Statement.withinAll ss) :
    labelsIn [s] = label :: labelsIn ss := by
  simp [labelsIn, IR.Statement.withinAll, hwithin, hlabel]

theorem block (h : Ready Γ p [.block label targeted ss]) : Ready Γ (p.inBlock label) ss := by
  have hlabels : labelsIn [.block label targeted ss] = label :: labelsIn ss :=
    labelsIn_of_label? rfl rfl
  obtain ⟨hnot, hnodup⟩ := List.nodup_cons.mp (hlabels ▸ h.labels)
  refine ⟨h.toBelongs.block, h.small.1, ?_, hnodup, List.forall_mem_cons.mpr ⟨hnot, ?_⟩⟩
  · exact fun branches hmem => h.tables branches (List.mem_append_left _ hmem)
  · exact fun l hl hmem => h.apart l hl (hlabels ▸ List.mem_cons_of_mem _ hmem)

theorem loop (h : Ready Γ p [.loop label targeted ss]) :
    Ready Γ (p.inLoop label) ss ∧ label ∉ p.exits := by
  have hlabels : labelsIn [.loop label targeted ss] = label :: labelsIn ss :=
    labelsIn_of_label? rfl rfl
  obtain ⟨-, hnodup⟩ := List.nodup_cons.mp (hlabels ▸ h.labels)
  refine ⟨⟨h.toBelongs.loop, h.small.1, ?_, hnodup, ?_⟩, ?_⟩
  · exact fun branches hmem => h.tables branches (List.mem_append_left _ hmem)
  · exact fun l hl hmem => h.apart l hl (hlabels ▸ List.mem_cons_of_mem _ hmem)
  · exact fun hmem => h.apart label hmem (hlabels ▸ List.mem_cons_self)

theorem conditional {c : Expression} (h : Ready Γ p [.conditional label targeted c ss ts]) :
    Ready Γ (p.inBlock label) ss ∧ Ready Γ (p.inBlock label) ts := by
  have hlabels : labelsIn [.conditional label targeted c ss ts]
      = label :: (labelsIn ss ++ labelsIn ts) := by
    rw [← labelsIn_append]
    refine labelsIn_of_label? rfl ?_
    rw [IR.Statement.withinAll_append]
    rfl
  obtain ⟨hnot, hnodup⟩ := List.nodup_cons.mp (hlabels ▸ h.labels)
  obtain ⟨hyes, hno, -⟩ := List.nodup_append.mp hnodup
  obtain ⟨hbelongs, hbelongs'⟩ := h.toBelongs.conditional
  have hapart (l : Int) (hl : l ∈ (p.inBlock label).exits) : l ∉ labelsIn ss ++ labelsIn ts := by
    rcases List.mem_cons.mp hl with rfl | hl
    · exact hnot
    · exact fun hmem => h.apart l hl (hlabels ▸ List.mem_cons_of_mem _ hmem)
  have htables (branches : List Branch) (hmem : branches ∈ tablesAll ss ++ tablesAll ts) :
      Uniform branches :=
    h.tables branches (List.mem_append_left _ hmem)
  refine ⟨⟨hbelongs, h.small.1.2.1, ?_, hyes, ?_⟩, hbelongs', h.small.1.2.2, ?_, hno, ?_⟩
  · exact fun branches hmem => htables branches (List.mem_append_left _ hmem)
  · exact fun l hl hmem => hapart l hl (List.mem_append_left _ hmem)
  · exact fun branches hmem => htables branches (List.mem_append_right _ hmem)
  · exact fun l hl hmem => hapart l hl (List.mem_append_right _ hmem)

end Ready

/-! ### Statements that hold others -/

/-- A jump out of statements names a label, and one to an end names one around them. -/
def Allowed (p : Place) (ss : List IR.Statement) : Ending → Prop
  | .exit label => label ∈ p.exits ∧ Names label ss
  | .restart label => Names label ss
  | _ => True

/-- A block that is not named ends as its body does. -/
theorem endBlock_eq_self {label : Int} {ending : Ending} (h : ending ≠ .exit label) :
    IR.Run.endBlock label ending = ending := by
  cases ending with
  | exit l => exact if_neg fun heq => h (congrArg Ending.exit heq)
  | _ => rfl

section

variable {p : Place} {s : IR.Statement} {ss yes no : List IR.Statement} {ts us : List Statement}
variable {label : Int}

theorem Allowed.ne_exit {ending : Ending} (h : Allowed p ss ending)
    (hnot : label ∉ p.exits ∨ ¬ Names label ss) : ending ≠ .exit label := by
  rintro rfl
  exact hnot.elim (fun hlabel => hlabel h.1) fun hnamed => hnamed h.2

/-- The end of a choice is written only where it is marked. -/
theorem elim_endBlock {targeted : Bool} {ending : Ending} (h : Allowed p ss ending)
    (hnames : Names label ss → targeted = true) :
    (if targeted then some label else none).elim ending (fun l => IR.Run.endBlock l ending)
      = IR.Run.endBlock label ending := by
  cases targeted with
  | true => rfl
  | false =>
    exact (endBlock_eq_self (h.ne_exit (.inr fun hnamed => Bool.noConfusion (hnames hnamed)))).symm

/-- A loop runs so often on both sides, if its bodies do the same. -/
theorem related_repeatBody {P : Ending → Prop} {x y : Run σ Ending}
    (h : ∀ v w, Matches Γ count known v w →
      Related (fun ending v w => Matches Γ count known v w ∧ P ending) (x v) (y w)) (turns : Nat)
    (hvw : Matches Γ count known v w) :
    Related (fun ending v w => Matches Γ count known v w ∧ P ending)
      (IR.Run.repeatBody label x turns v) (IR.Run.repeatBody label y turns w) := by
  induction turns generalizing v w with
  | zero => exact .error hvw.same.store
  | succ turns ih =>
    rw [IR.Run.repeatBody, IR.Run.repeatBody]
    refine (h v w hvw).bind fun ending v w hvw => ?_
    cases ending with
    | restart l =>
      dsimp only
      split
      · exact ih hvw.1
      · exact .ok hvw
    | _ => exact .ok hvw

variable (ha : Unwatched Γ count F around)

include ha

/-- A statement that has no other inside. -/
theorem related_plain (h : Ready Γ p [s]) (hlabel : s.label? = none)
    (hts : ofStatement s = .ok ts) (hvw : Matches Γ count p.known v w) :
    Related (After Γ count p.known s.binds) (executeAll around ts v)
      (IR.Run.execute around s w) := by
  have htyped := List.forall_mem_singleton.mp h.typed
  have huses := ((IR.Statement.placed_iff_of_label? hlabel).mp h.placed.1).1
  have htables : ∀ branches ∈ s.tables, Uniform branches := tablesAll_singleton s ▸ h.tables
  rw [executeAll_ofPlain ha htyped hlabel h.small.1 huses htables hts hvw.script]
  have hrel := related_execute ha.silent hlabel huses hvw.same
  -- From either side the statement leaves variables that fit.
  have hv := (IR.Run.agree_execute ha.toSurroundingsAgree htyped h.placed.1 h.fresh v hvw.script).2
  have hw := (IR.Run.agree_execute ha.toSurroundingsAgree htyped h.placed.1 h.fresh w hvw.body).2
  generalize IR.Run.execute around s v = r at hrel hv
  generalize IR.Run.execute around s w = r' at hrel hw
  cases hrel with
  | error store => exact .error store
  | @ok ending v' w' hsame =>
    refine .ok ?_
    cases ending with
    | next => exact ⟨hv.2, hw.2, hsame⟩
    | _ => exact ⟨hv.2, hw.2, hsame.mono (List.subset_append_left _ _)⟩

/-- What a list of statements binds is forgotten at its end, on the side of the script only where it
is a block there. -/
theorem related_inScope (h : Belongs Γ p ss) (hw : w.Fits Γ count p.known)
    (hus : ∀ id ∈ bindsAll us, id ∉ p.known)
    (hrel : Related (After Γ count p.known (bound ss)) (executeAll around ts v)
      (IR.Run.executeAll around ss w)) :
    Related (fun ending v w => Matches Γ count p.known v w ∧ Allowed p ss ending)
      (Statement.inScope us (executeAll around ts) v)
      (IR.Run.inScope ss (IR.Run.executeAll around ss) w) := by
  have hbound : ∀ id ∈ bound ss, id ∉ p.known := fun id hid =>
    h.fresh.unknown id (IR.bound_subset_bindsIn ss hid)
  have hmeets := (IR.Run.agree_executeAll ha.toSurroundingsAgree h.typed h.placed h.fresh w hw).2
  unfold Statement.inScope IR.Run.inScope
  generalize hv' : executeAll around ts v = r at hrel
  generalize hw' : IR.Run.executeAll around ss w = r' at hrel hmeets
  cases hrel with
  | error store =>
    rw [bind_at_error hv', bind_at_error hw']
    exact .error store
  | @ok ending v' w' hafter =>
    rw [bind_at_ok hv', bind_at_ok hw']
    refine .ok ⟨hafter.matches.cleared hus hbound, ?_⟩
    cases ending with
    | exit l => exact hmeets.1
    | restart l => exact hmeets.1.2
    | _ => trivial

theorem related_inScope_body (h : Belongs Γ p ss) (hw : w.Fits Γ count p.known)
    (hrel : Related (After Γ count p.known (bound ss)) (executeAll around ts v)
      (IR.Run.executeAll around ss w)) :
    Related (fun ending v w => Matches Γ count p.known v w ∧ Allowed p ss ending)
      (executeAll around ts v) (IR.Run.inScope ss (IR.Run.executeAll around ss) w) := by
  have hnone : ∀ id ∈ bindsAll [], id ∉ p.known := fun id hid => absurd hid List.not_mem_nil
  have hscope := related_inScope ha h hw hnone hrel
  rwa [inScope_of_binds_nil rfl] at hscope

omit ha in
/-- What a block of the script declares is not known before it. -/
theorem bindsAll_unknown (h : Belongs Γ p ss) (hts : ofStatements ss = .ok ts) :
    ∀ id ∈ bindsAll ts, id ∉ p.known := fun id hid =>
  h.fresh.unknown id (declares_ofStatements hts ▸ bindsAll_subset ts hid)

/-- A condition holds on both sides, or on neither, or it fails on both. -/
theorem condition_cases {c : Expression} {t : Term} (hc : c.Typed Γ .value) (htype : c.type = .i32)
    (hsmall : c.Small) (huses : c.uses ⊆ known) (ht : ofCondition c = .ok t)
    (hvw : Matches Γ count known v w) :
    (∃ e v' w', t.holds around v = .error e v' ∧ IR.Run.evaluate around c w = .error e w' ∧
      w'.store = v'.store) ∨
    ∃ d n v' w', t.holds around v = .ok (decide (n ≠ 0)) v' ∧
      IR.Run.evaluate around c w = .ok d w' ∧ d.toValue = .i32 n ∧
      Matches Γ count known v' w' := by
  have hrel := Related.of_dependsOn ((dependsOn_evaluate ha.silent c).mono huses) hvw.same
  rcases holds_cases ha hc htype hsmall huses ht hvw.script with
    ⟨e, v', hrun, hholds⟩ | ⟨d, n, v', hrun, hn, hholds, hv'⟩
  · rw [hrun] at hrel
    generalize hw : IR.Run.evaluate around c w = r at hrel
    cases hrel with
    | @error e v' w' store => exact .inl ⟨e, v', w', hholds, rfl, store⟩
  · rw [hrun] at hrel
    generalize hw : IR.Run.evaluate around c w = r at hrel
    cases hrel with
    | @ok d v' w' hsame =>
      have hw' := (IR.Run.resultFits_of_ok ha hc huses hvw.body hw).2
      exact .inr ⟨d, n, v', w', hholds, rfl, hn, hv', hw', hsame⟩

theorem related_block {targeted : Bool} (h : Ready Γ p [.block label targeted ss])
    (hts : ofStatements ss = .ok ts) (hvw : Matches Γ count p.known v w)
    (hrel : Related (After Γ count p.known (bound ss)) (executeAll around ts v)
      (IR.Run.executeAll around ss w)) :
    Related (After Γ count p.known [])
      (executeAll around (if targeted then [.block label ts] else ts) v)
      (IR.Run.execute around (.block label targeted ss) w) := by
  have hbody := h.block.toBelongs
  rw [IR.Run.execute]
  cases targeted with
  | true =>
    rw [if_pos rfl, executeAll_singleton, Statement.execute]
    refine (related_inScope ha hbody hvw.body (bindsAll_unknown hbody hts) hrel).bind ?_
    exact fun ending v w hvw => .ok (hvw.1.after_nil _)
  | false =>
    rw [if_neg Bool.false_ne_true]
    refine (related_inScope_body ha hbody hvw.body hrel).bind_right fun ending v w hvw => ?_
    have hnot : ¬ Names label ss := fun hnamed => Bool.noConfusion (h.placed.1.1.mpr hnamed)
    rw [endBlock_eq_self (hvw.2.ne_exit (.inr hnot))]
    exact .ok (hvw.1.after_nil _)

theorem related_loop {targeted : Bool} (hturns : 0 < around.turns)
    (h : Ready Γ p [.loop label targeted ss]) (hts : ofStatements ss = .ok ts)
    (hvw : Matches Γ count p.known v w)
    (hrel : ∀ v w, Matches Γ count p.known v w →
      Related (After Γ count p.known (bound ss)) (executeAll around ts v)
        (IR.Run.executeAll around ss w)) :
    Related (After Γ count p.known [])
      (executeAll around (if targeted then [.forever label ts] else ts) v)
      (IR.Run.execute around (.loop label targeted ss) w) := by
  obtain ⟨hready, hlabel⟩ := h.loop
  have hbody := hready.toBelongs
  rw [IR.Run.execute]
  cases targeted with
  | true =>
    rw [if_pos rfl, executeAll_singleton, Statement.execute]
    have hturn (v w : Variables σ) (hvw : Matches Γ count p.known v w) :=
      related_inScope ha hbody hvw.body (bindsAll_unknown hbody hts) (hrel v w hvw)
    -- The label of a loop is no end of a block around it, so no jump inside means the end.
    refine (related_repeatBody hturn around.turns hvw).bind_left fun ending v w hvw => ?_
    rw [endBlock_eq_self (hvw.2.ne_exit (.inl hlabel))]
    exact .ok (hvw.1.after_nil _)
  | false =>
    have hnot : ¬ Names label ss := fun hnamed => Bool.noConfusion (h.placed.1.1.mpr hnamed)
    obtain ⟨turns, hsucc⟩ := Nat.exists_eq_succ_of_ne_zero hturns.ne'
    rw [if_neg Bool.false_ne_true, hsucc, IR.Run.repeatBody]
    refine (related_inScope_body ha hbody hvw.body (hrel v w hvw)).bind_right ?_
    intro ending v w hvw
    cases ending with
    | restart l =>
      -- Without a jump to it the loop makes one turn.
      have hne : l ≠ label := fun heq => hnot (heq ▸ hvw.2)
      dsimp only
      rw [if_neg hne]
      exact .ok hvw.1
    | _ => exact .ok (hvw.1.after_nil _)

theorem related_conditional {targeted : Bool} {c : Expression} {t : Term}
    (h : Ready Γ p [.conditional label targeted c yes no]) (ht : ofCondition c = .ok t)
    (hts : ofStatements yes = .ok ts) (hus : ofStatements no = .ok us)
    (hvw : Matches Γ count p.known v w)
    (hyes : ∀ v w, Matches Γ count p.known v w →
      Related (After Γ count p.known (bound yes)) (executeAll around ts v)
        (IR.Run.executeAll around yes w))
    (hno : ∀ v w, Matches Γ count p.known v w →
      Related (After Γ count p.known (bound no)) (executeAll around us v)
        (IR.Run.executeAll around no w)) :
    Related (After Γ count p.known [])
      (executeAll around [.conditional (if targeted then some label else none) t ts
        (if no.isEmpty then none else some us)] v)
      (IR.Run.execute around (.conditional label targeted c yes no) w) := by
  obtain ⟨⟨huses, htargeted, -, -⟩, -⟩ := h.placed
  obtain ⟨hreadyYes, hreadyNo⟩ := h.conditional
  have helse : Statement.executeElse around (if no.isEmpty then none else some us)
      = Statement.inScope us (executeAll around us) := by
    cases no with
    | nil =>
      cases hus
      rfl
    | cons s ss => rfl
  -- An arm ends the choice, or it goes on to where a jump in it leads.
  have hends {arm : List IR.Statement} (hnames : Names label arm → Names label (yes ++ no))
      {x y : Run σ Ending} {v w : Variables σ}
      (hrel : Related (fun ending v w => Matches Γ count p.known v w ∧
        Allowed (p.inBlock label) arm ending) (x v) (y w)) :
      Related (After Γ count p.known [])
        ((do let ending ← x
             pure ((if targeted then some label else none).elim ending fun l =>
               IR.Run.endBlock l ending)) v)
        ((do let ending ← y
             pure (IR.Run.endBlock label ending)) w) := by
    refine hrel.bind fun ending v w hvw => ?_
    rw [elim_endBlock hvw.2 fun hnamed => htargeted.mpr (hnames hnamed)]
    exact .ok (hvw.1.after_nil _)
  cases List.forall_mem_singleton.mp h.typed with
  | conditional hc htype _ _ =>
    rw [executeAll_singleton, Statement.execute, IR.Run.execute, helse]
    rcases condition_cases ha hc htype h.small.1.1 huses ht hvw with
      ⟨e, v', w', hholds, hrun, hstore⟩ | ⟨d, n, v', w', hholds, hrun, hn, hvw'⟩
    · rw [bind_at_error hholds, bind_at_error hrun]
      exact .error hstore
    · rw [bind_at_ok hholds, bind_at_ok hrun, IR.Run.toI32_eq hn, pure_bind]
      by_cases hzero : n = 0
      · subst hzero
        refine hends (fun hl => IR.Statement.names_append.mpr (.inr hl)) ?_
        exact related_inScope ha hreadyNo.toBelongs hvw'.body
          (bindsAll_unknown hreadyNo.toBelongs hus) (hno v' w' hvw')
      · rw [decide_eq_true hzero, if_pos rfl, if_pos hzero]
        refine hends (fun hl => IR.Statement.names_append.mpr (.inl hl)) ?_
        exact related_inScope ha hreadyYes.toBelongs hvw'.body
          (bindsAll_unknown hreadyYes.toBelongs hts) (hyes v' w' hvw')

omit ha

mutual
/-- The script of a statement does what the statement does. -/
theorem related_ofStatement (ha : Unwatched Γ count F around) (hturns : 0 < around.turns)
    {s : IR.Statement} {p : Place} {ts : List Statement} {v w : Variables σ}
    (h : Ready Γ p [s]) (hts : ofStatement s = .ok ts) (hvw : Matches Γ count p.known v w) :
    Related (After Γ count p.known s.binds) (executeAll around ts v)
      (IR.Run.execute around s w) := by
  cases s with
  | block label targeted body =>
    obtain ⟨us, hus, hts⟩ := ok_of_bind hts
    cases hts
    have hbody := related_ofStatements ha hturns h.block hus hvw
    exact related_block ha h hus hvw hbody
  | loop label targeted body =>
    obtain ⟨us, hus, hts⟩ := ok_of_bind hts
    cases hts
    have hbody (v w : Variables σ) (hvw : Matches Γ count p.known v w) :=
      related_ofStatements ha hturns h.loop.1 hus hvw
    exact related_loop ha hturns h hus hvw hbody
  | conditional label targeted c yes no =>
    obtain ⟨t, ht, hts⟩ := ok_of_bind hts
    obtain ⟨us, hus, hts⟩ := ok_of_bind hts
    obtain ⟨others, hothers, hts⟩ := ok_of_bind hts
    cases hts
    have hyes (v w : Variables σ) (hvw : Matches Γ count p.known v w) :=
      related_ofStatements ha hturns h.conditional.1 hus hvw
    have hno (v w : Variables σ) (hvw : Matches Γ count p.known v w) :=
      related_ofStatements ha hturns h.conditional.2 hothers hvw
    exact related_conditional ha h ht hus hothers hvw hyes hno
  | _ => exact related_plain ha h rfl hts hvw

/-- So does the script of statements one after another. -/
theorem related_ofStatements (ha : Unwatched Γ count F around) (hturns : 0 < around.turns)
    {ss : List IR.Statement} {p : Place} {ts : List Statement} {v w : Variables σ}
    (h : Ready Γ p ss) (hts : ofStatements ss = .ok ts) (hvw : Matches Γ count p.known v w) :
    Related (After Γ count p.known (bound ss)) (executeAll around ts v)
      (IR.Run.executeAll around ss w) := by
  cases ss with
  | nil =>
    cases hts
    exact .ok (hvw.after_nil .next)
  | cons s ss =>
    obtain ⟨us, hus, hts⟩ := ok_of_bind hts
    obtain ⟨vs, hvs, hts⟩ := ok_of_bind hts
    cases hts
    have hhead := related_ofStatement ha hturns h.head hus hvw
    rw [executeAll_append, IR.Run.executeAll_cons, ← List.singleton_append,
      IR.Statement.bound_append, IR.bound_singleton]
    generalize executeAll around us v = r at hhead
    generalize IR.Run.execute around s w = r' at hhead
    cases hhead with
    | error store => exact .error store
    | @ok ending v' w' hafter =>
      -- Only where the first statement is passed do the others run, and they know what it bound.
      cases ending with
      | next =>
        refine (related_ofStatements ha hturns h.tail hvs hafter).mono fun ending v w hvw => ?_
        cases ending with
        | next =>
          have hmatches : Matches Γ count (p.known ++ s.binds ++ bound ss) v w := hvw
          rw [After, ← List.append_assoc]
          exact hmatches
        | _ => exact Matches.mono hvw (List.subset_append_left _ _)
      | _ => exact .ok hafter
end

end

end WasmScript.Script
