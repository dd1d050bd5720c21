/-
  WasmScript/Proofs/Run/Operands.lean
  ===================================
  **Pending operands** — expressions that stand for what lies on the stack.

  Where the stack machine has values on its stack, a body that is built has expressions which
  wait to be evaluated.  `runOver` runs the machine on the values of such expressions.  What an
  expression gives depends on the temporaries that it uses and on no others, and one without
  effects gives it at any time and changes nothing; so binding pending operands to
  temporaries, or dropping those without effects, changes nothing that the machine can see.
-/
import WasmScript.Proofs.IR.Primitives
import WasmScript.Proofs.Run.Execution
import WasmScript.Run.Stack

namespace WasmScript

open IR (Variables Surroundings Expression Statement Scope SurroundingsAgree)
open IR.Expression (usesAll usesAll_subset)

variable {σ α β : Type}

namespace IR.Run

/-! ### What runs depend on -/

/-- What a run comes to, with other temporaries. -/
def withTemps (temps : Array (Option Cell)) :
    EStateM.Result Failure (Variables σ) α → EStateM.Result Failure (Variables σ) α
  | .ok a v => .ok a { v with temps }
  | .error e v => .error e { v with temps }

/-- Whether a run changes no temporaries and depends only on some of them. -/
def DependsOn (ids : List Nat) (run : Run σ α) : Prop :=
  ∀ (v : Variables σ) (temps : Array (Option Cell)), (∀ id ∈ ids, temps[id]? = v.temps[id]?) →
    run { v with temps } = withTemps temps (run v)

namespace DependsOn

variable {ids ids' : List Nat} {run : Run σ α} {k : α → Run σ β}

theorem mono (h : DependsOn ids run) (hsub : ids ⊆ ids') : DependsOn ids' run :=
  fun v temps hsame => h v temps fun id hid => hsame id (hsub hid)

theorem pure (a : α) : DependsOn ids (pure a : Run σ α) := fun _ _ _ => rfl

theorem throw (e : Failure) : DependsOn ids (throw e : Run σ α) := fun _ _ _ => rfl

theorem act (a : Action σ α) : DependsOn ids (act a) := by
  intro v temps _
  unfold Run.act
  dsimp only
  cases a v.store <;> rfl

theorem result (r : Except Failure α) : DependsOn (σ := σ) ids (result r) := by
  cases r with
  | ok a => exact pure a
  | error e => exact throw e

theorem present (a : Option α) : DependsOn (σ := σ) ids (present a) := by
  cases a with
  | some a => exact pure a
  | none => exact throw _

theorem temps_eq (h : DependsOn ids run) {v v' : Variables σ} {a : α} (hrun : run v = .ok a v') :
    v'.temps = v.temps := by
  have hsame := h v v.temps fun _ _ => rfl
  rw [hrun] at hsame
  injection hsame with _ hv
  rw [hv]

theorem bind (h : DependsOn ids run) (hk : ∀ a, DependsOn ids (k a)) :
    DependsOn ids (run >>= k) := by
  intro v temps hids
  have hrun := h v temps hids
  change EStateM.bind run k _ = withTemps temps (EStateM.bind run k v)
  unfold EStateM.bind
  rw [hrun]
  cases hv : run v with
  | ok a v' =>
    have htemps := h.temps_eq hv
    exact hk a v' temps fun id hid => by rw [htemps]; exact hids id hid
  | error e v' => rfl

theorem setLocal (index : Nat) (c : Cell) : DependsOn (σ := σ) ids (setLocal index c) := by
  intro v temps _
  unfold Run.setLocal
  dsimp only
  split <;> rfl

theorem toI32 (c : Cell) : DependsOn (σ := σ) ids (toI32 c) := by
  unfold Run.toI32
  split
  · exact pure _
  · exact throw _

theorem toAddress (c : Cell) :
    DependsOn (σ := σ) ids (toAddress c) := (toI32 c).bind fun _ => pure _

theorem theOnly (cells : List Cell) : DependsOn (σ := σ) ids (theOnly cells) := by
  unfold Run.theOnly
  split
  · exact pure _
  · exact throw _

/-- What is read from the variables is the same where some of the temporaries are. -/
theorem get {β : Type} {f : Variables σ → β} {k : β → Run σ α}
    (hf : ∀ (v : Variables σ) temps, (∀ id ∈ ids, temps[id]? = v.temps[id]?) →
      f { v with temps } = f v)
    (hk : ∀ b, DependsOn ids (k b)) : DependsOn ids (do k (f (← MonadState.get))) := by
  intro v temps hids
  change k (f { v with temps }) { v with temps } = withTemps temps (k (f v) v)
  rw [hf v temps hids]
  exact hk (f v) v temps hids

end DependsOn

variable {around : Surroundings σ}

/-- Nothing comes of watching a run where nothing is objected to. -/
theorem watched_eq (hwatch : ∀ e c v, around.watch e c v = true) (e : Expression)
    (run : Run σ Cell) :
    watched around e run = run := by
  funext v
  change EStateM.bind run
    (fun c => do if around.watch e c (← get) then pure c else throw .stuck) v = run v
  unfold EStateM.bind
  cases run v with
  | ok c v' =>
    change (if around.watch e c v' then pure c else throw .stuck : Run σ Cell) v' = .ok c v'
    rw [hwatch, if_pos rfl]
    rfl
  | error e v' => rfl

mutual
/-- What an expression gives depends on the temporaries that it uses. -/
theorem dependsOn_evaluate (hwatch : ∀ e c v, around.watch e c v = true) (e : Expression) :
    DependsOn e.uses (evaluate around e) := by
  cases e with
  | literal v =>
    rw [evaluate, watched_eq hwatch]
    exact .pure _
  | localRef type index =>
    rw [evaluate, watched_eq hwatch]
    exact .get (f := fun v => v.locals[index]?) (fun _ _ _ => rfl) .present
  | tempRef type id =>
    rw [evaluate, watched_eq hwatch]
    refine .get (f := fun v => v.temps[id]?.join) (fun v temps hids => ?_) .present
    exact congrArg Option.join (hids id List.mem_cons_self)
  | globalRef type index =>
    rw [evaluate, watched_eq hwatch]
    exact .act _
  | unary type op a =>
    rw [evaluate, watched_eq hwatch]
    exact (dependsOn_evaluate hwatch a).bind fun _ => .result _
  | binary type op a b =>
    rw [evaluate, watched_eq hwatch, Expression.uses]
    refine ((dependsOn_evaluate hwatch a).mono (List.subset_append_left _ _)).bind fun _ => ?_
    exact ((dependsOn_evaluate hwatch b).mono (List.subset_append_right _ _)).bind fun _ =>
      .result _
  | compare op a b =>
    rw [evaluate, watched_eq hwatch, Expression.uses]
    refine ((dependsOn_evaluate hwatch a).mono (List.subset_append_left _ _)).bind fun _ => ?_
    exact ((dependsOn_evaluate hwatch b).mono (List.subset_append_right _ _)).bind fun _ =>
      .result _
  | select type c a b =>
    rw [evaluate, watched_eq hwatch, Expression.uses]
    have hleft := List.subset_append_left (c.uses ++ a.uses) b.uses
    refine ((dependsOn_evaluate hwatch c).mono
      (List.Subset.trans (List.subset_append_left _ _) hleft)).bind fun _ => ?_
    -- One of the two values is evaluated, and its temporaries are among those of both.
    refine .bind (.toI32 _) fun n => ?_
    split
    · exact (dependsOn_evaluate hwatch a).mono
        (List.Subset.trans (List.subset_append_right _ _) hleft)
    · exact (dependsOn_evaluate hwatch b).mono (List.subset_append_right _ _)
  | call type function args =>
    rw [evaluate, watched_eq hwatch]
    exact (dependsOn_evaluateAll hwatch args).bind fun _ => .bind (.act _) .theOnly
  | tee type index a =>
    rw [evaluate, watched_eq hwatch]
    exact (dependsOn_evaluate hwatch a).bind fun _ => .bind (.setLocal _ _) fun _ => .pure _
  | address a offset =>
    rw [evaluate, watched_eq hwatch]
    exact (dependsOn_evaluate hwatch a).bind fun _ => .bind (.toI32 _) fun _ => .pure _
  | load access a =>
    rw [evaluate, watched_eq hwatch]
    exact (dependsOn_evaluate hwatch a).bind fun _ => .bind (.toAddress _) fun _ =>
      .bind (.act _) fun _ => .pure _
  | memorySize =>
    rw [evaluate, watched_eq hwatch]
    exact .act _
  | memoryGrow a =>
    rw [evaluate, watched_eq hwatch]
    exact (dependsOn_evaluate hwatch a).bind fun _ => .bind (.toAddress _) fun _ => .act _

theorem dependsOn_evaluateAll (hwatch : ∀ e c v, around.watch e c v = true) (es : List Expression) :
    DependsOn (usesAll es) (evaluateAll around es) := by
  cases es with
  | nil =>
    rw [evaluateAll]
    exact .pure _
  | cons e es =>
    rw [evaluateAll, usesAll]
    refine ((dependsOn_evaluate hwatch e).mono (List.subset_append_left _ _)).bind fun _ => ?_
    exact ((dependsOn_evaluateAll hwatch es).mono (List.subset_append_right _ _)).bind fun _ =>
      .pure _
end

/-! ### What needs no certain time -/

/-- Surroundings that call as they should and object to nothing. -/
structure Unwatched (Γ : Scope) (count : Nat) (F : Failure → Prop) (around : Surroundings σ) : Prop
    extends SurroundingsAgree Γ count F around around where
  silent : ∀ e c v, around.watch e c v = true

variable {Γ : Scope} {count : Nat} {known : List Nat} {F : Failure → Prop}

/-- What a typed expression gives is as it should be. -/
theorem resultFits_of_ok (ha : Unwatched Γ count F around) {e : Expression} {role : IR.Role}
    (he : e.Typed Γ role) (huses : e.uses ⊆ known) {v v' : Variables σ}
    (hv : v.Fits Γ count known) {c : Cell} (h : evaluate around e v = .ok c v') :
    e.ResultFits c ∧ v'.Fits Γ count known := by
  have hmeets := (agree_evaluate ha.toSurroundingsAgree he huses v hv).2
  rwa [h] at hmeets

theorem fits_of_ok (ha : Unwatched Γ count F around) {es : List Expression}
    (hes : ∀ e ∈ es, e.Typed Γ .value) (huses : usesAll es ⊆ known) {v v' : Variables σ}
    (hv : v.Fits Γ count known) {cells : List Cell} (h : evaluateAll around es v = .ok cells v') :
    FitAll cells (es.map Expression.type) ∧ v'.Fits Γ count known := by
  have hmeets := (agree_evaluateAll ha.toSurroundingsAgree hes huses v hv).2
  rwa [h] at hmeets

/-- Asking for the size of a memory changes nothing. -/
theorem exists_memorySize {m : Module} {s : Store σ} (hs : s.Fits m count) {place : Nat}
    (hplace : place < count) (hmemory : m.memory.isSome) :
    ∃ c, Action.memorySize place s = .ok c s := by
  obtain ⟨p, memory, hget, -, heq⟩ := Action.onOwnMemory_eq hs hplace hmemory
    (do let m ← get; pure (Cell.ofPages m m.pages) : LinearMemory.Op Cell)
  refine ⟨Cell.ofPages memory memory.pages, heq.trans ?_⟩
  change EStateM.Result.ok _ { s with memories := s.memories.setIfInBounds p memory } = _
  rw [Action.setIfInBounds_eq_self hget]

theorem toI32_eq {c : Cell} {n : Int} (h : c.toValue = .i32 n) : toI32 (σ := σ) c = pure n := by
  rw [toI32, h]

/-- An expression without effects gives a value and changes nothing. -/
theorem exists_quiet (ha : Unwatched Γ count F around)
    {e : Expression} {role : IR.Role} (he : e.Typed Γ role) (hquiet : e.hasEffects = false)
    (huses : e.uses ⊆ known) {v : Variables σ} (hv : v.Fits Γ count known) :
    ∃ c, evaluate around e v = .ok c v := by
  -- Whatever may fail counts as an effect, so what is left always has a value.
  induction he with
  | literal canonical | folded canonical =>
    rw [evaluate, watched_eq ha.silent]
    exact ⟨_, rfl⟩
  | @localRef type index found =>
    obtain ⟨c, hc, -⟩ := hv.locals.get found
    rw [evaluate, watched_eq ha.silent]
    refine ⟨c, ?_⟩
    change (present v.locals[index]? : Run σ Cell) v = .ok c v
    rw [hc]
    rfl
  | @tempRef type id kind found =>
    obtain ⟨c, hc, -⟩ := hv.exists_temp (huses List.mem_cons_self) found
    rw [evaluate, watched_eq ha.silent]
    refine ⟨c, ?_⟩
    change (present v.temps[id]?.join : Run σ Cell) v = .ok c v
    rw [hc]
    rfl
  | @globalRef index g found =>
    obtain ⟨c, hc, -⟩ := Action.getGlobal_eq hv.store ha.inside (Module.globalTypes_of_found found)
    rw [evaluate, watched_eq ha.silent]
    refine ⟨c, ?_⟩
    unfold act
    dsimp only
    rw [hc]
  | @unary op a known category operand type ih =>
    obtain ⟨c, hc⟩ := ih hquiet huses
    have hfits := operand.fits_as type (resultFits_of_ok ha operand huses hv hc).1
    obtain ⟨r, hr, -⟩ := Operation.applyUnary_eq known category hfits
    rw [evaluate, watched_eq ha.silent, bind_at_ok hc, hr]
    exact ⟨_, rfl⟩
  | @binary op a b known category left right leftType rightType ihl ihr =>
    obtain ⟨hl, hr⟩ := List.append_subset.mp huses
    simp only [Expression.hasEffects, Bool.or_eq_false_iff] at hquiet
    obtain ⟨c, hc⟩ := ihl hquiet.1.2 hl
    obtain ⟨d, hd⟩ := ihr hquiet.2 hr
    have hleft := left.fits_as leftType (resultFits_of_ok ha left hl hv hc).1
    have hright := right.fits_as rightType (resultFits_of_ok ha right hr hv hd).1
    obtain ⟨r, hr⟩ := Operation.applyBinary_eq known category hquiet.1.1 hleft hright
    rw [evaluate, watched_eq ha.silent, bind_at_ok hc, bind_at_ok hd, hr]
    exact ⟨_, rfl⟩
  | @compare op a b known category left right leftType rightType ihl ihr =>
    obtain ⟨hl, hr⟩ := List.append_subset.mp huses
    simp only [Expression.hasEffects, Bool.or_eq_false_iff] at hquiet
    obtain ⟨c, hc⟩ := ihl hquiet.1 hl
    obtain ⟨d, hd⟩ := ihr hquiet.2 hr
    have hleft := left.fits_as leftType (resultFits_of_ok ha left hl hv hc).1
    have hright := right.fits_as rightType (resultFits_of_ok ha right hr hv hd).1
    obtain ⟨r, hr, -⟩ := Operation.applyComparison_eq known category hleft hright
    rw [evaluate, watched_eq ha.silent, bind_at_ok hc, bind_at_ok hd, hr]
    exact ⟨_, rfl⟩
  | @select type c a b condition yes no conditionType yesType noType ihc ihy ihn =>
    obtain ⟨hca, hn⟩ := List.append_subset.mp huses
    obtain ⟨hc, hy⟩ := List.append_subset.mp hca
    simp only [Expression.hasEffects, Bool.or_eq_false_iff] at hquiet
    obtain ⟨d, hd⟩ := ihc hquiet.1.1 hc
    obtain ⟨n, hn'⟩ :=
      exists_i32 (condition.fits_as conditionType (resultFits_of_ok ha condition hc hv hd).1)
    rw [evaluate, watched_eq ha.silent, bind_at_ok hd, toI32_eq hn', pure_bind]
    split
    · exact ihy hquiet.1.2 hy
    · exact ihn hquiet.2 hn
  | @address a offset base type ih =>
    obtain ⟨c, hc⟩ := ih hquiet huses
    obtain ⟨n, hn⟩ := exists_i32 (base.fits_as type (resultFits_of_ok ha base huses hv hc).1)
    rw [evaluate, watched_eq ha.silent, bind_at_ok hc, toI32_eq hn, pure_bind]
    exact ⟨_, rfl⟩
  | memorySize memory =>
    obtain ⟨c, hc⟩ := exists_memorySize hv.store ha.inside memory
    rw [evaluate, watched_eq ha.silent]
    refine ⟨c, ?_⟩
    unfold act
    dsimp only
    rw [hc]
  | call | tee | load | memoryGrow => cases hquiet

/-! ### Several expressions -/

theorem evaluateAll_append (es fs : List Expression) :
    evaluateAll around (es ++ fs)
      = (do let cs ← evaluateAll around es
            let ds ← evaluateAll around fs
            pure (cs ++ ds)) := by
  induction es with
  | nil =>
    rw [List.nil_append, evaluateAll, pure_bind]
    simp
  | cons e es ih =>
    rw [List.cons_append, evaluateAll, evaluateAll, ih]
    simp

theorem executeAll_cons (s : Statement) (ss : List Statement) (v : Variables σ) :
    executeAll around (s :: ss) v
      = match execute around s v with
        | .ok .next v' => executeAll around ss v'
        | r => r := by
  rw [executeAll]
  change EStateM.bind (execute around s) _ v = _
  unfold EStateM.bind
  cases execute around s v with
  | error e v' => rfl
  | ok ending v' => cases ending <;> rfl

theorem executeAll_append (ss ts : List Statement) (v : Variables σ) :
    executeAll around (ss ++ ts) v
      = match executeAll around ss v with
        | .ok .next v' => executeAll around ts v'
        | r => r := by
  induction ss generalizing v with
  | nil => rfl
  | cons s ss ih =>
    rw [List.cons_append, executeAll_cons, executeAll_cons]
    cases execute around s v with
    | error e v' => rfl
    | ok ending v' =>
      cases ending with
      | next => exact ih v'
      | _ => rfl

theorem executeAll_of_next {ss : List Statement} {v v' : Variables σ}
    (h : executeAll around ss v = .ok .next v') (ts : List Statement) :
    executeAll around (ss ++ ts) v = executeAll around ts v' := by
  rw [executeAll_append, h]

theorem executeAll_of_error {ss : List Statement} {e : Failure} {v v' : Variables σ}
    (h : executeAll around ss v = .error e v') (ts : List Statement) :
    executeAll around (ss ++ ts) v = .error e v' := by
  rw [executeAll_append, h]

/-- Whether expressions have certain values, which are found without changing anything. -/
def Held (around : Surroundings σ) (es : List Expression) (cells : List Cell)
    (v : Variables σ) : Prop :=
  List.Forall₂ (fun e c => evaluate around e v = .ok c v) es cells

theorem Held.evaluateAll_eq {es : List Expression} {cells : List Cell} {v : Variables σ}
    (h : Held around es cells v) : evaluateAll around es v = .ok cells v := by
  induction h with
  | nil => rfl
  | cons he _ ih =>
    rw [evaluateAll, bind_at_ok he, bind_at_ok ih]
    rfl

/-- A stable expression has the same value wherever the temporaries that it uses are the same. -/
theorem evaluate_stable (hwatch : ∀ e c v, around.watch e c v = true) {e : Expression}
    (he : e.isStable) {v v' w : Variables σ} {c : Cell} (h : evaluate around e v = .ok c v')
    (hsame : ∀ id ∈ e.uses, w.temps[id]? = v.temps[id]?) : evaluate around e w = .ok c w := by
  cases e with
  | literal value =>
    rw [evaluate, watched_eq hwatch] at h ⊢
    cases h
    rfl
  | tempRef type id =>
    rw [evaluate, watched_eq hwatch] at h ⊢
    change (present v.temps[id]?.join : Run σ Cell) v = .ok c v' at h
    change (present w.temps[id]?.join : Run σ Cell) w = .ok c w
    rw [hsame id List.mem_cons_self]
    cases hc : v.temps[id]?.join with
    | none =>
      rw [hc] at h
      cases h
    | some d =>
      rw [hc] at h
      cases h
      rfl
  | _ => cases he

theorem Held.kept (hwatch : ∀ e c v, around.watch e c v = true) {es : List Expression}
    {cells : List Cell} {v w : Variables σ} (h : Held around es cells v)
    (hes : ∀ e ∈ es, e.isStable) (hsame : ∀ id ∈ usesAll es, w.temps[id]? = v.temps[id]?) :
    Held around es cells w := by
  induction h with
  | nil => exact .nil
  | cons he _ ih =>
    obtain ⟨hstable, hes⟩ := List.forall_mem_cons.mp hes
    refine .cons (evaluate_stable hwatch hstable he fun id hid => ?_) (ih hes fun id hid => ?_)
    · exact hsame id (List.mem_append_left _ hid)
    · exact hsame id (List.mem_append_right _ hid)

/-! ### Binding and dropping what is pending -/

open IR.Build (settling effects Settling)

/-- What is bound to temporaries: nothing but temporaries from `first` on has changed, and the new
operands have the values of the old ones. -/
structure Settled (around : Surroundings σ) (first : Nat) (operands : List Expression)
    (cells : List Cell) (v w : Variables σ) : Prop where
  locals : w.locals = v.locals
  store : w.store = v.store
  temps : ∀ id < first, w.temps[id]? = v.temps[id]?
  held : Held around operands cells w

/-- Whether running what binds operands comes to the same as evaluating them. -/
def Settles (around : Surroundings σ) (Γ : Scope) (count : Nat) (known : List Nat) (first : Nat)
    (s : Settling) (v : Variables σ) : EStateM.Result Failure (Variables σ) (List Cell) → Prop
  | .ok cells v' => ∃ w, executeAll around s.statements v = .ok .next w
      ∧ Settled around first s.operands cells v' w ∧ w.Fits Γ count known
  | .error e v' => ∃ w, executeAll around s.statements v = .error e w ∧ w.store = v'.store

/-- Operands that may be evaluated, in a place where the temporaries they use are known and numbered
below some one. -/
structure Pending (Γ : Scope) (known : List Nat) (first : Nat) (es : List Expression) : Prop where
  typed : ∀ e ∈ es, e.Typed Γ .value
  uses : usesAll es ⊆ known
  low : ∀ id ∈ usesAll es, id < first

namespace Pending

variable {first next : Nat} {es fs : List Expression} {e : Expression}

theorem mono (h : Pending Γ known first es) (hle : first ≤ next) : Pending Γ known next es :=
  { h with low := fun id hid => (h.low id hid).trans_le hle }

theorem head (h : Pending Γ known first (e :: es)) :
    e.Typed Γ .value ∧ e.uses ⊆ known ∧ ∀ id ∈ e.uses, id < first :=
  ⟨h.typed e List.mem_cons_self, (List.append_subset.mp h.uses).1,
    fun id hid => h.low id (List.mem_append_left _ hid)⟩

theorem tail (h : Pending Γ known first (e :: es)) : Pending Γ known first es where
  typed e he := h.typed e (List.mem_cons_of_mem _ he)
  uses := (List.append_subset.mp h.uses).2
  low id hid := h.low id (List.mem_append_right _ hid)

theorem left (h : Pending Γ known first (es ++ fs)) : Pending Γ known first es where
  typed e he := h.typed e (List.mem_append_left _ he)
  uses id hid := by
    obtain ⟨e, he, hid⟩ := IR.Expression.mem_usesAll.mp hid
    exact h.uses (IR.Expression.mem_usesAll.mpr ⟨e, List.mem_append_left _ he, hid⟩)
  low id hid := by
    obtain ⟨e, he, hid⟩ := IR.Expression.mem_usesAll.mp hid
    exact h.low id (IR.Expression.mem_usesAll.mpr ⟨e, List.mem_append_left _ he, hid⟩)

theorem right (h : Pending Γ known first (es ++ fs)) : Pending Γ known first fs where
  typed e he := h.typed e (List.mem_append_right _ he)
  uses id hid := by
    obtain ⟨e, he, hid⟩ := IR.Expression.mem_usesAll.mp hid
    exact h.uses (IR.Expression.mem_usesAll.mpr ⟨e, List.mem_append_right _ he, hid⟩)
  low id hid := by
    obtain ⟨e, he, hid⟩ := IR.Expression.mem_usesAll.mp hid
    exact h.low id (IR.Expression.mem_usesAll.mpr ⟨e, List.mem_append_right _ he, hid⟩)

end Pending

theorem hasEffects_of_isStable {e : Expression} (h : e.isStable) : e.hasEffects = false := by
  cases e <;> first | rfl | cases h

/-- A temporary that has a value. -/
theorem evaluate_tempRef (hwatch : ∀ e c v, around.watch e c v = true) {type : ValueType}
    {id : Nat} {c : Cell} {v : Variables σ} (h : v.temps[id]?.join = some c) :
    evaluate around (.tempRef type id) v = .ok c v := by
  rw [evaluate, watched_eq hwatch]
  change (present v.temps[id]?.join : Run σ Cell) v = .ok c v
  rw [h]
  rfl

/-- A definition of one temporary. -/
theorem execute_define_one {e : Expression} {id : Nat} {c : Cell} {v v' : Variables σ}
    (h : evaluate around e v = .ok c v') (hid : id < v'.temps.size) :
    execute around (.define [id] (.single e)) v
      = .ok .next { v' with temps := v'.temps.setIfInBounds id (some c) } := by
  have hset : setTemp id c v' = .ok () { v' with temps := v'.temps.setIfInBounds id (some c) } := by
    unfold setTemp
    dsimp only
    rw [if_pos hid]
  rw [execute, evaluateOperand, bind_assoc, bind_at_ok h, pure_bind, setTemps, bind_assoc,
    bind_at_ok hset]
  rfl

/-- What a definition of one temporary declares. -/
theorem declared_of_define {e : Expression} {id : Nat}
    (h : (Statement.define [id] (.single e)).Typed Γ) :
    Γ.temps[id]? = some ⟨id, e.type, .value⟩ := by
  cases h with
  | define value temps =>
    cases value with
    | single =>
      cases temps with
      | cons found => exact found

/-- A stable operand stays as it is: none of the temporaries that are bound after it is one that it
uses. -/
theorem Settles.stable (ha : Unwatched Γ count F around) {first : Nat} {e : Expression}
    {es : List Expression} (hpending : Pending Γ known first (e :: es)) (hstable : e.isStable)
    {v : Variables σ} (hv : v.Fits Γ count known)
    (h : Settles around Γ count known first (settling first es) v (evaluateAll around es v)) :
    Settles around Γ count known first (settling first (e :: es)) v
      (evaluateAll around (e :: es) v) := by
  obtain ⟨he, huse, hlow⟩ := hpending.head
  obtain ⟨c, hc⟩ := exists_quiet ha he (hasEffects_of_isStable hstable) huse hv
  rw [evaluateAll, bind_at_ok hc, settling, if_pos hstable]
  cases heval : evaluateAll around es v with
  | error f v' =>
    rw [heval] at h
    rw [bind_at_error heval]
    exact h
  | ok cells v' =>
    rw [heval] at h
    rw [bind_at_ok heval]
    obtain ⟨w, hw, hsettled, hfits⟩ := h
    refine ⟨w, hw, { hsettled with held := .cons ?_ hsettled.held }, hfits⟩
    refine evaluate_stable ha.silent hstable hc fun id hid => ?_
    rw [hsettled.temps id (hlow id hid), (dependsOn_evaluateAll ha.silent es).temps_eq heval]

/-- An operand that is not stable is bound to a temporary, which the operands after it do not
use. -/
theorem Settles.bound (ha : Unwatched Γ count F around) {first : Nat} {e : Expression}
    {es : List Expression} (hpending : Pending Γ known first (e :: es)) (hstable : ¬ e.isStable)
    (hdefine : (Statement.define [first] (.single e)).Typed Γ) {v : Variables σ}
    (hv : v.Fits Γ count known) (h : ∀ w : Variables σ, w.Fits Γ count known →
      Settles around Γ count known (first + 1) (settling (first + 1) es) w
        (evaluateAll around es w)) :
    Settles around Γ count known first (settling first (e :: es)) v
      (evaluateAll around (e :: es) v) := by
  obtain ⟨he, huse, -⟩ := hpending.head
  have hfound := declared_of_define hdefine
  rw [evaluateAll, settling, if_neg hstable]
  change Settles around Γ count known first ⟨_, _ :: _, _⟩ v _
  cases heval : evaluate around e v with
  | error f v' =>
    rw [bind_at_error heval]
    refine ⟨v', ?_, rfl⟩
    have hone : execute around (.define [first] (.single e)) v = .error f v' := by
      rw [execute, evaluateOperand]
      exact bind_at_error (bind_at_error heval)
    rw [executeAll_cons, hone]
  | ok c v₁ =>
    obtain ⟨hgives, hv₁⟩ := resultFits_of_ok ha he huse hv heval
    have hlt : first < v₁.temps.size := hv₁.size ▸ (Array.getElem?_eq_some_iff.mp hfound).1
    have hone := execute_define_one heval hlt
    have hv₂ := fits_setTemp hv₁ hfound (he.fits_of_result hgives)
    generalize htemps : v₁.temps.setIfInBounds first (some c) = temps at hone hv₂
    have hbelow (id : Nat) (hid : id < first) : temps[id]? = v₁.temps[id]? := by
      rw [← htemps, Array.getElem?_setIfInBounds_ne (Nat.ne_of_gt hid)]
    have hrest := h _ (hv₂.mono (List.subset_cons_self _ _))
    -- The operands after it give the same where it has not been bound.
    rw [dependsOn_evaluateAll ha.silent es v₁ temps fun id hid =>
      hbelow id (hpending.tail.low id hid)] at hrest
    rw [bind_at_ok heval]
    cases heval' : evaluateAll around es v₁ with
    | error f v' =>
      rw [heval'] at hrest
      rw [bind_at_error heval']
      obtain ⟨w, hw, hstore⟩ := hrest
      exact ⟨w, by rw [executeAll_cons, hone]; exact hw, hstore⟩
    | ok cells v' =>
      rw [heval'] at hrest
      rw [bind_at_ok heval']
      obtain ⟨w, hw, hsettled, hfits⟩ := hrest
      have hkept := (dependsOn_evaluateAll ha.silent es).temps_eq heval'
      refine ⟨w, by rw [executeAll_cons, hone]; exact hw,
        ⟨hsettled.locals, hsettled.store, ?_, ?_⟩, hfits⟩
      · intro id hid
        rw [hkept, ← hbelow id hid]
        exact hsettled.temps id (Nat.lt_succ_of_lt hid)
      · refine .cons (evaluate_tempRef ha.silent ?_) hsettled.held
        rw [hsettled.temps first (Nat.lt_succ_self first), ← htemps,
          Array.getElem?_setIfInBounds_self_of_lt hlt]
        rfl

/-- Operands may be bound instead of being evaluated. -/
theorem settles (ha : Unwatched Γ count F around) {es : List Expression} :
    ∀ {first : Nat}, Pending Γ known first es → (∀ s ∈ (settling first es).statements, s.Typed Γ) →
      ∀ {v : Variables σ}, v.Fits Γ count known →
        Settles around Γ count known first (settling first es) v (evaluateAll around es v) := by
  induction es with
  | nil =>
    intro first _ _ v hv
    exact ⟨v, rfl, ⟨rfl, rfl, fun _ _ => rfl, .nil⟩, hv⟩
  | cons e es ih =>
    intro first hpending hss v hv
    by_cases hstable : e.isStable
    · rw [settling, if_pos hstable] at hss
      exact .stable ha hpending hstable hv (ih hpending.tail hss hv)
    · rw [settling, if_neg hstable] at hss
      obtain ⟨hdefine, hss⟩ := List.forall_mem_cons.mp hss
      refine .bound ha hpending hstable hdefine hv fun w hw => ?_
      exact ih (hpending.tail.mono (Nat.le_succ first)) hss hw

/-- What is dropped runs its effects. -/
theorem executeAll_effects (ha : Unwatched Γ count F around) {first : Nat} {es : List Expression}
    (hes : Pending Γ known first es) (ss : List Statement) :
    ∀ {v : Variables σ}, v.Fits Γ count known →
      executeAll around (effects es ++ ss) v =
        (evaluateAll around es >>= fun _ => executeAll around ss) v := by
  induction es with
  | nil =>
    intro v _
    rfl
  | cons e es ih =>
    intro v hv
    obtain ⟨he, huse, -⟩ := hes.head
    rw [evaluateAll, bind_assoc]
    -- What has no effect is left out, and would have had a value.
    cases hquiet : e.hasEffects with
    | false =>
      obtain ⟨c, hc⟩ := exists_quiet ha he hquiet huse hv
      have hnone : effects (e :: es) = effects es := by simp [effects, hquiet]
      rw [hnone, ih hes.tail hv, bind_at_ok hc, bind_assoc]
      rfl
    | true =>
      have hone : effects (e :: es) = .evaluate (.single e) :: effects es := by
        simp [effects, hquiet]
      rw [hone, List.cons_append, executeAll_cons, execute, evaluateOperand, bind_assoc]
      cases heval : evaluate around e v with
      | error f v' => rw [bind_at_error heval, bind_at_error heval]
      | ok c v' =>
        have hv' := (resultFits_of_ok ha he huse hv heval).2
        rw [bind_at_ok heval, bind_at_ok heval, bind_assoc]
        exact ih hes.tail hv'

end IR.Run

/-! ### The stack machine over pending operands -/

namespace Stack

/-- What a run comes to, of which a failure leaves only the store. -/
abbrev RunOutcome (σ α : Type) := Except (Failure × Store σ) (α × State σ)

def outcome : EStateM.Result Failure (State σ) α → RunOutcome σ α
  | .ok a s => .ok (a, s)
  | .error e s => .error (e, s.store)

def RunOutcome.bind (o : RunOutcome σ α) (k : α → Run σ β) : RunOutcome σ β :=
  Except.bind o fun p => outcome (k p.1 p.2)

theorem outcome_bind (run : Run σ α) (k : α → Run σ β) (s : State σ) :
    outcome ((run >>= k) s) = (outcome (run s)).bind k := by
  change outcome (EStateM.bind run k s) = _
  unfold EStateM.bind
  cases run s <;> rfl

/-- What the stack machine comes to over the values of pending operands, which lie on other
values. -/
def runOver (around : IR.Surroundings σ) (below : List Cell) (es : List Expression) (run : Run σ α)
    (v : Variables σ) : RunOutcome σ α :=
  match IR.Run.evaluateAll around es v with
  | .ok cells v' => outcome (run ⟨cells.reverse ++ below, v'.locals, v'.store⟩)
  | .error e v' => .error (e, v'.store)

variable {around : IR.Surroundings σ} {below : List Cell} {es fs : List Expression} {run : Run σ α}
variable {v v' w : Variables σ}

theorem runOver_of_ok {cells : List Cell} (h : IR.Run.evaluateAll around es v = .ok cells v') :
    runOver around below es run v =
      outcome (run ⟨cells.reverse ++ below, v'.locals, v'.store⟩) := by
  unfold runOver
  rw [h]

theorem runOver_of_error {e : Failure} (h : IR.Run.evaluateAll around es v = .error e v') :
    runOver around below es run v = .error (e, v'.store) := by
  unfold runOver
  rw [h]

theorem runOver_bind (k : α → Run σ β) :
    runOver around below es (run >>= k) v = (runOver around below es run v).bind k := by
  unfold runOver
  cases IR.Run.evaluateAll around es v with
  | ok cells v' => exact outcome_bind run k _
  | error e v' => rfl

theorem runOver_held {cells : List Cell} (h : IR.Run.Held around es cells v) :
    runOver around below es run v = outcome (run ⟨cells.reverse ++ below, v.locals, v.store⟩) :=
  runOver_of_ok h.evaluateAll_eq

theorem runOver_append_of_ok {cells : List Cell}
    (h : IR.Run.evaluateAll around es v = .ok cells v') :
    runOver around below (es ++ fs) run v = runOver around (cells.reverse ++ below) fs run v' := by
  unfold runOver
  rw [IR.Run.evaluateAll_append, bind_at_ok h]
  cases hfs : IR.Run.evaluateAll around fs v' with
  | ok ds w =>
    rw [bind_at_ok hfs]
    change outcome (run ⟨(cells ++ ds).reverse ++ below, _, _⟩) = _
    rw [List.reverse_append, List.append_assoc]
  | error e w => rw [bind_at_error hfs]

theorem runOver_append_of_error {e : Failure} (h : IR.Run.evaluateAll around es v = .error e v') :
    runOver around below (es ++ fs) run v = .error (e, v'.store) := by
  unfold runOver
  rw [IR.Run.evaluateAll_append, bind_at_error h]

/-- Only the temporaries that the operands use matter. -/
theorem runOver_congr (hwatch : ∀ e c v, around.watch e c v = true) (hlocals : w.locals = v.locals)
    (hstore : w.store = v.store) (htemps : ∀ id ∈ usesAll es, w.temps[id]? = v.temps[id]?) :
    runOver around below es run w = runOver around below es run v := by
  have hsame := IR.Run.dependsOn_evaluateAll hwatch es v w.temps htemps
  have hw : ({ v with temps := w.temps } : Variables σ) = w := by rw [← hlocals, ← hstore]
  rw [hw] at hsame
  unfold runOver
  rw [hsame]
  cases IR.Run.evaluateAll around es v <;> rfl

end Stack

end WasmScript
