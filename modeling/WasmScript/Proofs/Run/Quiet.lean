/-
  WasmScript/Proofs/Run/Quiet.lean
  ================================
  **Expressions without effects** — that they are free to run, at any time or not at all.

  An expression without effects gives a value wherever what it names is there, it leaves all
  variables and the store as they were, and no call has a part in it: it gives the same value
  whatever calls do.  So both arms of a choice may be evaluated before the condition is, as
  the stack machine does, and an expression of which nothing is used may be dropped.
-/
import WasmScript.Proofs.Run.Operands

namespace WasmScript.IR

variable {σ : Type} {Γ : Scope} {count place : Nat} {known : List Nat}
    {around around' : Surroundings σ}

namespace Run

/-! ### No calls -/

/-- Calls have no part in what an expression without effects does, nor has the bound on loops. -/
theorem evaluate_eq_of_quiet (hwatch : ∀ e c v, around.watch e c v = true)
    (hwatch' : ∀ e c v, around'.watch e c v = true) (hplace : around'.place = around.place) :
    ∀ e : Expression, e.hasEffects = false → evaluate around' e = evaluate around e := by
  intro e hquiet
  cases e with
  | literal | localRef | tempRef => rw [evaluate, evaluate, watched_eq hwatch, watched_eq hwatch']
  | globalRef | memorySize => rw [evaluate, evaluate, watched_eq hwatch, watched_eq hwatch', hplace]
  | unary type op a | address a offset =>
    rw [evaluate, evaluate, watched_eq hwatch, watched_eq hwatch',
      evaluate_eq_of_quiet hwatch hwatch' hplace a hquiet]
  | binary type op a b | compare op a b =>
    simp only [Expression.hasEffects, Bool.or_eq_false_iff] at hquiet
    rw [evaluate, evaluate, watched_eq hwatch, watched_eq hwatch',
      evaluate_eq_of_quiet hwatch hwatch' hplace a (by tauto),
      evaluate_eq_of_quiet hwatch hwatch' hplace b hquiet.2]
  | select type c a b =>
    simp only [Expression.hasEffects, Bool.or_eq_false_iff] at hquiet
    rw [evaluate, evaluate, watched_eq hwatch, watched_eq hwatch',
      evaluate_eq_of_quiet hwatch hwatch' hplace c hquiet.1.1,
      evaluate_eq_of_quiet hwatch hwatch' hplace a hquiet.1.2,
      evaluate_eq_of_quiet hwatch hwatch' hplace b hquiet.2]
  | call | tee | load | memoryGrow => cases hquiet

def withoutCalls (place : Nat) :
    Surroundings σ := ⟨place, fun _ _ => throw .stuck, 0, fun _ _ _ => true⟩

theorem unwatched_withoutCalls (hplace : place < count) :
    Unwatched Γ count (fun _ => True) (withoutCalls (σ := σ) place) where
  place := rfl
  turns := rfl
  inside := hplace
  watch _ _ _ _ := ⟨rfl, rfl⟩
  call _ _ _ _ _ := Agree.throw fun _ hs => ⟨trivial, hs⟩
  traps _ := trivial
  tooLong := trivial
  silent _ _ _ := rfl

/-- An expression without effects gives one value of its type, whatever calls do, and changes
nothing. -/
theorem exists_idle {e : Expression} {role : Role} (htyped : e.Typed Γ role)
    (hquiet : e.hasEffects = false) (huses : e.uses ⊆ known) (hplace : place < count)
    {v : Variables σ} (hv : v.Fits Γ count known) :
    ∃ c, e.ResultFits c ∧ ∀ call turns, evaluate { place, call, turns } e v = .ok c v := by
  have hblind : Unwatched Γ count (fun _ => True) (withoutCalls (σ := σ) place) :=
    unwatched_withoutCalls hplace
  obtain ⟨c, hc⟩ := exists_quiet hblind htyped hquiet huses hv
  refine ⟨c, (resultFits_of_ok hblind htyped huses hv hc).1, fun call turns => ?_⟩
  have hsilent : ∀ e c v, ({ place, call, turns } : Surroundings σ).watch e c v = true :=
    fun _ _ _ => rfl
  rw [evaluate_eq_of_quiet hblind.silent hsilent rfl e hquiet]
  exact hc

/-! ### Choices -/

/-- The value of a choice by way of both its arms, which come before the condition. -/
def evaluateBoth (around : Surroundings σ) (condition ifTrue ifFalse : Expression) :
    Run σ Cell := do
  let a ← evaluate around ifTrue
  let b ← evaluate around ifFalse
  let c ← toI32 (← evaluate around condition)
  pure (if c ≠ 0 then a else b)

/-- A choice without effects gives what its chosen arm gives, and the same by way of both arms. -/
theorem select_idle {type : ValueType} {c a b : Expression} {role : Role}
    (htyped : (Expression.select type c a b).Typed Γ role)
    (hquiet : (Expression.select type c a b).hasEffects = false)
    (huses : (Expression.select type c a b).uses ⊆ known) (hplace : place < count) {v : Variables σ}
    (hv : v.Fits Γ count known) :
    ∃ n : Int, ∀ call turns,
      (evaluate { place, call, turns } c >>= toI32) v = .ok n v
      ∧ evaluateBoth { place, call, turns } c a b v
          = evaluate { place, call, turns } (if n ≠ 0 then a else b) v
      ∧ evaluate { place, call, turns } (.select type c a b) v
          = evaluateBoth { place, call, turns } c a b v := by
  cases htyped with
  | select condition yes no conditionType yesType noType =>
  obtain ⟨huses', hn⟩ := List.append_subset.mp huses
  obtain ⟨hc, hy⟩ := List.append_subset.mp huses'
  simp only [Expression.hasEffects, Bool.or_eq_false_iff] at hquiet
  obtain ⟨⟨hquietc, hquieta⟩, hquietb⟩ := hquiet
  obtain ⟨d, hd, hdrun⟩ := exists_idle condition hquietc hc hplace hv
  obtain ⟨x, -, hxrun⟩ := exists_idle yes hquieta hy hplace hv
  obtain ⟨y, -, hyrun⟩ := exists_idle no hquietb hn hplace hv
  obtain ⟨n, hn⟩ := exists_i32 (condition.fits_as conditionType hd)
  have htoI32 : (toI32 d : Run σ Int) v = .ok n v := by
    unfold toI32
    rw [hn]
    rfl
  refine ⟨n, fun call turns => ?_⟩
  have hcondition : (evaluate { place, call, turns } c >>= toI32) v = .ok n v :=
    (bind_at_ok (hdrun call turns)).trans htoI32
  have hchosen : evaluate { place, call, turns } (if n ≠ 0 then a else b) v =
      .ok (if n ≠ 0 then x else y) v := by
    split
    · exact hxrun call turns
    · exact hyrun call turns
  -- Both values are computed here, and the one that is not chosen leaves no trace.
  have hboth : evaluateBoth { place, call, turns } c a b v = .ok (if n ≠ 0 then x else y) v := by
    unfold evaluateBoth
    rw [bind_at_ok (hxrun call turns), bind_at_ok (hyrun call turns), bind_at_ok (hdrun call turns),
      bind_at_ok htoI32]
    rfl
  have hchoice : evaluate { place, call, turns } (.select type c a b) v =
      .ok (if n ≠ 0 then x else y) v := by
    rw [evaluate, watched_eq fun _ _ _ => rfl, bind_at_ok (hdrun call turns), bind_at_ok htoI32]
    split
    · exact hxrun call turns
    · exact hyrun call turns
  exact ⟨hcondition, hboth.trans hchosen.symm, hchoice.trans hboth.symm⟩

/-! ### Statements of which nothing is used -/

/-- Where an expression without effects is evaluated for nothing, it may as well not be there. -/
theorem executeAll_drop_idle {e : Expression} {role : Role} (htyped : e.Typed Γ role)
    (hquiet : e.hasEffects = false) (huses : e.uses ⊆ known) (hplace : place < count)
    (call : Nat → List Cell → Action σ (List Cell)) (turns : Nat) (ss ts : List Statement)
    {start : Variables σ}
    (hreached : ∀ v, executeAll { place, call, turns } ss start = .ok .next v →
      v.Fits Γ count known) :
    executeAll { place, call, turns } (ss ++ .evaluate (.single e) :: ts) start
      = executeAll { place, call, turns } (ss ++ ts) start := by
  rw [executeAll_append, executeAll_append]
  split
  · next v hrun =>
    obtain ⟨c, -, hc⟩ := exists_idle htyped hquiet huses hplace (hreached v hrun)
    have hstatement : execute { place, call, turns } (.evaluate (.single e)) v = .ok .next v := by
      rw [execute, evaluateOperand, bind_assoc, bind_at_ok (hc call turns)]
      rfl
    rw [executeAll_cons, hstatement]
  · rfl

end Run

/-- A typed expression without effects gives a value of its type and changes nothing, whatever calls
do; a choice without effects comes to the same if both its arms are evaluated; and a statement that
only evaluates such an expression may be left out. -/
theorem quiet_expression_idle {e : Expression} {role : Role} (htyped : e.Typed Γ role)
    (hquiet : e.hasEffects = false) (huses : e.uses ⊆ known) (hplace : place < count) :
    (∀ v : Variables σ, v.Fits Γ count known →
      ∃ c, e.ResultFits c ∧ ∀ call turns, Run.evaluate { place, call, turns } e v = .ok c v)
    ∧ (∀ type condition yes no, e = .select type condition yes no →
      ∀ v : Variables σ, v.Fits Γ count known →
        ∃ n : Int, ∀ call turns,
          (Run.evaluate { place, call, turns } condition >>= Run.toI32) v = .ok n v
          ∧ Run.evaluateBoth { place, call, turns } condition yes no v
              = Run.evaluate { place, call, turns } (if n ≠ 0 then yes else no) v
          ∧ Run.evaluate { place, call, turns } e v
              = Run.evaluateBoth { place, call, turns } condition yes no v)
    ∧ ∀ call turns ss ts, ∀ start : Variables σ,
      (∀ v, Run.executeAll { place, call, turns } ss start = .ok .next v → v.Fits Γ count known) →
        Run.executeAll { place, call, turns } (ss ++ .evaluate (.single e) :: ts) start
          = Run.executeAll { place, call, turns } (ss ++ ts) start := by
  refine ⟨fun v hv => Run.exists_idle htyped hquiet huses hplace hv, ?_, ?_⟩
  · rintro type condition yes no rfl v hv
    exact Run.select_idle htyped hquiet huses hplace hv
  · intro call turns ss ts start hreached
    exact Run.executeAll_drop_idle htyped hquiet huses hplace call turns ss ts hreached

/-- What an expression may name in a function with one local and one temporary, of a module with a
global and a memory. -/
def idleScope : Scope where
  module :=
    { globals := #[⟨.i32, true, .i32 0⟩], memory := some { initial := 1, maximum := some 2 } }
  locals := #[.i32]
  results := []
  temps := #[⟨0, .i32, .value⟩]

/-- Variables of such a function, with an instance that has a page of memory. -/
def idleVariables : Variables Unit where
  locals := #[.plain (.i32 1)]
  temps := #[some (.plain (.i32 4))]
  store :=
    { memories := #[.create 1 2], instances := #[⟨#[], some 0, #[.plain (.i32 3)]⟩], world := () }

theorem fits_idleVariables : idleVariables.Fits idleScope 1 [0] where
  locals := fitEach_toArray (.cons ⟨rfl, by decide, by decide⟩ .nil)
  size := rfl
  temps id t ht c hc := by
    match id, ht with
    | 0, rfl =>
      cases hc
      exact ⟨rfl, by decide, by decide⟩
  known id hid := by
    cases List.mem_singleton.mp hid
    rfl
  store :=
    { size := rfl
      instances := fun i hi => by
        cases Array.mem_singleton.mp hi
        have hglobals : FitEach [Cell.plain (.i32 3)].toArray [ValueType.i32].toArray :=
          fitEach_toArray (.cons ⟨rfl, by decide, by decide⟩ .nil)
        refine ⟨rfl, rfl, fun p hp => ?_, ?_⟩
        · cases hp
          decide
        · rw [Module.globalTypes, show idleScope.module.globals =
            [⟨.i32, true, .i32 0⟩].toArray from rfl, List.map_toArray]
          exact hglobals
      memories := fun memory hmemory => by
        cases Array.mem_singleton.mp hmemory
        exact LinearMemory.fits_create (by decide) (by decide) }

/-- The addition of 32-bit integers. -/
def idleAddition : NumericOp := ⟨0x6a, "i32.add", .binary, .add, .i32, .i32⟩

/-- Chooses between the size of the memory and the sum of the global and the temporary. -/
def idleChoice : Expression :=
  .select .i32 (.localRef .i32 0) .memorySize
    (.binary .i32 idleAddition (.globalRef .i32 0) (.tempRef .i32 0))

theorem typed_idleChoice : idleChoice.Typed idleScope .value := by
  have hknown : idleAddition ∈ NumericOp.table := by decide
  have hglobal : Expression.Typed idleScope .value (.globalRef .i32 0) :=
    .globalRef (show idleScope.module.globals[0]? = some ⟨.i32, true, .i32 0⟩ from rfl)
  have hsum : Expression.Typed idleScope .value
      (.binary .i32 idleAddition (.globalRef .i32 0) (.tempRef .i32 0)) :=
    .binary hknown rfl hglobal
      (.tempRef (show idleScope.temps[0]? = some ⟨0, .i32, .value⟩ from rfl)) rfl rfl
  exact .select (.localRef rfl) (.memorySize rfl) hsum rfl rfl rfl

/-- Such a choice gives a value, the same by way of both arms, and it may be dropped. -/
theorem quiet_expression_idle_choice :
    (∃ c, c.Fits .i32 ∧ ∀ call turns,
      Run.evaluate { place := 0, call, turns } idleChoice idleVariables = .ok c idleVariables)
    ∧ (∀ call turns, Run.evaluate { place := 0, call, turns } idleChoice idleVariables
        = Run.evaluateBoth { place := 0, call, turns } (.localRef .i32 0) .memorySize
            (.binary .i32 idleAddition (.globalRef .i32 0) (.tempRef .i32 0)) idleVariables)
    ∧ ∀ call turns ts,
      Run.executeAll { place := 0, call, turns } (.evaluate (.single idleChoice) :: ts)
        idleVariables
        = Run.executeAll { place := 0, call, turns } ts idleVariables := by
  have h :=
    @quiet_expression_idle Unit idleScope 1 0 [0] _ _ typed_idleChoice (by decide) (by decide)
      (by decide)
  obtain ⟨n, hn⟩ := h.2.1 _ _ _ _ rfl idleVariables fits_idleVariables
  refine ⟨h.1 idleVariables fits_idleVariables, fun call turns => (hn call turns).2.2,
    fun call turns ts => ?_⟩
  refine h.2.2 call turns [] ts idleVariables fun v hv => ?_
  cases hv
  exact fits_idleVariables

end WasmScript.IR
