/-
  WasmScript/Proofs/Run/StraightSteps.lean
  ========================================
  **Instructions that stay in a block** — what is built for one does what it does.

  An instruction of the stack machine takes its operands from the top of the stack.  What is
  built for it runs from variables in which all that lies there is still pending, and leaves
  other operands pending.  `arrives_straight` says that both arrive at the same place: where
  they go on, the machine has on its stack what is pending then.
-/
import WasmScript.Proofs.Run.PlainSteps

namespace WasmScript

open IR (Variables Surroundings Expression Statement Frame Context Work)
open IR.Build (settling settlingIf settlingWork effects branchTo branchAt Straight)
open IR.Expression (usesAll usesAll_subset)
open IR.Run
open Stack (RunOutcome outcome runOver mirrored Mirrors)

variable {σ : Type}

/-! ### What is settled -/

/-- Operands that are bound use temporaries that were there, or those that bind them. -/
theorem IR.Build.low_settling {es : List Expression} :
    ∀ {first : Nat}, (∀ id ∈ usesAll es, id < first) →
      ∀ id ∈ usesAll (settling first es).operands,
        id < first + (settling first es).temps.length := by
  induction es with
  | nil => exact fun _ id hid => absurd hid List.not_mem_nil
  | cons e es ih =>
    intro first h
    obtain ⟨he, hes⟩ := List.forall_mem_append.mp h
    rw [settling]
    split
    · refine List.forall_mem_append.mpr ⟨fun id hid => ?_, ih hes⟩
      exact (he id hid).trans_le (Nat.le_add_right _ _)
    · refine List.forall_mem_append.mpr ⟨fun id hid => ?_, fun id hid => ?_⟩
      · rw [List.mem_singleton.mp hid]
        exact Nat.lt_add_of_pos_right (Nat.succ_pos _)
      · have hlow :=
          @ih (first + 1) (fun id hid => (hes id hid).trans (Nat.lt_succ_self first)) id hid
        rw [List.length_cons]
        omega

namespace IR.Run

variable {around : Surroundings σ}

theorem executeAll_single (s : Statement) (v : Variables σ) :
    executeAll around [s] v = execute around s v := by
  rw [executeAll_cons]
  cases execute around s v with
  | error e w => rfl
  | ok ending w => cases ending <;> rfl

theorem Held.append {es fs : List Expression} {cells ds : List Cell} {v : Variables σ}
    (h : Held around es cells v) (h' : Held around fs ds v) :
    Held around (es ++ fs) (cells ++ ds) v :=
  List.rel_append h h'

theorem Held.exists_append {es fs : List Expression} {cells : List Cell} {v : Variables σ}
    (h : Held around (es ++ fs) cells v) :
    ∃ cs ds, cells = cs ++ ds ∧ Held around es cs v ∧ Held around fs ds v := by
  refine ⟨cells.take es.length, cells.drop es.length, (List.take_append_drop ..).symm, ?_, ?_⟩
  · simpa [Held] using List.forall₂_take es.length h
  · simpa [Held] using List.forall₂_drop es.length h

/-- Stable operands keep their values in a run that changes no temporaries. -/
theorem Held.of_temps (hwatch : ∀ e c v, around.watch e c v = true) {es : List Expression}
    {cells : List Cell} {v w : Variables σ} (h : Held around es cells v)
    (hes : ∀ e ∈ es, e.isStable) (htemps : w.temps = v.temps) :
    Held around es cells w :=
  h.kept hwatch hes fun id _ => by rw [htemps]

end IR.Run

/-! ### The instructions one by one -/

section Straight

variable {around : Surroundings σ} {Γ : IR.Scope} {count : Nat} {known : List Nat}
    {F : Failure → Prop}
variable {aims : Nat → Option Aim} {results first : Nat} {m : Module}
variable {rest es : List Expression} {below : List Cell} {v : Variables σ}

/-- Whether both runs go on, the machine with the values of some operands. -/
def GoesOn (around : Surroundings σ) (below : List Cell) (live : Prop) (operands : List Expression)
    (w : Variables σ) (o : RunOutcome σ Stack.Ending) : Prop :=
  live ∧ o = runOver around below operands (pure .next) w

theorem runOver_next :
    runOver around below es (pure Stack.Ending.next) v
      = mirrored (fun cells => (.next, cells.reverse ++ below)) (evaluateAll around es v) := by
  unfold runOver
  cases evaluateAll around es v <;> rfl

/-- The machine goes on with the values of operands that have them. -/
theorem goesOn_held {live : Prop} (hlive : live) {operands : List Expression} {cells : List Cell}
    {w : Variables σ} (h : Held around operands cells w) :
    GoesOn around below live operands w
      (.ok (.next, ⟨cells.reverse ++ below, w.locals, w.store⟩)) :=
  ⟨hlive, (runOver_next.trans (by rw [h.evaluateAll_eq]; rfl)).symm⟩

/-- The machine performs a plain instruction on the values of its operands. -/
theorem runOver_step (ha : Unwatched Γ count F around) {i : Instruction} {type : FunctionType}
    (signature : i.signature Γ.module Γ.locals = some type) (hes : Γ.Yields es type.params)
    (huses : usesAll es ⊆ known) (hv : v.Fits Γ count known) :
    runOver around below es (Stack.Run.step (around.onStack Γ.module) i) v
      = mirrored (fun rs => (Stack.Ending.next, rs.reverse ++ below))
          ((do perform around i (← evaluateAll around es) : IR.Run σ (List Cell)) v) := by
  cases heval : evaluateAll around es v with
  | error e w =>
    rw [Stack.runOver_of_error heval, bind_at_error heval]
    rfl
  | ok cells w =>
    have hcells := (fits_of_ok ha hes.1 huses hv heval).1
    rw [hes.2] at hcells
    rw [Stack.runOver_of_ok heval, bind_at_ok heval]
    exact Stack.step_perform signature hcells around below w

/-- Only the operands of a plain instruction depend on temporaries. -/
theorem dependsOn_instruction (ha : Unwatched Γ count F around) (i : Instruction)
    (es : List Expression) :
    DependsOn (usesAll es) (do perform around i (← evaluateAll around es)) :=
  (dependsOn_evaluateAll ha.silent es).bind fun cells =>
    (dependsOn_perform around i cells).mono (List.nil_subset _)

/-- A plain instruction that is worked off as an operand: it will be performed where that is
evaluated. -/
theorem arrives_value (ha : Unwatched Γ count F around) (hpend : Pending Γ known first (rest ++ es))
    {i : Instruction} {type : FunctionType} (signature : i.signature Γ.module Γ.locals = some type)
    (types : es.map Expression.type = type.params) {e : Expression}
    (hdoes : (Work.value e).Does Γ count known around
      (do perform around i (← evaluateAll around es)))
    (hv : v.Fits Γ count known) :
    Arrives aims results first (GoesOn around below True (rest ++ [e])) v (executeAll around [] v)
      (runOver around below (rest ++ es) (Stack.Run.step (around.onStack Γ.module) i) v) := by
  refine .next (.of_temps rfl) ⟨trivial, ?_⟩
  cases heval : evaluateAll around rest v with
  | error e v' => rw [Stack.runOver_append_of_error heval, Stack.runOver_append_of_error heval]
  | ok cells v' =>
    have hv' := (fits_of_ok ha hpend.left.typed hpend.left.uses hv heval).2
    rw [Stack.runOver_append_of_ok heval, Stack.runOver_append_of_ok heval,
      runOver_step ha signature ⟨hpend.right.typed, types⟩ hpend.right.uses hv', runOver_next,
      evaluateAll_one, ← hdoes v' hv']

/-- A plain instruction that is worked off as a statement, once what lies below its operands has
been bound. -/
theorem arrives_statement (ha : Unwatched Γ count F around)
    (hpend : Pending Γ known first (rest ++ es)) {i : Instruction} {type : FunctionType}
    (signature : i.signature Γ.module Γ.locals = some type)
    (types : es.map Expression.type = type.params) {s : Statement}
    (hdoes : (Work.statement s).Does Γ count known around
      (do perform around i (← evaluateAll around es)))
    (hss : ∀ t ∈ (settling first rest).statements, t.Typed Γ) (hv : v.Fits Γ count known) :
    Arrives aims results first (GoesOn around below True (settling first rest).operands) v
      (executeAll around ((settling first rest).statements ++ [s]) v)
      (runOver around below (rest ++ es) (Stack.Run.step (around.onStack Γ.module) i) v) := by
  refine arrives_settled ha hpend hss hv fun cells u _ hu hheld => ?_
  rw [executeAll_single, runOver_step ha signature ⟨hpend.right.typed, types⟩ hpend.right.uses hu]
  rcases hdoes.statement_cases hu with ⟨e, u', hrun, hexec⟩ | ⟨u', hrun, hexec⟩
  · rw [hrun, hexec]
    exact .failed
  · have htemps := (dependsOn_instruction ha i es).temps_eq hrun
    rw [hrun, hexec]
    exact .next (.of_temps htemps)
      (goesOn_held trivial
        (hheld.of_temps ha.silent (IR.Build.isStable_settling first rest) htemps))

/-- A plain instruction that is worked off as a definition of its results. -/
theorem arrives_results (ha : Unwatched Γ count F around)
    (hpend : Pending Γ known first (rest ++ es)) {i : Instruction} {type : FunctionType}
    (signature : i.signature Γ.module Γ.locals = some type)
    (types : es.map Expression.type = type.params) {function : Nat} {args : List Expression}
    {declared : List ValueType}
    (hdoes : (Work.results function args declared).Does Γ count known around
      (do perform around i (← evaluateAll around es)))
    (hargs : usesAll args ⊆ known)
    (hss : ∀ t ∈ (settlingWork first rest (.results function args declared)).statements, t.Typed Γ)
    (hv : v.Fits Γ count known) :
    Arrives aims results first
      (GoesOn around below True
        (settlingWork first rest (.results function args declared)).operands) v
      (executeAll around (settlingWork first rest (.results function args declared)).statements v)
      (runOver around below (rest ++ es) (Stack.Run.step (around.onStack Γ.module) i) v) := by
  obtain ⟨hsettled, hdefine⟩ := List.forall_mem_append.mp hss
  refine arrives_settled ha hpend hsettled hv fun cells u _ hu hheld => ?_
  have hlow := IR.Build.low_settling hpend.left.low
  have hstable := IR.Build.isStable_settling first rest
  obtain ⟨hcall, hdeclares⟩ : (IR.Operand.multi function args declared).Typed Γ declared ∧
      Γ.Declares .value (List.range' (first + (settling first rest).temps.length) declared.length)
        declared := by
    cases List.forall_mem_singleton.mp hdefine with
    | define value temps =>
      cases value with
      | multi found args => exact ⟨.multi found args, temps⟩
  rw [executeAll_single, runOver_step ha signature ⟨hpend.right.typed, types⟩ hpend.right.uses hu,
    execute]
  cases hrun : (do perform around i (← evaluateAll around es) : IR.Run σ (List Cell)) u with
  | error e u' =>
    rw [bind_at_error ((hdoes u hu).trans hrun)]
    exact .failed
  | ok rs u' =>
    have hmeets := (agree_evaluateOperand ha.toSurroundingsAgree hcall hargs u hu).2
    rw [(hdoes u hu).trans hrun] at hmeets
    obtain ⟨hrs, hu'⟩ := hmeets
    have htemps := (dependsOn_instruction ha i es).temps_eq hrun
    obtain ⟨z, hset, hlocals, hstore, hholds, hkept⟩ :=
      exists_setTemps (hdeclares.length_eq.trans hrs.length_eq.symm) List.nodup_range'
        (v := u') fun id hid => hu'.size ▸ hdeclares.lt_size id hid
    -- The results are bound above everything that the operands below them use.
    have hbelow {id : Nat} (hid : id < first + (settling first rest).temps.length) :
        z.temps[id]? = u.temps[id]? := by
      rw [hkept id fun hmem => absurd (List.mem_range'_1.mp hmem).1 (Nat.not_le_of_lt hid), htemps]
    have hheld' : Held around (settling first rest).operands cells z :=
      hheld.kept ha.silent hstable fun id hid => hbelow (hlow id hid)
    rw [bind_at_ok ((hdoes u hu).trans hrun), bind_at_ok hset]
    refine .next (fun id hid _ => hbelow (hid.trans_le (Nat.le_add_right _ _))) ?_
    have hrefs := held_refs ha.silent hholds hdeclares.length_eq
    change GoesOn around below True _ z
      (.ok (.next, ⟨rs.reverse ++ (cells.reverse ++ below), u'.locals, u'.store⟩))
    rw [← List.append_assoc, ← List.reverse_append, ← hlocals, ← hstore]
    exact goesOn_held trivial (hheld'.append hrefs)

/-- A plain instruction is worked off as an operand, as a statement or as a definition. -/
theorem arrives_work (ha : Unwatched Γ count F around) (hpend : Pending Γ known first (rest ++ es))
    {i : Instruction} {type : FunctionType} (signature : i.signature Γ.module Γ.locals = some type)
    {functions : Nat} (hwell : i.WellFormed functions)
    (types : es.map Expression.type = type.params) {w : Work}
    (made : i.work Γ.module Γ.locals es = some w)
    (hss : ∀ s ∈ (settlingWork first rest w).statements, s.Typed Γ) (hv : v.Fits Γ count known) :
    Arrives aims results first (GoesOn around below True (settlingWork first rest w).operands) v
      (executeAll around (settlingWork first rest w).statements v)
      (runOver around below (rest ++ es) (Stack.Run.step (around.onStack Γ.module) i) v) := by
  have hdoes : w.Does Γ count known around (do perform around i (← evaluateAll around es)) :=
    Work.does_work ha signature hwell ⟨hpend.right.typed, types⟩ hpend.right.uses made
  cases w with
  | value e => exact arrives_value ha hpend signature types hdoes hv
  | statement s =>
    exact arrives_statement ha hpend signature types hdoes (List.forall_mem_append.mp hss).1 hv
  | results function args declared =>
    have hargs : usesAll args ⊆ known := by
      cases IR.from_work made with
      | results => exact hpend.right.uses
    exact arrives_results ha hpend signature types hdoes hargs hss hv

/-- An operand that is dropped runs if it has effects, after what lies below it. -/
theorem arrives_drop (ha : Unwatched Γ count F around) {e : Expression}
    (hpend : Pending Γ known first (rest ++ [e]))
    (hss : ∀ s ∈ ((settlingIf e.hasEffects first rest).emit (effects [e])).statements, s.Typed Γ)
    (hv : v.Fits Γ count known) :
    Arrives aims results first
      (GoesOn around below True (settlingIf e.hasEffects first rest).operands) v
      (executeAll around ((settlingIf e.hasEffects first rest).emit (effects [e])).statements v)
      (runOver around below (rest ++ [e]) (Stack.Run.step (around.onStack m) .drop) v) := by
  obtain ⟨he, huses, -⟩ := hpend.right.head
  -- An operand without effects is not evaluated any more, but it would have had a value.
  cases heffects : e.hasEffects with
  | true =>
    have hone : effects [e] = [.evaluate (.single e)] := by simp [effects, heffects]
    rw [heffects] at hss
    rw [hone] at hss ⊢
    refine arrives_settled ha hpend (List.forall_mem_append.mp hss).1 hv fun cells w _ hw hheld =>
      ?_
    rw [executeAll_single, execute, evaluateOperand, bind_assoc]
    cases heval : evaluate around e w with
    | error f w' =>
      rw [bind_at_error heval,
        Stack.runOver_of_error (by rw [evaluateAll_one, bind_at_error heval])]
      exact .failed
    | ok c w' =>
      have htemps := (dependsOn_evaluate ha.silent e).temps_eq heval
      rw [bind_at_ok heval, Stack.runOver_of_ok (by rw [evaluateAll_one, bind_at_ok heval]; rfl)]
      refine .next (.of_temps htemps) (goesOn_held trivial ?_)
      exact hheld.of_temps ha.silent (IR.Build.isStable_settling first rest) htemps
  | false =>
    have hnone : effects [e] = [] := by simp [effects, heffects]
    rw [hnone]
    refine .next (.of_temps rfl) ⟨trivial, ?_⟩
    change _ = runOver around below rest (pure Stack.Ending.next) v
    cases heval : evaluateAll around rest v with
    | error f w => rw [Stack.runOver_append_of_error heval, Stack.runOver_of_error heval]
    | ok cells w =>
      have hw := (fits_of_ok ha hpend.left.typed hpend.left.uses hv heval).2
      obtain ⟨c, hc⟩ := exists_quiet ha he heffects huses hw
      rw [Stack.runOver_append_of_ok heval, Stack.runOver_of_ok heval,
        Stack.runOver_of_ok (by rw [evaluateAll_one, bind_at_ok hc]; rfl)]
      rfl

/-- What goes on with a number goes on with the same one in both runs. -/
theorem arrives_i32 {Next : Variables σ → RunOutcome σ Stack.Ending → Prop}
    (ha : Unwatched Γ count F around) {e : Expression} (he : e.Typed Γ .value)
    (type : e.type = .i32) (huses : e.uses ⊆ known) (hv : v.Fits Γ count known)
    {k : Int → IR.Run σ IR.Ending} {k' : Int → Stack.Run σ Stack.Ending}
    (h : ∀ n w, w.temps = v.temps → w.Fits Γ count known →
      Arrives aims results first Next w (k n w) (outcome (k' n ⟨below, w.locals, w.store⟩))) :
    Arrives aims results first Next v ((do k (← toI32 (← evaluate around e))) v)
      (runOver around below [e] (do k' (← Stack.Run.popI32)) v) := by
  cases heval : evaluate around e v with
  | error f w =>
    rw [bind_at_error heval, Stack.runOver_of_error (by rw [evaluateAll_one, bind_at_error heval])]
    exact .failed
  | ok c w =>
    obtain ⟨hgives, hw⟩ := resultFits_of_ok ha he huses hv heval
    obtain ⟨n, hn⟩ := exists_i32 (he.fits_as type hgives)
    have htemps := (dependsOn_evaluate ha.silent e).temps_eq heval
    have hpop := Stack.Run.popI32_of_toValue hn below w.locals w.store
    rw [bind_at_ok heval, toI32_eq hn, pure_bind,
      Stack.runOver_of_ok (by rw [evaluateAll_one, bind_at_ok heval]; rfl)]
    change Arrives aims results first Next v (k n w)
      (outcome ((Stack.Run.popI32 >>= k') ⟨c :: below, _, _⟩))
    rw [bind_at_ok hpop]
    exact (h n w htemps hw).since (.of_temps htemps)

/-- A choice gives one of two operands that have values where its condition has been evaluated. -/
theorem runOver_select (ha : Unwatched Γ count F around) {condition a b : Expression} {ca cb : Cell}
    (hc : condition.Typed Γ .value) (type : condition.type = .i32) (huses : condition.uses ⊆ known)
    (hv : v.Fits Γ count known)
    (hab : ∀ c w, evaluate around condition v = .ok c w → Held around [a, b] [ca, cb] w)
    (t : ValueType) :
    runOver around (cb :: ca :: below) [condition] (Stack.Run.step (around.onStack m) .select) v
      = runOver around below [.select t condition a b] (pure .next) v := by
  rw [runOver_next, evaluateAll_one, evaluate, watched_eq ha.silent]
  cases heval : evaluate around condition v with
  | error f w =>
    rw [Stack.runOver_of_error (by rw [evaluateAll_one, bind_at_error heval]), bind_assoc,
      bind_at_error heval]
    rfl
  | ok c w =>
    obtain ⟨hgives, hw⟩ := resultFits_of_ok ha hc huses hv heval
    obtain ⟨n, hn⟩ := exists_i32 (hc.fits_as type hgives)
    obtain ⟨hca, hcb⟩ : evaluate around a w = .ok ca w ∧ evaluate around b w = .ok cb w := by
      simpa [Held] using hab c w heval
    -- The machine has both values on its stack, and pops the condition first.
    rw [Stack.runOver_of_ok (by rw [evaluateAll_one, bind_at_ok heval]; rfl), bind_assoc,
      bind_at_ok heval, bind_assoc, toI32_eq hn, pure_bind]
    change outcome ((Stack.Run.popI32 >>= _) ⟨c :: cb :: ca :: below, _, _⟩) = _
    rw [bind_at_ok (Stack.Run.popI32_of_toValue hn _ w.locals w.store)]
    by_cases hzero : n = 0
    · rw [if_neg (not_not_intro hzero), bind_at_ok hcb]
      change Except.ok (_, (⟨(if n ≠ 0 then ca else cb) :: below, _, _⟩ : Stack.State σ)) = _
      rw [if_neg (not_not_intro hzero)]
      rfl
    · rw [if_pos hzero, bind_at_ok hca]
      change Except.ok (_, (⟨(if n ≠ 0 then ca else cb) :: below, _, _⟩ : Stack.State σ)) = _
      rw [if_pos hzero]
      rfl

/-- A choice is an operand, whose own operands are bound first if one of the three has effects. -/
theorem arrives_select (ha : Unwatched Γ count F around) {condition a b : Expression}
    {rest' : List Expression} {needed : Bool} (hpend : Pending Γ known first (rest ++ [condition]))
    (type : condition.type = .i32)
    (operands : (settlingIf needed first rest).operands = rest' ++ [a, b])
    (quiet : needed = false → ¬ condition.hasEffects ∧ ¬ a.hasEffects ∧ ¬ b.hasEffects)
    (hss : ∀ s ∈ (settlingIf needed first rest).statements, s.Typed Γ) (hv : v.Fits Γ count known)
    (t : ValueType) :
    Arrives aims results first (GoesOn around below True (rest' ++ [.select t condition a b])) v
      (executeAll around (settlingIf needed first rest).statements v)
      (runOver around below (rest ++ [condition])
        (Stack.Run.step (around.onStack m) .select) v) := by
  obtain ⟨hc, huses, -⟩ := hpend.right.head
  cases needed with
  | true =>
    have hstable := IR.Build.isStable_settling first rest
    change (settling first rest).operands = rest' ++ [a, b] at operands
    rw [operands] at hstable
    rw [← List.append_nil (settlingIf true first rest).statements]
    refine arrives_settled ha hpend hss hv fun cells w _ hw hheld => ?_
    rw [operands] at hheld
    obtain ⟨crest, cab, rfl, hrest, hab⟩ := hheld.exists_append
    obtain ⟨ca, cb, rfl⟩ := List.length_eq_two.mp hab.length_eq.symm
    refine .next (.of_temps rfl) ⟨trivial, ?_⟩
    rw [Stack.runOver_append_of_ok hrest.evaluateAll_eq, List.reverse_append, List.append_assoc]
    refine runOver_select ha hc type huses hw (fun c u heval => ?_) t
    exact hab.of_temps ha.silent (List.forall_mem_append.mp hstable).2
      ((dependsOn_evaluate ha.silent condition).temps_eq heval)
  | false =>
    -- None of the three has an effect, so it does not matter which is evaluated first.
    obtain ⟨hquiet, hqa, hqb⟩ := quiet rfl
    obtain rfl : rest = rest' ++ [a, b] := operands
    refine .next (.of_temps rfl) ⟨trivial, ?_⟩
    have hab := hpend.left.right
    cases heval : evaluateAll around rest' v with
    | error f w =>
      rw [List.append_assoc, Stack.runOver_append_of_error heval,
        Stack.runOver_append_of_error heval]
    | ok cells w =>
      have hw := (fits_of_ok ha hpend.left.left.typed hpend.left.left.uses hv heval).2
      obtain ⟨c, hcw⟩ := exists_quiet ha hc (by simpa using hquiet) huses hw
      obtain ⟨ca, hca⟩ := exists_quiet ha hab.head.1 (by simpa using hqa) hab.head.2.1 hw
      obtain ⟨cb, hcb⟩ := exists_quiet ha hab.tail.head.1 (by simpa using hqb) hab.tail.head.2.1 hw
      have hheld : Held around [a, b] [ca, cb] w := .cons hca (.cons hcb .nil)
      rw [List.append_assoc, Stack.runOver_append_of_ok heval, Stack.runOver_append_of_ok heval,
        Stack.runOver_append_of_ok hheld.evaluateAll_eq]
      refine runOver_select ha hc type huses hw (fun d u hdu => ?_) t
      cases hcw.symm.trans hdu
      exact hheld

/-- The blocks that branches may go to, by their depths. -/
structure Targets (Γ : IR.Scope) (aims : Nat → Option Aim) (fs : List Frame) : Prop where
  typed : ∀ f ∈ fs, f.Typed Γ
  nodup : ∀ f ∈ fs, f.aim.slots.Nodup
  found : ∀ depth f, fs[depth]? = some f → aims depth = some f.aim

/-- A branch to an open block hands on the topmost of some operands that have values. -/
theorem arrives_branchAt (hsize : v.temps.size = Γ.temps.size) {fs : List Frame}
    (htargets : Targets Γ aims fs) {Next : Variables σ → RunOutcome σ Stack.Ending → Prop}
    {depth : Nat} (target : fs[depth]?.map Frame.labelTypes = some (es.map Expression.type))
    {cells : List Cell} (hheld : Held around (rest ++ es) cells v) :
    Arrives aims results first Next v (takeBranch around (branchAt fs es depth) v)
      (.ok (.branch depth, ⟨cells.reverse ++ below, v.locals, v.store⟩)) := by
  obtain ⟨f, hf, htypes⟩ := Option.map_eq_some_iff.mp target
  have hmem := List.mem_of_getElem? hf
  obtain ⟨crest, ces, rfl, -, hes⟩ := hheld.exists_append
  have harity : ces.length = f.aim.arity := by
    have hlength := congrArg List.length htypes
    rw [List.length_map] at hlength
    exact hes.length_eq.symm.trans hlength.symm
  rw [branchAt, hf, List.reverse_append, List.append_assoc]
  exact arrives_takeBranch_of_ok (htargets.typed f hmem) (htargets.nodup f hmem) harity
    (htargets.found depth f hf) hes.evaluateAll_eq rfl hsize

/-- A conditional branch is taken or not, over operands that are bound. -/
theorem arrives_brIf (ha : Unwatched Γ count F around) {condition : Expression}
    (hpend : Pending Γ known first (rest ++ [condition])) (type : condition.type = .i32)
    {rest' : List Expression} (operands : (settling first rest).operands = rest' ++ es)
    {fs : List Frame} (htargets : Targets Γ aims fs) {depth : Nat}
    (target : fs[depth]?.map Frame.labelTypes = some (es.map Expression.type))
    (hss : ∀ s ∈ (settling first rest).statements, s.Typed Γ) (hv : v.Fits Γ count known) :
    Arrives aims results first (GoesOn around below True (settling first rest).operands) v
      (executeAll around
        ((settling first rest).statements ++ [.branchIf condition (branchAt fs es depth)]) v)
      (runOver around below (rest ++ [condition])
        (Stack.Run.step (around.onStack m) (.brIf depth)) v) := by
  obtain ⟨hc, huses, -⟩ := hpend.right.head
  have hstable := IR.Build.isStable_settling first rest
  refine arrives_settled ha hpend hss hv fun cells u _ hu hheld => ?_
  rw [executeAll_single, execute]
  refine arrives_i32 ha hc type huses hu fun n w htemps hw => ?_
  have hheld' := hheld.of_temps ha.silent hstable htemps
  by_cases hn : n = 0
  · rw [if_neg (not_not_intro hn), if_neg (not_not_intro hn)]
    exact .next (.of_temps rfl) (goesOn_held trivial hheld')
  · rw [if_pos hn, if_pos hn]
    rw [operands] at hheld'
    exact arrives_branchAt hw.size htargets target hheld'

/-- A table of branches takes one of them, over operands that are bound. -/
theorem arrives_brTable (ha : Unwatched Γ count F around) {index : Expression}
    (hpend : Pending Γ known first (rest ++ [index])) (type : index.type = .i32)
    {rest' : List Expression} (operands : (settling first rest).operands = rest' ++ es)
    {fs : List Frame} (htargets : Targets Γ aims fs) {depths : List Nat} {default : Nat}
    (targets : ∀ d ∈ depths ++ [default], fs[d]?.map Frame.labelTypes =
      some (es.map Expression.type))
    (hss : ∀ s ∈ (settling first rest).statements, s.Typed Γ) {live : Prop}
    (hv : v.Fits Γ count known) :
    Arrives aims results first (GoesOn around below live []) v
      (executeAll around ((settling first rest).statements
        ++ [.branchTable index (depths.map (branchAt fs es)) (branchAt fs es default)]) v)
      (runOver around below (rest ++ [index])
        (Stack.Run.step (around.onStack m) (.brTable depths default)) v) := by
  obtain ⟨hindex, huses, -⟩ := hpend.right.head
  have hstable := IR.Build.isStable_settling first rest
  refine arrives_settled ha hpend hss hv fun cells u _ hu hheld => ?_
  rw [executeAll_single, execute, Stack.Run.step]
  simp only [toAddress, Stack.Run.popUnsigned, bind_assoc, pure_bind]
  refine arrives_i32 ha hindex type huses hu fun n w htemps hw => ?_
  have hheld' := hheld.of_temps ha.silent hstable htemps
  rw [operands] at hheld'
  have hchosen (i : Nat) : (depths.map (branchAt fs es))[i]?.getD (branchAt fs es default)
      = branchAt fs es (depths[i]?.getD default) := by
    rw [List.getElem?_map, Option.getD_map]
  rw [hchosen]
  refine arrives_branchAt hw.size htargets (targets _ ?_) hheld'
  cases hd : depths[Bits.unsigned32 n]? with
  | none => exact List.mem_append_right _ List.mem_cons_self
  | some d => exact List.mem_append_left _ (List.mem_of_getElem? hd)

/-- What is built for an instruction that stays in its block does what the instruction does. -/
theorem arrives_straight {ctx : Context} {temps : Array IR.Temp}
    (ha : Unwatched (ctx.scope temps) count F around) {fs : List Frame}
    (htargets : Targets (ctx.scope temps) aims fs) {pend : List Expression}
    (hpend : Pending (ctx.scope temps) known first pend) {i : Instruction} {functions : Nat}
    (hwell : i.WellFormed functions) {o : IR.Build.Outcome} (h : Straight ctx fs first i pend o)
    (hss : ∀ s ∈ o.statements, s.Typed (ctx.scope temps))
    (hv : v.Fits (ctx.scope temps) count known) :
    Arrives aims ctx.type.results.length first (GoesOn around below (o.live = true) o.operands) v
      (executeAll around o.statements v)
      (runOver around below pend (Stack.Run.step (around.onStack ctx.module) i) v) := by
  cases h with
  | nop => exact .next (.of_temps rfl) ⟨rfl, rfl⟩
  | work signature types made gives =>
    exact (arrives_work ha hpend signature hwell types made hss hv).mono le_rfl fun _ _ _ _ h =>
      ⟨rfl, h.2⟩
  | drop => exact (arrives_drop ha hpend hss hv).mono le_rfl fun _ _ _ _ h => ⟨rfl, h.2⟩
  | select type operands same quiet =>
    exact (arrives_select ha hpend type operands quiet hss hv _).mono le_rfl fun _ _ _ _ h =>
      ⟨rfl, h.2⟩
  | unreachable =>
    have hdropped :
        Arrives aims ctx.type.results.length first (GoesOn around below (false = true) []) v
        (executeAll around (effects pend ++ [.unreachable]) v)
        (runOver around below (pend ++ [])
          (Stack.Run.step (around.onStack ctx.module) .unreachable) v) := by
      refine arrives_effects ha hpend hv fun cells w _ => ?_
      rw [executeAll_single, execute]
      exact .failed
    rwa [List.append_nil] at hdropped
  | @br rest es depth target =>
    obtain ⟨f, hf, htypes⟩ := Option.map_eq_some_iff.mp target
    have hmem := List.mem_of_getElem? hf
    refine arrives_effects ha hpend.left hv fun cells w hw => ?_
    rw [executeAll_single, execute, branchAt, hf]
    exact arrives_takeBranch ha hpend.right hw (htargets.typed f hmem)
      (htargets.nodup f hmem) htypes (htargets.found depth f hf)
  | @ret rest es types =>
    refine arrives_effects ha hpend.left hv fun cells w hw => ?_
    rw [executeAll_single, execute]
    -- The results are evaluated last, after the effects of what is below them.
    cases heval : evaluateAll around es w with
    | error e u =>
      rw [bind_at_error heval, Stack.runOver_of_error heval]
      exact .failed
    | ok rs u =>
      have hrs := (fits_of_ok ha hpend.right.typed hpend.right.uses hw heval).1
      rw [bind_at_ok heval, Stack.runOver_of_ok heval]
      refine .leave ?_
      rw [hrs.length_eq, types]
  | brIf type operands target =>
    exact (arrives_brIf ha hpend type operands htargets target (List.forall_mem_append.mp hss).1
      hv).mono le_rfl fun _ _ _ _ h => ⟨rfl, h.2⟩
  | brTable type operands targets =>
    exact arrives_brTable ha hpend type operands htargets targets
      (List.forall_mem_append.mp hss).1 hv

end Straight

end WasmScript
