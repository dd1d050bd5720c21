/-
  WasmScript/Proofs/Run/Evaluation.lean
  =====================================
  **Running typed expressions** — that they find what they ask for and give what they
  should.

  Variables fit a scope if locals and temporaries hold values of their types in the signed
  form, if some temporaries that are known hold something at all, and if the store fits the
  module.  From there a typed expression which uses known temporaries gives a value of its
  type, or it traps or fails as a call may, and what is left still fits.

  `Expression.ResultFits` singles out the effective addresses, which are unsigned.  `Sound` is all
  that a watch may ask for where an expression gives a value; two runs in surroundings that
  are in agreement (`SurroundingsAgree`), with whatever watches accept what is sound, do the same.
-/
import WasmScript.Proofs.IR.Typing
import WasmScript.Proofs.IR.Scoping
import WasmScript.Proofs.Run.Results

namespace WasmScript.IR

open WasmScript.Action
open Expression (usesAll usesAll_subset)

/-! ### What expressions give -/

/-- Whether a cell is what an expression may give: an unsigned number of 32 bits for an effective
address, and else a value of its type in the signed form. -/
def Expression.ResultFits : Expression → Cell → Prop
  | .address .., .plain (.i32 n) => 0 ≤ n ∧ n < 0x100000000
  | .address .., _ => False
  | e, c => c.Fits e.type

theorem Expression.Typed.fits_of_result {Γ : Scope} {e : Expression}
    (h : e.Typed Γ .value) {c : Cell} (hc : e.ResultFits c) : c.Fits e.type := by
  cases h <;> exact hc

theorem Expression.Typed.fits_as {Γ : Scope} {e : Expression} (h : e.Typed Γ .value)
    {type : ValueType} (htype : e.type = type) {c : Cell} (hc : e.ResultFits c) : c.Fits type :=
  htype ▸ h.fits_of_result hc

/-- Loads and stores are given a number as their address. -/
theorem Expression.Typed.exists_address {Γ : Scope} {e : Expression}
    (h : e.Typed Γ .address) {c : Cell} (hc : e.ResultFits c) : ∃ n, c.toValue = .i32 n := by
  cases h with
  | folded canonical =>
    obtain ⟨n, hn, -⟩ := Value.fits_i32_iff.mp hc
    exact ⟨n, hn⟩
  | address base type =>
    match c, hc with
    | .plain (.i32 n), _ => exact ⟨n, rfl⟩

/-! ### Variables -/

/-- Whether temporaries that hold something hold values of their types. -/
def TempsFit (temps : Array Temp) (held : Array (Option Cell)) : Prop :=
  ∀ (id : Nat) (t : Temp), temps[id]? = some t → ∀ c ∈ held[id]?.join, c.Fits t.type

/-- What is as it should be where an expression gives something. -/
structure Sound {σ : Type} (Γ : Scope) (place : Nat) (e : Expression) (c : Cell) (v : Variables σ) :
    Prop where
  value : e.ResultFits c
  locals : FitEach v.locals Γ.locals
  temps : TempsFit Γ.temps v.temps
  globals : ∀ i ∈ v.store.instances[place]?, FitEach i.globals Γ.module.globalTypes

/-- Variables that fit a scope, of which some temporaries are known to hold something. -/
structure Variables.Fits {σ : Type} (Γ : Scope) (count : Nat) (known : List Nat) (v : Variables σ) :
    Prop where
  locals : FitEach v.locals Γ.locals
  size : v.temps.size = Γ.temps.size
  temps : TempsFit Γ.temps v.temps
  known : ∀ id ∈ known, (v.temps[id]?.join).isSome
  store : v.store.Fits Γ.module count

/-- What is left by a failure of a certain sort: a store that fits. -/
def Failed {σ : Type} (Γ : Scope) (count : Nat) (F : Failure → Prop) (e : Failure)
    (v : Variables σ) :
    Prop := F e ∧ v.store.Fits Γ.module count

/-- Surroundings of a function which only differ in their watches and in how they call, and call
with the same outcomes.  `F` are the failures that may come of a call; traps are among them. -/
structure SurroundingsAgree {σ : Type} (Γ : Scope) (count : Nat) (F : Failure → Prop)
    (around around' : Surroundings σ) :
    Prop where
  place : around'.place = around.place
  turns : around'.turns = around.turns
  inside : around.place < count
  watch : ∀ e c v, Sound Γ around.place e c v → around.watch e c v ∧ around'.watch e c v
  call : ∀ function type args, Γ.module.functionType? function = some type →
      FitAll args type.params →
    Agree (Store.Fits Γ.module count) (around.call function args) (around'.call function args)
      (fun cells s => FitAll cells type.results ∧ s.Fits Γ.module count)
      (fun e s => F e ∧ s.Fits Γ.module count)
  traps : ∀ kind, F (.trap kind)
  tooLong : F .tooLong

variable {σ : Type} {Γ : Scope} {count : Nat} {known : List Nat} {F : Failure → Prop}
variable {around around' : Surroundings σ} {α : Type}

namespace Variables.Fits

variable {v : Variables σ}

theorem mono (h : v.Fits Γ count known) {known' : List Nat} (hsub : known' ⊆ known) :
    v.Fits Γ count known' :=
  { h with known := fun id hid => h.known id (hsub hid) }

theorem sound (h : v.Fits Γ count known) {e : Expression} {c : Cell} (hc : e.ResultFits c)
    (place : Nat) :
    Sound Γ place e c v where
  value := hc
  locals := h.locals
  temps := h.temps
  globals i hi := (h.store.instances i (Array.mem_of_getElem? hi)).globals

theorem setLocal (h : v.Fits Γ count known) {index : Nat} {type : ValueType}
    (htype : Γ.locals[index]? = some type) {c : Cell} (hc : c.Fits type) :
    ({ v with locals := v.locals.setIfInBounds index c } : Variables σ).Fits Γ count known :=
  { h with locals := h.locals.set htype hc }

theorem withStore (h : v.Fits Γ count known) {s : Store σ} (hs : s.Fits Γ.module count) :
    ({ v with store := s } : Variables σ).Fits Γ count known :=
  { h with store := hs }

/-- A temporary that is known holds a value of its type. -/
theorem exists_temp (h : v.Fits Γ count known) {id : Nat} (hid : id ∈ known) {t : Temp}
    (ht : Γ.temps[id]? = some t) : ∃ c, v.temps[id]?.join = some c ∧ c.Fits t.type := by
  obtain ⟨c, hc⟩ := Option.isSome_iff_exists.mp (h.known id hid)
  exact ⟨c, hc, h.temps id t ht c hc⟩

end Variables.Fits

namespace Run

/-! ### Small steps -/

theorem agree_act {a a' : Action σ α} {Q : α → Store σ → Prop}
    (h : Agree (Store.Fits Γ.module count) a a' Q fun e s => F e ∧ s.Fits Γ.module count)
    (hQ : ∀ x s, Q x s → s.Fits Γ.module count) :
    Agree (Variables.Fits Γ count known) (act a) (act a')
      (fun x v => Q x v.store ∧ v.Fits Γ count known) (Failed Γ count F) := by
  rintro ⟨locals, temps, store⟩ hv
  obtain ⟨hsame, hmeets⟩ := h store hv.store
  simp only [act]
  rw [hsame]
  cases ha : a' store with
  | ok x s =>
    rw [ha] at hmeets
    exact ⟨rfl, hmeets, hv.withStore (hQ x s hmeets)⟩
  | error e s =>
    rw [ha] at hmeets
    exact ⟨rfl, hmeets⟩

theorem agree_actTraps (ha : SurroundingsAgree Γ count F around around') {a : Action σ α}
    {Q : α → Prop}
    (h : Agree (Store.Fits Γ.module count) a a (fun x s => Q x ∧ s.Fits Γ.module count)
      (Traps Γ.module count)) :
    Agree (Variables.Fits Γ count known) (act a) (act a) (fun x v => Q x ∧ v.Fits Γ count known)
      (Failed Γ count F) := by
  have hact : Agree (Variables.Fits Γ count known) (act a) (act a) _ (Failed Γ count F) :=
    agree_act (h.mono (fun _ h => h) (fun _ _ h => h) ?_) fun x s h => h.2
  · exact hact.post fun x v h => ⟨h.1.1, h.2⟩
  · rintro e s ⟨⟨kind, rfl⟩, hs⟩
    exact ⟨ha.traps kind, hs⟩

theorem agree_toI32 {P : Variables σ → Prop} {E : Failure → Variables σ → Prop} {c : Cell}
    (h : ∃ n, c.toValue = .i32 n) : Agree P (toI32 c) (toI32 c) (fun _ v => P v) E := by
  obtain ⟨n, hn⟩ := h
  unfold toI32
  rw [hn]
  exact Agree.pure fun _ h => h

theorem agree_toAddress {P : Variables σ → Prop} {E : Failure → Variables σ → Prop} {c : Cell}
    (h : ∃ n, c.toValue = .i32 n) : Agree P (toAddress c) (toAddress c) (fun _ v => P v) E :=
  (agree_toI32 h).bind fun _ => Agree.pure fun _ h => h

theorem exists_i32 {c : Cell} (h : c.Fits .i32) : ∃ n, c.toValue = .i32 n := by
  obtain ⟨n, hn, -⟩ := Value.fits_i32_iff.mp h
  exact ⟨n, hn⟩

theorem agree_result (ha : SurroundingsAgree Γ count F around around') {type : ValueType}
    {r : Except Failure Value} (h : Operation.Yields type r) :
    Agree (Variables.Fits Γ count known) (result (σ := σ) (Cell.plain <$> r))
      (result (Cell.plain <$> r))
      (fun c v => c.Fits type ∧ v.Fits Γ count known) (Failed Γ count F) := by
  cases r with
  | ok w => exact Agree.pure fun v hv => ⟨h, hv⟩
  | error e =>
    obtain ⟨kind, rfl⟩ := h
    exact Agree.throw fun v hv => ⟨ha.traps kind, hv.store⟩

theorem agree_setLocal {index : Nat} {type : ValueType}
    (htype : Γ.locals[index]? = some type) {c : Cell} (hc : c.Fits type) :
    Agree (Variables.Fits (σ := σ) Γ count known) (setLocal index c) (setLocal index c)
      (fun _ v => v.Fits Γ count known) (Failed Γ count F) := by
  rintro ⟨locals, temps, store⟩ hv
  have hlt : index < locals.size := hv.locals.size ▸ (Array.getElem?_eq_some_iff.mp htype).1
  refine ⟨rfl, ?_⟩
  simp only [setLocal]
  rw [if_pos hlt]
  exact hv.setLocal htype hc

theorem agree_watched (ha : SurroundingsAgree Γ count F around around') {e : Expression}
    {run run' : Run σ Cell}
    (h : Agree (Variables.Fits Γ count known) run run'
      (fun c v => e.ResultFits c ∧ v.Fits Γ count known)
      (Failed Γ count F)) :
    Agree (Variables.Fits Γ count known) (watched around e run) (watched around' e run')
      (fun c v => e.ResultFits c ∧ v.Fits Γ count known) (Failed Γ count F) := by
  refine h.bind fun c v hv => ?_
  obtain ⟨hwatch, hwatch'⟩ := ha.watch e c v (hv.2.sound hv.1 _)
  change (if around.watch e c v then pure c else throw .stuck : Run σ Cell) v
      = (if around'.watch e c v then pure c else throw .stuck : Run σ Cell) v
    ∧ Meets _ _ ((if around'.watch e c v then pure c else throw .stuck : Run σ Cell) v)
  rw [if_pos hwatch, if_pos hwatch']
  exact ⟨rfl, hv⟩

/-! ### Expressions -/

/-- Two runs of an expression that both give what it should. -/
def AgreeOn (Γ : Scope) (count : Nat) (known : List Nat) (F : Failure → Prop)
    (around around' : Surroundings σ) (e : Expression) : Prop :=
  Agree (Variables.Fits Γ count known) (evaluate around e) (evaluate around' e)
    (fun c v => e.ResultFits c ∧ v.Fits Γ count known) (Failed Γ count F)

/-- Expressions give values of their types one by one, if each of them does. -/
theorem agree_evaluateAll_of {es : List Expression} (htyped : ∀ e ∈ es, e.Typed Γ .value)
    (h : ∀ e ∈ es, AgreeOn Γ count known F around around' e) :
    Agree (Variables.Fits Γ count known) (evaluateAll around es) (evaluateAll around' es)
      (fun cs v => FitAll cs (es.map Expression.type) ∧ v.Fits Γ count known)
        (Failed Γ count F) := by
  induction es with
  | nil => exact Agree.pure fun v hv => ⟨.nil, hv⟩
  | cons e es ih =>
    obtain ⟨he, hes⟩ := List.forall_mem_cons.mp h
    obtain ⟨htype, htypes⟩ := List.forall_mem_cons.mp htyped
    rw [evaluateAll, evaluateAll]
    refine Agree.bind he fun c => Agree.of_fact fun hc => ?_
    refine (ih htypes hes).bind fun cs => Agree.of_fact fun hcs => ?_
    exact Agree.pure fun v hv => ⟨.cons (htype.fits_of_result hc) hcs, hv⟩

/-- A call hands over what fits the parameters and gives what fits the results. -/
theorem agree_call (ha : SurroundingsAgree Γ count F around around') {function : Nat}
    {type : FunctionType} {args : List Cell} (hfound : Γ.module.functionType? function = some type)
    (hargs : FitAll args type.params) :
    Agree (Variables.Fits Γ count known) (act (around.call function args))
      (act (around'.call function args))
      (fun cells v => FitAll cells type.results ∧ v.Fits Γ count known) (Failed Γ count F) :=
  (agree_act (ha.call function type args hfound hargs) fun _ _ h => h.2).post
    fun _ _ h => ⟨h.1.1, h.2⟩

/-- A typed expression that uses what is known gives what it should. -/
theorem agree_evaluate (ha : SurroundingsAgree Γ count F around around') {e : Expression}
    {role : Role} (h : e.Typed Γ role) (huses : e.uses ⊆ known) :
    AgreeOn Γ count known F around around' e := by
  have hplace := ha.place
  unfold AgreeOn
  -- The induction is on the typing, which also says what the operands must fit.
  induction h with
  | literal canonical =>
    rw [evaluate, evaluate]
    exact agree_watched ha (Agree.pure fun v hv => ⟨⟨rfl, canonical⟩, hv⟩)
  | @localRef type index found =>
    rw [evaluate, evaluate]
    refine agree_watched ha fun v hv => ?_
    obtain ⟨c, hc, hfits⟩ := hv.locals.get found
    change (present v.locals[index]? : Run σ Cell) v = (present v.locals[index]? : Run σ Cell) v
      ∧ Meets _ _ ((present v.locals[index]? : Run σ Cell) v)
    rw [hc]
    exact ⟨rfl, hfits, hv⟩
  | @tempRef type id kind found =>
    rw [evaluate, evaluate]
    refine agree_watched ha fun v hv => ?_
    have hknown : id ∈ known := huses List.mem_cons_self
    obtain ⟨c, hc, hfits⟩ := hv.exists_temp hknown found
    change (present v.temps[id]?.join : Run σ Cell) v = (present v.temps[id]?.join : Run σ Cell) v
      ∧ Meets _ _ ((present v.temps[id]?.join : Run σ Cell) v)
    rw [hc]
    exact ⟨rfl, hfits, hv⟩
  | @globalRef index g found =>
    rw [evaluate, evaluate, hplace]
    refine agree_watched ha (agree_actTraps (Q := Cell.Fits g.type) ha fun s hs => ?_)
    obtain ⟨c, hc, hfits⟩ := getGlobal_eq hs ha.inside (Module.globalTypes_of_found found)
    rw [hc]
    exact ⟨rfl, hfits, hs⟩
  | @unary op a known category operand type ih =>
    rw [evaluate, evaluate]
    refine agree_watched ha ((ih huses).bind fun c => Agree.of_fact fun hc => ?_)
    exact agree_result ha (Operation.yields_applyUnary known category (operand.fits_as type hc))
  | @binary op a b known category left right leftType rightType ihl ihr =>
    obtain ⟨hl, hr⟩ := List.append_subset.mp huses
    rw [evaluate, evaluate]
    refine agree_watched ha ((ihl hl).bind fun c => Agree.of_fact fun hc => ?_)
    refine (ihr hr).bind fun d => Agree.of_fact fun hd => ?_
    have hleft := left.fits_as leftType hc
    have hright := right.fits_as rightType hd
    exact agree_result ha (Operation.yields_applyBinary known category hleft hright)
  | @compare op a b known category left right leftType rightType ihl ihr =>
    obtain ⟨hl, hr⟩ := List.append_subset.mp huses
    rw [evaluate, evaluate]
    refine agree_watched ha ((ihl hl).bind fun c => Agree.of_fact fun hc => ?_)
    refine (ihr hr).bind fun d => Agree.of_fact fun hd => ?_
    have hleft := left.fits_as leftType hc
    have hright := right.fits_as rightType hd
    obtain ⟨v, hv, hfits⟩ := Operation.applyComparison_eq known category hleft hright
    rw [hv]
    exact Agree.pure fun v h => ⟨hfits, h⟩
  | @select type c a b condition yes no conditionType yesType noType ihc ihy ihn =>
    obtain ⟨hca, hn⟩ := List.append_subset.mp huses
    obtain ⟨hc, hy⟩ := List.append_subset.mp hca
    rw [evaluate, evaluate]
    refine agree_watched ha ((ihc hc).bind fun d => Agree.of_fact fun hd => ?_)
    refine (agree_toI32 (exists_i32 (condition.fits_as conditionType hd))).bind fun n => ?_
    split
    · exact (ihy hy).post fun d v h => ⟨yes.fits_as yesType h.1, h.2⟩
    · exact (ihn hn).post fun d v h => ⟨no.fits_as noType h.1, h.2⟩
  | @call result function es found args ih =>
    rw [evaluate, evaluate]
    have hes : ∀ e ∈ es, AgreeOn Γ count known F around around' e := fun e he =>
      ih e he (usesAll_subset.mp huses e he)
    refine agree_watched ha
      ((agree_evaluateAll_of args hes).bind fun cs => Agree.of_fact fun hcs => ?_)
    refine (agree_call ha found hcs).bind fun rs => Agree.of_fact fun hrs => ?_
    cases hrs with
    | cons hc hnil =>
      cases hnil
      exact Agree.pure fun v hv => ⟨hc, hv⟩
  | @tee index a found value ih =>
    rw [evaluate, evaluate]
    refine agree_watched ha ((ih huses).bind fun c => Agree.of_fact fun hc => ?_)
    refine (agree_setLocal found (value.fits_of_result hc)).bind fun _ => ?_
    exact Agree.pure fun v hv => ⟨value.fits_of_result hc, hv⟩
  | @load access a memory loads address ih =>
    rw [evaluate, evaluate, hplace]
    refine agree_watched ha ((ih huses).bind fun c => Agree.of_fact fun hc => ?_)
    refine (agree_toAddress (address.exists_address hc)).bind fun n => ?_
    refine (agree_actTraps (Q := fun n => (Operation.loaded access n).Fits access.type) ha ?_).bind
      fun n => Agree.of_fact fun hn => Agree.pure fun v hv => ⟨hn, hv⟩
    exact agree_onOwnMemory ha.inside memory (LinearMemory.keeps_load _ _ _)
      fun memory n memory' _ h => LinearMemory.fits_loaded loads h
  | memorySize memory =>
    rw [evaluate, evaluate, hplace]
    exact agree_watched ha (agree_actTraps ha (agree_memorySize ha.inside memory))
  | @memoryGrow a memory delta type ih =>
    rw [evaluate, evaluate, hplace]
    refine agree_watched ha ((ih huses).bind fun c => Agree.of_fact fun hc => ?_)
    refine (agree_toAddress (exists_i32 (delta.fits_as type hc))).bind fun n => ?_
    exact agree_actTraps ha (agree_memoryGrow ha.inside memory n)
  | folded canonical =>
    rw [evaluate, evaluate]
    exact agree_watched ha (Agree.pure fun v hv => ⟨⟨rfl, canonical⟩, hv⟩)
  | @address a offset base type ih =>
    rw [evaluate, evaluate]
    refine agree_watched ha ((ih huses).bind fun c => Agree.of_fact fun hc => ?_)
    refine (agree_toI32 (exists_i32 (base.fits_as type hc))).bind fun n =>
      Agree.pure fun v hv => ⟨?_, hv⟩
    -- The sum wraps around, so it is an address again.
    have hlt := (BitVec.ofInt 32 (n + offset)).isLt
    rw [← Bits.unsigned_eq_toNat] at hlt
    exact ⟨Int.natCast_nonneg _, by exact_mod_cast hlt⟩

theorem agree_evaluateAll (ha : SurroundingsAgree Γ count F around around') {es : List Expression}
    (h : ∀ e ∈ es, e.Typed Γ .value) (huses : usesAll es ⊆ known) :
    Agree (Variables.Fits Γ count known) (evaluateAll around es) (evaluateAll around' es)
      (fun cs v => FitAll cs (es.map Expression.type) ∧ v.Fits Γ count known) (Failed Γ count F) :=
  agree_evaluateAll_of h fun e he => agree_evaluate ha (h e he) (usesAll_subset.mp huses e he)

/-- Operands of certain types give values of these types. -/
theorem agree_yields (ha : SurroundingsAgree Γ count F around around') {es : List Expression}
    {types : List ValueType} (h : Γ.Yields es types) (huses : usesAll es ⊆ known) :
    Agree (Variables.Fits Γ count known) (evaluateAll around es) (evaluateAll around' es)
      (fun cs v => FitAll cs types ∧ v.Fits Γ count known) (Failed Γ count F) := by
  obtain ⟨htyped, rfl⟩ := h
  exact agree_evaluateAll ha htyped huses

theorem agree_evaluateOperand (ha : SurroundingsAgree Γ count F around around') {operand : Operand}
    {types : List ValueType} (h : operand.Typed Γ types) (huses : operand.uses ⊆ known) :
    Agree (Variables.Fits Γ count known) (evaluateOperand around operand)
      (evaluateOperand around' operand)
      (fun cs v => FitAll cs types ∧ v.Fits Γ count known) (Failed Γ count F) := by
  cases h with
  | @single e value =>
    refine (agree_evaluate ha value huses).bind fun c => Agree.of_fact fun hc => ?_
    exact Agree.pure fun v hv => ⟨.cons (value.fits_of_result hc) .nil, hv⟩
  | multi found args =>
    exact (agree_evaluateAll ha args huses).bind fun cs => Agree.of_fact fun hcs =>
      agree_call ha found hcs

end Run

end WasmScript.IR
