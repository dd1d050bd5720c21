/-
  WasmScript/Proofs/IR/TypedBodies.lean
  =====================================
  **Built bodies are typed** — whatever is built from a module fits together.

  All that is pending or already built is typed in the scope of the temporaries made so
  far.  Each step of a build makes more temporaries and only uses what is there, so it
  keeps that.  The types of what is popped are checked against the signature of an
  instruction, and this is what makes the new expressions and statements fit.
-/
import WasmScript.Proofs.IR.Steps
import WasmScript.Proofs.IR.Typing
import WasmScript.Proofs.IR.Acceptance
import WasmScript.Proofs.Module.Nesting

namespace WasmScript

theorem Bits.canonical_signed32 (n : Int) : (Value.i32 (Bits.signed 32 n)).Canonical := by
  rw [Bits.signed_eq_toInt]
  exact ⟨BitVec.le_toInt _, BitVec.toInt_lt⟩

theorem Bits.canonical_signed64 (n : Int) : (Value.i64 (Bits.signed 64 n)).Canonical := by
  rw [Bits.signed_eq_toInt]
  exact ⟨BitVec.le_toInt _, BitVec.toInt_lt⟩

namespace IR

variable {Γ : Scope}

/-! ### Expressions and statements of plain instructions -/

namespace Expression

theorem typed_constant (type : ValueType) (n : Int) : (constant type n).Typed Γ .value := by
  cases type with
  | i32 => exact .literal (Bits.canonical_signed32 n)
  | i64 => exact .literal (Bits.canonical_signed64 n)

@[simp] theorem type_constant (type : ValueType) (n : Int) : (constant type n).type = type := by
  cases type <;> rfl

theorem typed_effectiveAddress {base : Expression} (h : base.Typed Γ .value)
    (type : base.type = .i32) (offset : Nat) : (base.effectiveAddress offset).Typed Γ .address := by
  unfold effectiveAddress
  split
  · exact .folded (Bits.canonical_signed32 _)
  · exact .address h type

/-- An operator makes something typed of operands of its type. -/
theorem typed_ofOperator {op : NumericOp} {es : List Expression} {e : Expression}
    (hop : op ∈ NumericOp.table) (hes : Γ.Yields es (List.replicate op.arity op.operand))
    (h : ofOperator op es = some e) : e.Typed Γ .value := by
  obtain ⟨htyped, htypes⟩ := hes
  -- A category of one operand is not made of two, nor the other way round.
  rcases es with _ | ⟨a, _ | ⟨b, _ | ⟨c, es⟩⟩⟩
  · cases h
  · have ha : a.Typed Γ .value := htyped a List.mem_cons_self
    rw [ofOperator] at h
    cases hcat : op.category with
    | test =>
      simp only [hcat, NumericOp.arity, List.map_cons, List.map_nil, List.replicate_one,
        List.cons.injEq, and_true] at h htypes
      cases h
      exact .compare hop (.inl hcat) ha (typed_constant _ _) htypes (type_constant _ _)
    | unary =>
      simp only [hcat, NumericOp.arity, List.map_cons, List.map_nil, List.replicate_one,
        List.cons.injEq, and_true] at h htypes
      cases h
      exact .unary hop (.inl hcat) ha htypes
    | convert =>
      simp only [hcat, NumericOp.arity, List.map_cons, List.map_nil, List.replicate_one,
        List.cons.injEq, and_true] at h htypes
      cases h
      exact .unary hop (.inr hcat) ha htypes
    | compare =>
      rw [hcat] at h
      cases h
    | binary =>
      rw [hcat] at h
      cases h
  · have ha : a.Typed Γ .value := htyped a List.mem_cons_self
    have hb : b.Typed Γ .value := htyped b (List.mem_cons_of_mem _ List.mem_cons_self)
    rw [ofOperator] at h
    cases hcat : op.category with
    | compare =>
      simp only [hcat, NumericOp.arity, List.map_cons, List.map_nil, List.replicate,
        List.cons.injEq, and_true] at h htypes
      cases h
      exact .compare hop (.inr hcat) ha hb htypes.1 htypes.2
    | binary =>
      simp only [hcat, NumericOp.arity, List.map_cons, List.map_nil, List.replicate,
        List.cons.injEq, and_true] at h htypes
      cases h
      exact .binary hop hcat ha hb htypes.1 htypes.2
    | _ =>
      rw [hcat] at h
      cases h
  · cases h

end Expression

/-- What an instruction becomes fits together. -/
inductive Work.Typed (Γ : Scope) : Work → Prop
  | value {e : Expression} (value : e.Typed Γ .value) : Typed Γ (.value e)
  | statement {s : Statement} (statement : s.Typed Γ) : Typed Γ (.statement s)
  | results {function : Nat} {es : List Expression} {types : List ValueType}
      (call : (Operand.multi function es types).Typed Γ types) :
        Typed Γ (.results function es types)

theorem Work.typed_ofCall {function : Nat} {es : List Expression} {types : List ValueType}
    (found : Γ.module.functionType? function = some ⟨es.map Expression.type, types⟩)
    (args : ∀ e ∈ es, e.Typed Γ .value) : (Work.ofCall function es types).Typed Γ := by
  rcases types with _ | ⟨result, _ | ⟨result', results⟩⟩
  · exact .statement (.evaluate (.multi found args))
  · exact .value (.call found args)
  · exact .results (.multi found args)

/-- A plain instruction makes something typed of operands of the types in its signature. -/
theorem typed_work {i : Instruction} {type : FunctionType} {es : List Expression} {w : Work}
    (signature : i.signature Γ.module Γ.locals = some type) (hes : Γ.Yields es type.params)
    (made : i.work Γ.module Γ.locals es = some w) : w.Typed Γ := by
  obtain ⟨htyped, htypes⟩ := hes
  -- The signature and what is made are both found by the instruction, so the cases go together.
  have hbecomes := Instruction.becomes_of_work made
  cases Instruction.hasType_of_signature signature with
  | call found =>
    cases hbecomes with | call found' =>
    obtain rfl := Option.some.inj (found.symm.trans found')
    exact Work.typed_ofCall (by rw [found, htypes]) htyped
  | localGet =>
    cases hbecomes with | localGet found =>
    exact .value (.localRef found)
  | localSet found =>
    cases hbecomes with | localSet _ e =>
    obtain rfl : e.type = _ := List.singleton_inj.mp htypes
    exact .statement (.localSet found (htyped e List.mem_cons_self))
  | localTee found =>
    cases hbecomes with | localTee found' e =>
    obtain rfl := Option.some.inj (found.symm.trans found')
    obtain rfl : e.type = _ := List.singleton_inj.mp htypes
    exact .value (.tee found (htyped e List.mem_cons_self))
  | globalGet =>
    cases hbecomes with | globalGet found =>
    exact .value (.globalRef found)
  | globalSet found isMutable =>
    cases hbecomes with | globalSet _ e =>
    exact .statement
      (.globalSet found isMutable (htyped e List.mem_cons_self) (List.singleton_inj.mp htypes))
  | const v =>
    cases hbecomes
    exact .value (Expression.typed_constant _ _)
  | numeric found =>
    cases hbecomes with | numeric found' made =>
    obtain rfl := Option.some.inj (found.symm.trans found')
    exact .value
      (Expression.typed_ofOperator (List.mem_of_find?_eq_some found) ⟨htyped, htypes⟩ made)
  | load memory found loads arg =>
    cases hbecomes with | load found' _ base =>
    obtain rfl := Option.some.inj (found.symm.trans found')
    exact .value (.load memory loads
      (Expression.typed_effectiveAddress (htyped base List.mem_cons_self)
        (List.singleton_inj.mp htypes) _))
  | store memory found stores arg =>
    cases hbecomes with | store found' _ base e =>
    obtain rfl := Option.some.inj (found.symm.trans found')
    have hbase : base.type = .i32 := (List.cons.inj htypes).1
    have hvalue : e.type = _ := (List.cons.inj (List.cons.inj htypes).2).1
    exact .statement (.store memory stores
      (Expression.typed_effectiveAddress (htyped base List.mem_cons_self) hbase _)
      (htyped e (List.mem_cons_of_mem _ List.mem_cons_self)) hvalue)
  | memorySize memory =>
    cases hbecomes
    exact .value (.memorySize memory)
  | memoryGrow memory =>
    cases hbecomes with | memoryGrow delta =>
    exact .value
      (.memoryGrow memory (htyped delta List.mem_cons_self) (List.singleton_inj.mp htypes))
  | memoryCopy memory =>
    cases hbecomes
    exact .statement (.memoryCopy memory ⟨htyped, htypes⟩)
  | memoryFill memory =>
    cases hbecomes
    exact .statement (.memoryFill memory ⟨htyped, htypes⟩)

/-! ### Fresh temporaries -/

namespace Scope

theorem more_nil (Γ : Scope) : Γ.more [] = Γ := by simp [more]

theorem more_more (Γ : Scope) (ts us : List Temp) : (Γ.more ts).more us = Γ.more (ts ++ us) := by
  simp [more]

theorem size_temps_more (Γ : Scope) (ts : List Temp) :
    (Γ.more ts).temps.size = Γ.temps.size + ts.length := by
  simp [more]

theorem found_first (Γ : Scope) (t : Temp) (ts : List Temp) :
    (Γ.more (t :: ts)).temps[Γ.temps.size]? = some t := by
  simp [more]

end Scope

namespace Build

theorem declares_freshTemps (kind : TempKind) (types : List ValueType) :
    ∀ Γ : Scope, (Γ.more (freshTemps kind Γ.temps.size types)).Declares kind
      (List.range' Γ.temps.size types.length) types := by
  induction types with
  | nil => exact fun _ => .nil
  | cons type types ih =>
    intro Γ
    have hrest := ih (Γ.more [⟨Γ.temps.size, type, kind⟩])
    rw [Scope.more_more, Scope.size_temps_more] at hrest
    exact .cons (Scope.found_first Γ _ _) hrest

theorem map_id_freshTemps (kind : TempKind) (types : List ValueType) (first : Nat) :
    (freshTemps kind first types).map Temp.id = List.range' first types.length := by
  induction types generalizing first with
  | nil => rfl
  | cons type types ih =>
    rw [freshTemps, List.map_cons, ih, List.length_cons, List.range'_succ]

@[simp] theorem length_freshTemps (kind : TempKind) (types : List ValueType) (first : Nat) :
    (freshTemps kind first types).length = types.length := by
  rw [← List.length_map Temp.id, map_id_freshTemps, List.length_range']

theorem typed_refs {kind : TempKind} {ids : List Nat} {types : List ValueType}
    (h : Γ.Declares kind ids types) : ∀ e ∈ refs ids types, e.Typed Γ .value := by
  induction h with
  | nil => exact fun e he => absurd he List.not_mem_nil
  | cons found _ ih => exact List.forall_mem_cons.mpr ⟨.tempRef found, ih⟩

/-! ### What is settled -/

/-- What is made of pending operands is typed in the scope of the new temporaries. -/
structure Settling.Typed (Γ : Scope) (s : Settling) : Prop where
  operands : ∀ e ∈ s.operands, e.Typed (Γ.more s.temps) .value
  statements : ∀ t ∈ s.statements, t.Typed (Γ.more s.temps)
  temps : s.temps.map Temp.id = List.range' Γ.temps.size s.temps.length

theorem typed_pending {es : List Expression} (h : ∀ e ∈ es, e.Typed Γ .value) :
    Settling.Typed Γ ⟨es, [], []⟩ where
  operands := by rwa [Scope.more_nil]
  statements := fun t ht => absurd ht List.not_mem_nil
  temps := rfl

theorem typed_settling (es : List Expression) : ∀ Γ : Scope, (∀ e ∈ es, e.Typed Γ .value) →
    (settling Γ.temps.size es).Typed Γ := by
  induction es with
  | nil => exact fun Γ h => typed_pending h
  | cons e es ih =>
    intro Γ h
    obtain ⟨he, hes⟩ := List.forall_mem_cons.mp h
    unfold settling
    split
    · obtain ⟨operands, statements, temps⟩ := ih Γ hes
      exact ⟨List.forall_mem_cons.mpr ⟨he.more _, operands⟩, statements, temps⟩
    -- What follows is settled where the new temporary is in scope.
    · let t : Temp := ⟨Γ.temps.size, e.type, .value⟩
      obtain ⟨operands, statements, temps⟩ := ih (Γ.more [t]) fun e' he' => (hes e' he').more _
      rw [Scope.more_more, Scope.size_temps_more] at operands statements
      rw [Scope.size_temps_more] at temps
      have hfound := Scope.found_first Γ t (settling (Γ.temps.size + 1) es).temps
      refine ⟨List.forall_mem_cons.mpr ⟨.tempRef hfound, operands⟩,
        List.forall_mem_cons.mpr ⟨.define (.single (he.more _)) (.cons hfound .nil), statements⟩,
          ?_⟩
      exact congrArg (Γ.temps.size :: ·) temps

theorem Settling.Typed.emit {s : Settling} (h : s.Typed Γ) {ss : List Statement}
    (hss : ∀ t ∈ ss, t.Typed (Γ.more s.temps)) : (s.emit ss).Typed Γ :=
  ⟨h.operands, List.forall_mem_append.mpr ⟨h.statements, hss⟩, h.temps⟩

theorem Settling.Typed.push {s : Settling} (h : s.Typed Γ) {es : List Expression}
    (hes : ∀ e ∈ es, e.Typed (Γ.more s.temps) .value) :
    Settling.Typed Γ { s with operands := es } :=
  ⟨hes, h.statements, h.temps⟩

theorem typed_settlingIf (needed : Bool) {es : List Expression} (h : ∀ e ∈ es, e.Typed Γ .value) :
    (settlingIf needed Γ.temps.size es).Typed Γ := by
  cases needed with
  | true => exact typed_settling es Γ h
  | false => exact typed_pending h

theorem typed_settlingWork {es : List Expression} {w : Work} (hes : ∀ e ∈ es, e.Typed Γ .value)
    (hw : w.Typed Γ) : (settlingWork Γ.temps.size es w).Typed Γ := by
  cases hw with
  | value value =>
    exact typed_pending (List.forall_mem_append.mpr ⟨hes, List.forall_mem_singleton.mpr value⟩)
  | statement statement =>
    exact (typed_settling es Γ hes).emit (List.forall_mem_singleton.mpr (statement.more _))
  | @results function args types call =>
    obtain ⟨operands, statements, temps⟩ := typed_settling es Γ hes
    have hdeclares := declares_freshTemps .value types (Γ.more (settling Γ.temps.size es).temps)
    rw [Scope.more_more, Scope.size_temps_more] at hdeclares
    refine ⟨List.forall_mem_append.mpr ⟨fun e he => ?_, typed_refs hdeclares⟩,
      List.forall_mem_append.mpr ⟨fun t ht => ?_, List.forall_mem_singleton.mpr ?_⟩, ?_⟩
    · rw [settlingWork, ← Scope.more_more]
      exact (operands e he).more _
    · rw [settlingWork, ← Scope.more_more]
      exact (statements t ht).more _
    · exact .define (call.more _) hdeclares
    · simp only [settlingWork, List.map_append, temps, map_id_freshTemps, List.length_append,
        length_freshTemps, List.range'_append_1]

theorem typed_effects {es : List Expression} (h : ∀ e ∈ es, e.Typed Γ .value) :
    ∀ t ∈ effects es, t.Typed Γ := by
  intro t ht
  obtain ⟨e, he, rfl⟩ := List.mem_map.mp ht
  exact .evaluate (.single (h e (List.mem_of_mem_filter he)))

end Build

/-! ### Open blocks -/

/-- What a body refers to when some temporaries have been made. -/
def Context.scope (ctx : Context) (temps : Array Temp) : Scope :=
  ⟨ctx.module, ctx.localTypes, ctx.type.results, temps⟩

/-- An open block whose parts fit together. -/
structure Frame.Typed (Γ : Scope) (f : Frame) : Prop where
  body : ∀ s ∈ f.body.toList, s.Typed Γ
  firstArm : ∀ ss ∈ f.firstArm, ∀ s ∈ ss, s.Typed Γ
  condition : ∀ e ∈ f.condition, e.Typed Γ .value ∧ e.type = .i32
  resultSlots : f.kind ≠ .function → Γ.Declares .slot f.resultSlots f.results
  paramSlots : f.kind = .loop → Γ.Declares .slot f.paramSlots f.params
  paramValues : ∀ e ∈ f.paramValues, e.Typed Γ .value
  results : f.kind = .function → f.results = Γ.results

namespace Frame.Typed

variable {f : Frame}

theorem more (h : f.Typed Γ) (ts : List Temp) : f.Typed (Γ.more ts) where
  body s hs := (h.body s hs).more ts
  firstArm ss hss s hs := (h.firstArm ss hss s hs).more ts
  condition e he := ⟨(h.condition e he).1.more ts, (h.condition e he).2⟩
  resultSlots hkind := (h.resultSlots hkind).more ts
  paramSlots hkind := (h.paramSlots hkind).more ts
  paramValues e he := (h.paramValues e he).more ts
  results := h.results

theorem add (h : f.Typed Γ) {ss : List Statement} (hss : ∀ s ∈ ss, s.Typed Γ) :
    (f.add ss).Typed Γ :=
  { h with
    body := by
      rw [Frame.toList_body_add]
      exact List.forall_mem_append.mpr ⟨h.body, hss⟩ }

theorem dead (h : f.Typed Γ) : f.dead.Typed Γ := { h with }

theorem mark (h : f.Typed Γ) (targeted : Bool) : (f.mark targeted).Typed Γ := { h with }

/-- The end of an arm writes the results to their slots. -/
theorem finished (h : f.Typed Γ) {pend : List Expression} (hpend : ∀ e ∈ pend, e.Typed Γ .value)
    (hkind : f.kind ≠ .function)
    (types : f.unreachable = false → pend.map Expression.type = f.results) :
    (Build.finished f pend).Typed Γ := by
  unfold Build.finished
  split
  · exact h
  · next hlive =>
    refine h.add ?_
    unfold Build.assignments
    split
    · exact fun s hs => absurd hs List.not_mem_nil
    · refine List.forall_mem_singleton.mpr (.assign ⟨hpend, rfl⟩ ?_)
      rw [types (Bool.eq_false_iff.mpr hlive)]
      exact h.resultSlots hkind

theorem secondArm (h : f.Typed Γ) : (Build.secondArm f).Typed Γ :=
  { h with
    body := fun s hs => absurd hs List.not_mem_nil
    firstArm := by
      rintro _ ⟨⟩
      exact h.body }

theorem toStatement (h : f.Typed Γ) : f.toStatement.Typed Γ := by
  have hcondition : (f.condition.getD (.constant .i32 0)).Typed Γ .value
      ∧ (f.condition.getD (.constant .i32 0)).type = .i32 := by
    cases hc : f.condition with
    | none => exact ⟨Expression.typed_constant .i32 0, rfl⟩
    | some c => exact h.condition c hc
  obtain ⟨hc, htype⟩ := hcondition
  have hfirst := h.firstArm
  unfold Frame.toStatement
  split
  · exact .loop h.body
  · split
    · next hyes => exact .conditional hc htype (hfirst _ hyes) h.body
    · exact .conditional hc htype h.body fun s hs => absurd hs List.not_mem_nil
  · exact .block h.body

end Frame.Typed

/-- An open block that fits together, and so do its operands. -/
structure Layer.Typed (Γ : Scope) (l : Layer) : Prop where
  frame : l.frame.Typed Γ
  pend : ∀ e ∈ l.pend, e.Typed Γ .value

theorem Layer.Typed.more {l : Layer} (h : l.Typed Γ) (ts : List Temp) : l.Typed (Γ.more ts) :=
  ⟨h.frame.more ts, fun e he => (h.pend e he).more ts⟩

theorem Layer.typed_target {ls : List Layer} (h : ∀ l ∈ ls, l.Typed Γ) (targets : Nat → Bool) :
    ∀ l ∈ Layer.target targets ls, l.Typed Γ := by
  intro l hl
  obtain ⟨l₀, hl₀, targeted, rfl⟩ := Layer.exists_of_mem_target hl
  exact ⟨(h l₀ hl₀).frame.mark targeted, (h l₀ hl₀).pend⟩

/-- All that is pending or built so far is typed, and temporaries are numbered from zero. -/
structure Draft.Typed (ctx : Context) (d : Draft) : Prop where
  layers : ∀ l ∈ d.layers, l.Typed (ctx.scope d.temps)
  temps : d.temps.toList.map Temp.id = List.range d.temps.size

namespace Build

theorem typed_branchTo {f : Frame} (hf : f.Typed Γ) {es : List Expression} (depth : Nat)
    (hes : Γ.Yields es f.labelTypes) : (branchTo depth f es).Typed Γ := by
  obtain ⟨htyped, htypes⟩ := hes
  rw [Frame.labelTypes] at htypes
  unfold branchTo
  cases hkind : f.kind with
  | function =>
    rw [hkind] at htypes
    exact ⟨htyped, fun hmode => (hmode rfl).elim, fun _ => ⟨rfl, htypes.trans (hf.results hkind)⟩⟩
  | loop =>
    rw [hkind] at htypes
    refine ⟨htyped, fun _ => ?_, by rintro ⟨⟩⟩
    rw [htypes]
    exact hf.paramSlots hkind
  | block =>
    rw [hkind] at htypes
    refine ⟨htyped, fun _ => ?_, by rintro ⟨⟩⟩
    rw [htypes]
    exact hf.resultSlots (by rw [hkind]; rintro ⟨⟩)
  | conditional =>
    rw [hkind] at htypes
    refine ⟨htyped, fun _ => ?_, by rintro ⟨⟩⟩
    rw [htypes]
    exact hf.resultSlots (by rw [hkind]; rintro ⟨⟩)

theorem typed_branchAt {fs : List Frame} (hfs : ∀ f ∈ fs, f.Typed Γ) {es : List Expression}
    {depth : Nat} (hes : ∀ e ∈ es, e.Typed Γ .value)
    (target : fs[depth]?.map Frame.labelTypes = some (es.map Expression.type)) :
    (branchAt fs es depth).Typed Γ := by
  obtain ⟨f, hf, htypes⟩ := Option.map_eq_some_iff.mp target
  rw [branchAt, hf]
  exact typed_branchTo (hfs f (List.mem_of_getElem? hf)) depth ⟨hes, htypes.symm⟩

/-! ### Steps -/

variable {ctx : Context} {temps : Array Temp}

/-- What an instruction makes of typed operands is typed. -/
theorem typed_straight {fs : List Frame} {i : Instruction} {pend : List Expression} {o : Outcome}
    (hfs : ∀ f ∈ fs, f.Typed (ctx.scope temps))
    (hpend : ∀ e ∈ pend, e.Typed (ctx.scope temps) .value)
    (h : Straight ctx fs temps.size i pend o) : o.toSettling.Typed (ctx.scope temps) := by
  cases h with
  | nop => exact typed_pending hpend
  | @work i type rest es w signature types made gives =>
    obtain ⟨hrest, hes⟩ := List.forall_mem_append.mp hpend
    have hw : w.Typed (ctx.scope temps) := typed_work signature ⟨hes, types⟩ made
    exact typed_settlingWork hrest hw
  | drop =>
    obtain ⟨hrest, he⟩ := List.forall_mem_append.mp hpend
    exact (typed_settlingIf _ hrest).emit (typed_effects fun e' he' => (he e' he').more _)
  | @select rest rest' condition a b needed type operands same quiet =>
    obtain ⟨hrest, hc⟩ := List.forall_mem_append.mp hpend
    have hsettled : (settlingIf needed temps.size rest).Typed (ctx.scope temps) :=
      typed_settlingIf needed hrest
    -- The two values are below the condition, so they have been settled with the rest.
    have hoperands := hsettled.operands
    rw [operands, List.forall_mem_append] at hoperands
    obtain ⟨hrest', hab⟩ := hoperands
    refine hsettled.push (List.forall_mem_append.mpr ⟨hrest', List.forall_mem_singleton.mpr ?_⟩)
    have ha := hab _ List.mem_cons_self
    have hb := hab _ (List.mem_cons_of_mem _ List.mem_cons_self)
    exact .select ((hc _ List.mem_cons_self).more _) ha hb type same rfl
  | unreachable =>
    refine ⟨fun e he => absurd he List.not_mem_nil, List.forall_mem_append.mpr ⟨?_, ?_⟩, rfl⟩
    · exact typed_effects fun e he => (hpend e he).more _
    · exact List.forall_mem_singleton.mpr .unreachable
  | br target =>
    obtain ⟨hrest, hes⟩ := List.forall_mem_append.mp hpend
    refine ⟨fun e he => absurd he List.not_mem_nil, List.forall_mem_append.mpr ⟨?_, ?_⟩, rfl⟩
    · exact typed_effects fun e he => (hrest e he).more _
    · exact List.forall_mem_singleton.mpr (.branch ((typed_branchAt hfs hes target).more _))
  | ret types =>
    obtain ⟨hrest, hes⟩ := List.forall_mem_append.mp hpend
    refine ⟨fun e he => absurd he List.not_mem_nil, List.forall_mem_append.mpr ⟨?_, ?_⟩, rfl⟩
    · exact typed_effects fun e he => (hrest e he).more _
    · exact List.forall_mem_singleton.mpr (.leave ⟨fun e he => (hes e he).more _, types⟩)
  | @brIf rest rest' es depth condition type operands target =>
    obtain ⟨hrest, hc⟩ := List.forall_mem_append.mp hpend
    have hsettled : (settling temps.size rest).Typed (ctx.scope temps) :=
      typed_settling rest (ctx.scope temps) hrest
    have hoperands := hsettled.operands
    rw [operands, List.forall_mem_append] at hoperands
    refine hsettled.emit (List.forall_mem_singleton.mpr ?_)
    exact .branchIf ((hc _ List.mem_cons_self).more _) type
      (typed_branchAt (fun f hf => (hfs f hf).more _) hoperands.2 target)
  | @brTable rest rest' es default depths index type operands targets =>
    obtain ⟨hrest, hindex⟩ := List.forall_mem_append.mp hpend
    have hsettled : (settling temps.size rest).Typed (ctx.scope temps) :=
      typed_settling rest (ctx.scope temps) hrest
    have hoperands := hsettled.operands
    rw [operands, List.forall_mem_append] at hoperands
    -- All targets take the same values, which have been settled once.
    have hbranch {d : Nat} (hd : d ∈ depths ++ [default]) :=
      typed_branchAt (fun f hf => (hfs f hf).more _) hoperands.2
        (targets d hd)
    refine (hsettled.emit (List.forall_mem_singleton.mpr ?_)).push fun e he =>
      absurd he List.not_mem_nil
    refine .branchTable ((hindex _ List.mem_cons_self).more _) type ?_
      (hbranch (List.mem_append_right _ List.mem_cons_self))
    intro b hb
    obtain ⟨d, hd, rfl⟩ := List.mem_map.mp hb
    exact hbranch (List.mem_append_left _ hd)

/-- More temporaries are numbered on. -/
theorem numbered_append {ts : List Temp} (htemps : temps.toList.map Temp.id = List.range temps.size)
    (hts : ts.map Temp.id = List.range' temps.size ts.length) :
    (temps ++ ts.toArray).toList.map Temp.id = List.range (temps ++ ts.toArray).size := by
  have hsplit : List.range temps.size ++ List.range' temps.size ts.length
      = List.range (temps.size + ts.length) := by
    rw [List.range_eq_range', List.range_eq_range', ← List.range'_append_1, Nat.zero_add]
  simp [htemps, hts, hsplit]

/-- What opens with a block is typed. -/
theorem typed_opening {kind : FrameKind} {type : BlockType} {condition : Option Expression}
    {params : List Expression} (height label : Nat) (hkind : kind ≠ .function)
    (hparams : (ctx.scope temps).Yields params type.params)
    (hcondition : ∀ e ∈ condition, e.Typed (ctx.scope temps) .value ∧ e.type = .i32) :
    ∃ ts : List Temp, ts.map Temp.id = List.range' temps.size ts.length ∧
      let o := opening kind type condition params height label temps
      o.temps = temps ++ ts.toArray ∧ o.frame.Typed (ctx.scope o.temps)
        ∧ (∀ e ∈ o.operands, e.Typed (ctx.scope o.temps) .value)
        ∧ ∀ s ∈ o.before, s.Typed (ctx.scope o.temps) := by
  let Γ := ctx.scope temps
  let carried := if kind = .loop then type.params else []
  let ts := freshTemps .slot Γ.temps.size type.results
  let us := freshTemps .slot (Γ.more ts).temps.size carried
  have hresults :
      ((Γ.more ts).more us).Declares .slot (List.range' Γ.temps.size type.results.length)
      type.results := (declares_freshTemps .slot type.results Γ).more us
  have hcarried : ((Γ.more ts).more us).Declares .slot
      (List.range' (Γ.more ts).temps.size carried.length) carried :=
    declares_freshTemps .slot carried (Γ.more ts)
  have hparams' : ((Γ.more ts).more us).Yields params type.params := (hparams.more ts).more us
  have htemps : (opening kind type condition params height label temps).temps
      = temps ++ (ts ++ us).toArray := by
    have hassoc : temps ++ (ts ++ us).toArray = temps ++ ts.toArray ++ us.toArray := by simp
    rw [hassoc]
    rfl
  have hscope : ctx.scope (opening kind type condition params height label temps).temps
      = (Γ.more ts).more us := rfl
  have hids : (ts ++ us).map Temp.id = List.range' temps.size (ts ++ us).length := by
    simp only [ts, us, List.map_append, map_id_freshTemps, List.length_append, length_freshTemps,
      Scope.size_temps_more, List.range'_append_1]
    rfl
  have hframe : (opening kind type condition params height label temps).frame.Typed
      ((Γ.more ts).more us) :=
    { body := fun s hs => absurd hs List.not_mem_nil
      firstArm := by rintro _ ⟨⟩
      condition := fun e he => ⟨((hcondition e he).1.more ts).more us, (hcondition e he).2⟩
      resultSlots := fun _ => hresults
      paramSlots := by
        intro hloop
        have hkind : kind = .loop := hloop
        simp only [carried, if_pos hkind] at hcarried
        simp only [opening, if_pos hkind]
        exact hcarried
      paramValues := hparams'.1
      results := fun hfunction => (hkind hfunction).elim }
  refine ⟨ts ++ us, hids, htemps, ?_⟩
  rw [hscope]
  -- Only a loop copies its parameters, to the slots that a branch to it writes.
  by_cases hloop : kind = .loop
  · simp only [carried, if_pos hloop] at hcarried
    refine ⟨hframe, ?_, ?_⟩
    · simp only [opening, if_pos hloop]
      exact typed_refs hcarried
    · simp only [opening, if_pos hloop, assignments]
      split
      · exact fun s hs => absurd hs List.not_mem_nil
      · exact List.forall_mem_singleton.mpr (.assign hparams' hcarried)
  · refine ⟨hframe, ?_, ?_⟩
    · simp only [opening, if_neg hloop]
      exact hparams'.1
    · simp only [opening, if_neg hloop, assignments]
      exact fun s hs => absurd hs List.not_mem_nil

/-- Each step keeps what is pending or built so far typed. -/
theorem typed_step {i : Instruction} {d d' : Draft} (hd : d.Typed ctx) (h : Step ctx i d d') :
    d'.Typed ctx := by
  obtain ⟨layers, numbered⟩ := hd
  cases h with
  | @straight i f pend ls temps label o live outcome =>
    obtain ⟨⟨hf, hpend⟩, hls⟩ := List.forall_mem_cons.mp layers
    have hfs : ∀ g ∈ f :: ls.map Layer.frame, g.Typed (ctx.scope temps) := by
      refine List.forall_mem_cons.mpr ⟨hf, fun g hg => ?_⟩
      obtain ⟨l, hl, rfl⟩ := List.mem_map.mp hg
      exact (hls l hl).frame
    obtain ⟨operands, statements, hids⟩ := typed_straight hfs hpend outcome
    have hadd := (hf.more o.temps).add statements
    have hlayer : (o.layer f).Typed ((ctx.scope temps).more o.temps) := by
      refine ⟨?_, operands⟩
      unfold Outcome.layer
      dsimp only
      split
      · exact hadd
      · exact hadd.dead
    have hlayers := List.forall_mem_cons.mpr ⟨hlayer, fun l hl => (hls l hl).more o.temps⟩
    exact ⟨Layer.typed_target hlayers (decide <| · ∈ o.depths), numbered_append numbered hids⟩
  | @enter i kind type condition f pend rest params ls temps label live opens operands types =>
    obtain ⟨⟨hf, hpend⟩, hls⟩ := List.forall_mem_cons.mp layers
    obtain ⟨hpend, hcondition⟩ := List.forall_mem_append.mp hpend
    -- What is pending is bound first, and the slots of the block come after that.
    have hsettled : (settling temps.size pend).Typed (ctx.scope temps) :=
      typed_settling pend (ctx.scope temps) hpend
    have hoperands := hsettled.operands
    rw [operands, List.forall_mem_append] at hoperands
    have hkind : kind ≠ .function := by
      cases opens <;> rintro ⟨⟩
    have hisI32 : ∀ e ∈ condition, e.type = .i32 := by
      cases opens with
      | ifBlock type isI32 =>
        rintro _ ⟨⟩
        exact isI32
      | _ => rintro _ ⟨⟩
    have hyields : (ctx.scope (temps ++ (settling temps.size pend).temps.toArray)).Yields params
        type.params := ⟨hoperands.2, types⟩
    obtain ⟨us, hus, htemps, hframe, hopened, hbefore⟩ :=
      typed_opening (Layer.stack (⟨f, rest⟩ :: ls)).length label hkind hyields fun e he =>
        ⟨(hcondition e (Option.mem_toList.mpr he)).more _, hisI32 e he⟩
    have hscope :
        ctx.scope (opening kind type condition params (Layer.stack (⟨f, rest⟩ :: ls)).length
        label (temps ++ (settling temps.size pend).temps.toArray)).temps
        = ((ctx.scope temps).more (settling temps.size pend).temps).more us :=
      congrArg ctx.scope htemps
    rw [hscope] at hframe hopened hbefore
    refine ⟨?_, ?_⟩
    · dsimp only [Opening.draft]
      rw [hscope]
      refine List.forall_mem_cons.mpr ⟨⟨hframe, hopened⟩, List.forall_mem_cons.mpr ⟨⟨?_, ?_⟩, ?_⟩⟩
      · exact (((hf.more _).add hsettled.statements).more us).add hbefore
      · exact fun e he => (hoperands.1 e he).more us
      · exact fun l hl => ((hls l hl).more _).more us
    · dsimp only [Opening.draft]
      rw [htemps]
      exact numbered_append (numbered_append numbered hsettled.temps) hus
  | @second f pend ls temps label kind first types =>
    obtain ⟨⟨hf, hpend⟩, hls⟩ := List.forall_mem_cons.mp layers
    have hkind : f.kind ≠ .function := by
      rw [kind]
      rintro ⟨⟩
    exact ⟨List.forall_mem_cons.mpr
      ⟨⟨(hf.finished hpend hkind types).secondArm, hf.paramValues⟩, hls⟩, numbered⟩
  | @leave f pend l ls temps label kind arms types =>
    obtain ⟨⟨hf, hpend⟩, hl, hls⟩ :
        Layer.Typed _ ⟨f, pend⟩ ∧ l.Typed _ ∧ ∀ l ∈ ls, l.Typed (ctx.scope temps) := by
      simpa only [List.forall_mem_cons] using layers
    have hfinished := hf.finished hpend kind types
    have hadd := hl.frame.add (List.forall_mem_singleton.mpr hfinished.toStatement)
    have hkind : (finished f pend).kind ≠ .function := by
      obtain ⟨ss, hss⟩ := exists_finished f pend
      rw [hss]
      exact kind
    refine ⟨List.forall_mem_cons.mpr ⟨?_, hls⟩, numbered⟩
    -- What follows a block is not reached unless its end is or a branch goes to it.
    unfold resumed
    dsimp only
    split
    · exact ⟨hadd, List.forall_mem_append.mpr ⟨hl.pend, typed_refs (hfinished.resultSlots hkind)⟩⟩
    · exact ⟨hadd.dead, fun e he => absurd he List.not_mem_nil⟩

theorem typed_start (type : FunctionType) (h : ctx.type = type) : (Draft.start type).Typed ctx where
  layers := by
    refine List.forall_mem_singleton.mpr ⟨?_, fun e he => absurd he List.not_mem_nil⟩
    exact
      { body := fun s hs => absurd hs List.not_mem_nil
        firstArm := by rintro _ ⟨⟩
        condition := by rintro _ ⟨⟩
        resultSlots := fun hkind => (hkind rfl).elim
        paramSlots := by rintro ⟨⟩
        paramValues := fun e he => absurd he List.not_mem_nil
        results := fun _ => congrArg FunctionType.results h.symm }
  temps := rfl

end Build

/-! ### Functions and modules -/

open Build

/-- Each function that is built is typed. -/
theorem Function.typed_of_build {m : Module} {index : Nat} {fn : Function}
    (h : buildFunction m index = .ok fn) : fn.Typed m := by
  obtain ⟨type, body, f, pend, temps, label, htype, hsteps, hkind, htypes, hfn⟩ :=
    exists_steps_of_build h
  obtain ⟨layers, numbered⟩ := hsteps.keeps typed_step (typed_start type rfl)
  obtain ⟨hf, hpend⟩ := List.forall_mem_singleton.mp layers
  have hresults := hf.results hkind
  have hscope :
      fn.scope m = Context.scope ⟨m, index, fn.name, type, type.params.toArray ++ body.locals⟩
      temps := by
    rw [hfn]
    simp [Function.scope, Context.scope]
  -- The body ends as its last block does, or with a `leave` of what is pending there.
  have hbody : ∀ s ∈ finishedBody f pend, s.Typed (fn.scope m) := by
    rw [hscope]
    unfold finishedBody
    split
    · exact hf.body
    · next hlive =>
      rw [not_or, Bool.not_eq_true] at hlive
      refine List.forall_mem_append.mpr
        ⟨hf.body, List.forall_mem_singleton.mpr (.leave ⟨hpend, ?_⟩)⟩
      rw [htypes hlive.1, hresults]
  refine ⟨?_, ?_, ?_⟩
  · rw [hfn]
    exact htype
  · rw [hfn]
    exact numbered
  · rw [hfn] at hbody ⊢
    exact hbody

/-- Functions whose opcodes are known are built or found at fault, one by one. -/
theorem exists_buildAll {m : Module} : ∀ {indices : List Nat},
    (∀ index ∈ indices, ∀ e, buildFunction m index ≠ .error (.access e)) →
      ∃ r, buildAll m indices = .ok r ∧
        ∀ f ∈ r.functions, ∃ index ∈ indices, buildFunction m index = .ok f := by
  intro indices
  induction indices with
  | nil => exact fun _ => ⟨{}, rfl, fun f hf => absurd hf List.not_mem_nil⟩
  | cons index rest ih =>
    intro h
    obtain ⟨hindex, hrest⟩ := List.forall_mem_cons.mp h
    obtain ⟨r, hr, hfrom⟩ := ih hrest
    have hlater : ∀ f ∈ r.functions, ∃ i ∈ index :: rest, buildFunction m i = .ok f := by
      intro f hf
      obtain ⟨i, hi, hbuild⟩ := hfrom f hf
      exact ⟨i, List.mem_cons_of_mem _ hi, hbuild⟩
    rw [buildAll, hr]
    cases hbuild : buildFunction m index with
    | ok f =>
      exact ⟨_, rfl, List.forall_mem_cons.mpr ⟨⟨index, List.mem_cons_self, hbuild⟩, hlater⟩⟩
    | error e =>
      cases e with
      | access e => exact (hindex e hbuild).elim
      | invalid e => exact ⟨_, rfl, hlater⟩

/-- A module that is read from bytes is built, and what is built of it is typed and has the types
that the module gives its functions. -/
theorem built_module_typed {bytes : ByteArray} {m : Module} (h : Module.decode bytes = .ok m) :
    ∃ r, buildModule m = .ok r ∧ ∀ f ∈ r.functions, f.Typed m := by
  have hwell := Module.wellFormed_of_decode h
  have haccess : ∀ index ∈ (List.range m.bodies.size).map (m.imports.size + ·),
      ∀ e, buildFunction m index ≠ .error (.access e) := by
    intro index hindex e
    obtain ⟨i, hi, rfl⟩ := List.mem_map.mp hindex
    have hlt : i < m.functions.size := hwell.bodyCount ▸ List.mem_range.mp hi
    obtain ⟨type, body, htype, hbody, hbodyWell⟩ := hwell.exists_function hlt
    have hcases := buildBody_cases m (m.imports.size + i) (m.exportNames (m.imports.size + i)).head?
      type (fun l hl => (hbodyWell.instructions l hl).known) hbodyWell.closes
    rw [buildFunction_eq htype hbody]
    split at hcases
    · obtain ⟨f, hf⟩ := hcases
      rw [hf]
      rintro ⟨⟩
    · obtain ⟨fault, hfault, -⟩ := hcases
      rw [hfault]
      rintro ⟨⟩
  obtain ⟨r, hr, hfrom⟩ := exists_buildAll haccess
  refine ⟨r, hr, fun f hf => ?_⟩
  obtain ⟨index, -, hbuild⟩ := hfrom f hf
  exact Function.typed_of_build hbuild

/-- Both functions of the sample module are built, and they are typed. -/
theorem built_module_typed_sample :
    ∃ r, buildModule Module.sample = .ok r ∧ r.functions.length = 2 ∧
      ∀ f ∈ r.functions, f.Typed Module.sample := by
  obtain ⟨r, hr, htyped⟩ := built_module_typed Module.decode_sample
  have hcount : (buildModule Module.sample).toOption.map (·.functions.length) = some 2 := by
    decide +kernel
  rw [hr] at hcount
  exact ⟨r, hr, Option.some.inj hcount, htyped⟩

end IR

end WasmScript
