/-
  WasmScript/Proofs/Script/Expressions.lean
  =========================================
  **Expressions in scripts** — that the script of an expression gives what the expression
  gives, and leaves the same variables and the same store.

  `WasmScript.Proofs.Script.Forms` compares the form of an operator with the operator where
  all operands give something.  An operand may fail as well, and then the form fails with it:
  it is evaluated once, and nothing that comes after it is.  From the operands the lemmas
  build up the expressions, used as values, as conditions and as unsigned addresses.  Calls
  and accesses are those of the body, as both hand over the same arguments.
-/
import WasmScript.Proofs.IR.Sizes
import WasmScript.Proofs.Run.Operands
import WasmScript.Proofs.Script.Accesses
import WasmScript.Script.Execution

namespace WasmScript

/-- What a variable holds is what it was assigned. -/
@[simp] theorem Scalar.toCell?_ofCell (c : Cell) : (Scalar.ofCell c).toCell? = some c := by
  rcases c with (n | n) | _
  · have hsign : (Number.ofInt n).isNegativeZero = false := by
      unfold Number.isNegativeZero Number.ofInt
      split
      · next h => simp_all; omega
      · rfl
    simp [ofCell, ofValue, toCell?, hsign, (Number.Represents.ofInt n).toInteger?]
  · rfl
  · rfl

namespace Script

open IR (Expression Operand Run Surroundings Variables)
open IR.Expression (usesAll usesAll_subset)
open IR.Run (Unwatched)

variable {σ : Type} {around : Surroundings σ} {s s₁ s₂ : Variables σ} {t u f : Term}
variable {e : Failure}

/-! ### Operands that fail -/

theorem binary_fails_left (symbol : Symbol) (h : t.evaluate around s = .error e s₁) :
    (Term.binary symbol t u).evaluate around s = .error e s₁ := by
  simp [Term.evaluate, bind, EStateM.bind, h]

theorem binary_fails_right (symbol : Symbol) {d : Datum}
    (ht : t.evaluate around s = .ok d s₁) (hu : u.evaluate around s₁ = .error e s₂) :
    (Term.binary symbol t u).evaluate around s = .error e s₂ := by
  simp [Term.evaluate, bind, EStateM.bind, ht, hu]

theorem call_fails_first (callee : Callee) (ts : List Term)
    (h : t.evaluate around s = .error e s₁) :
    (Term.call callee (t :: ts)).evaluate around s = .error e s₁ := by
  simp [Term.evaluate, Term.evaluateAll, bind, EStateM.bind, h]

theorem call_fails_second (callee : Callee) (ts : List Term) {d : Datum}
    (ht : t.evaluate around s = .ok d s₁) (hu : u.evaluate around s₁ = .error e s₂) :
    (Term.call callee (t :: u :: ts)).evaluate around s = .error e s₂ := by
  simp [Term.evaluate, Term.evaluateAll, bind, EStateM.bind, ht, hu]

/-- An operand that is brought into a signed range fails as it would alone. -/
theorem toSigned_fails (width : Int) (h : t.evaluate around s = .error e s₁) :
    (Term.toSigned width t).evaluate around s = .error e s₁ :=
  call_fails_second _ _ rfl h

theorem unsignedForm_fails (type : ValueType) (h : t.evaluate around s = .error e s₁) :
    (unsignedForm type t).evaluate around s = .error e s₁ := by
  cases type with
  | i32 => exact binary_fails_left .ushr h
  | i64 => exact call_fails_second _ _ rfl h

theorem unaryForm_fails {op : NumericOp} (hf : unaryForm op t = .ok f)
    (h : t.evaluate around s = .error e s₁) : f.evaluate around s = .error e s₁ := by
  unfold unaryForm at hf
  split at hf <;> cases hf
  all_goals
    first
      | exact call_fails_first _ _ h
      | exact toSigned_fails _ h
      | exact binary_fails_left _ (binary_fails_left _ h)
      | exact call_fails_first _ _ (binary_fails_left _ h)

theorem binaryForm_fails_left {op : NumericOp} (hf : binaryForm op t u = .ok f)
    (h : t.evaluate around s = .error e s₁) : f.evaluate around s = .error e s₁ := by
  unfold binaryForm binaryForm32 binaryForm64 at hf
  split at hf
  all_goals
    split at hf <;> cases hf
    all_goals
      first
        | exact call_fails_first _ _ h
        | exact binary_fails_left _ h
        | exact binary_fails_left _ (binary_fails_left _ h)
        | exact toSigned_fails _ (binary_fails_left _ h)
        | exact toSigned_fails _ (binary_fails_left _ (unsignedForm_fails .i64 h))

theorem binaryForm_fails_right {op : NumericOp} (hf : binaryForm op t u = .ok f)
    {x : BitVec op.operand.width} (ht : t.EvaluatesTo around s (.ofInt op.operand x.toInt) s₁)
    (hu : u.evaluate around s₁ = .error e s₂) : f.evaluate around s = .error e s₂ := by
  obtain ⟨c, hc, -⟩ := evaluatesTo_unsignedForm op.operand ht
  obtain ⟨d, hd, -⟩ := ht
  unfold binaryForm at hf
  split at hf
  · unfold binaryForm32 at hf
    have hcount : (Term.count32 u).evaluate around s₁ = .error e s₂ := binary_fails_left _ hu
    -- In each form the right operand is evaluated after the left one, possibly inside a shift
    -- count.
    split at hf <;> cases hf
    all_goals
      first
        | exact call_fails_second _ _ hd hu
        | exact binary_fails_right _ hd hu
        | exact binary_fails_right _ hd hcount
        | exact binary_fails_left _ (binary_fails_right _ hd hu)
        | exact binary_fails_left _ (binary_fails_right _ hd hcount)
  · next htype =>
    unfold binaryForm64 at hf
    rw [htype] at hc
    have hcount : (Term.count64 u).evaluate around s₁ = .error e s₂ := binary_fails_left _ hu
    split at hf <;> cases hf
    all_goals
      first
        | exact call_fails_second _ _ hd hu
        | exact binary_fails_right _ hd hu
        | exact binary_fails_right _ hd hcount
        | exact toSigned_fails _ (binary_fails_right _ hd hu)
        | exact toSigned_fails _ (binary_fails_right _ hd hcount)
        | exact toSigned_fails _ (binary_fails_right _ hc hcount)

theorem comparisonForm_fails_left {op : NumericOp} (hf : comparisonForm op t u = .ok f)
    (h : t.evaluate around s = .error e s₁) : f.evaluate around s = .error e s₁ := by
  unfold comparisonForm at hf
  dsimp only at hf
  split at hf <;> cases hf
  all_goals
    first
      | exact binary_fails_left _ h
      | exact binary_fails_left _ (unsignedForm_fails _ h)

theorem comparisonForm_fails_right {op : NumericOp} (hf : comparisonForm op t u = .ok f)
    {x : BitVec op.operand.width} (ht : t.EvaluatesTo around s (.ofInt op.operand x.toInt) s₁)
    (hu : u.evaluate around s₁ = .error e s₂) : f.evaluate around s = .error e s₂ := by
  obtain ⟨c, hc, -⟩ := evaluatesTo_unsignedForm op.operand ht
  obtain ⟨d, hd, -⟩ := ht
  unfold comparisonForm at hf
  dsimp only at hf
  split at hf <;> cases hf
  all_goals
    first
      | exact binary_fails_right _ hd hu
      | exact binary_fails_right _ hc (unsignedForm_fails _ hu)

/-! ### What scripts of expressions give -/

def scalarOf (run : Run σ Cell) : Run σ Datum := do pure (.scalar (.ofCell (← run)))

/-- What a condition gives for the value of a run. -/
def truthOfRun (run : Run σ Cell) : Run σ Datum := do
  let n ← Run.toI32 (← run)
  pure (.truth (decide (n ≠ 0)))

variable {Γ : IR.Scope} {count : Nat} {known : List Nat} {F : Failure → Prop}
variable {a b : Expression} {c d : Cell} {n : Int} {role : IR.Role}

/-- From the states that fit, the script of an expression gives what the expression gives, as a
value and, for an `i32`, as a condition. -/
structure Evaluates (Γ : IR.Scope) (count : Nat) (known : List Nat) (around : Surroundings σ)
    (a : Expression) (t : Term) : Prop where
  value : ∀ s, s.Fits Γ count known →
    t.evaluate around s = scalarOf (IR.Run.evaluate around a) s
  condition : a.type = .i32 → ∀ s, s.Fits Γ count known →
    (asCondition a t).evaluate around s = truthOfRun (IR.Run.evaluate around a) s

theorem truthOfRun_ok {run : Run σ Cell} (h : run s = .ok c s₁) (hc : c.toValue = .i32 n) :
    truthOfRun run s = .ok (.truth (decide (n ≠ 0))) s₁ := by
  rw [truthOfRun, bind_at_ok h, IR.Run.toI32_eq hc]
  rfl

/-- A cell of a type stands for a word. -/
theorem exists_word {type : ValueType} (h : c.Fits type) :
    ∃ w : BitVec type.width, c.toValue = Operation.valueOf type w := Value.Fits.exists_word h

/-- The number of a typed expression of type `i32`, be it a value or an address. -/
theorem exists_i32_of_result (hta : a.Typed Γ role) (htype : a.type = .i32) (hc : a.ResultFits c) :
    ∃ n, c.toValue = .i32 n := by
  cases role with
  | value => exact IR.Run.exists_i32 (hta.fits_as htype hc)
  | address => exact hta.exists_address hc

theorem evaluatesTo_i32 (h : t.evaluate around s = .ok (.scalar (.ofCell c)) s₁)
    (hc : c.toValue = .i32 n) : t.EvaluatesTo around s (.i32 n) s₁ := by
  have hrepresents := Scalar.ofCell_represents c
  rw [hc] at hrepresents
  exact ⟨.ofCell c, h, hrepresents⟩

theorem toInteger?_ofCell (hc : c.toValue = .i32 n) :
    (Scalar.ofCell c).toInteger? .i32 = some n := by
  have hrepresents := Scalar.ofCell_represents c
  rw [hc] at hrepresents
  exact toInteger?_of_stands hrepresents

section

variable (ha : Unwatched Γ count F around)

include ha

/-- An expression and its script both fail, or they give the same. -/
theorem Evaluates.cases (h : Evaluates Γ count known around a t) (hta : a.Typed Γ role)
    (huses : a.uses ⊆ known) (hs : s.Fits Γ count known) :
    (∃ e s₁, IR.Run.evaluate around a s = .error e s₁ ∧ t.evaluate around s = .error e s₁) ∨
    ∃ c s₁, IR.Run.evaluate around a s = .ok c s₁ ∧
      t.evaluate around s = .ok (.scalar (.ofCell c)) s₁ ∧ a.ResultFits c ∧
      s₁.Fits Γ count known := by
  have ht := h.value s hs
  cases hrun : IR.Run.evaluate around a s with
  | error e s₁ => exact .inl ⟨e, s₁, rfl, ht.trans (bind_at_error hrun)⟩
  | ok c s₁ =>
    exact .inr
      ⟨c, s₁, rfl, ht.trans (bind_at_ok hrun), IR.Run.resultFits_of_ok ha hta huses hs hrun⟩

/-- Expressions that are no comparisons are compared with zero. -/
theorem Evaluates.of_value (hta : a.Typed Γ role) (huses : a.uses ⊆ known)
    (hplain : asCondition a t = .binary .unequal t (.number 0))
    (hvalue : ∀ s, s.Fits Γ count known →
      t.evaluate around s = scalarOf (IR.Run.evaluate around a) s) :
    Evaluates Γ count known around a t := by
  refine ⟨hvalue, ?_⟩
  intro htype s hs
  have ht := hvalue s hs
  rw [hplain]
  cases hrun : IR.Run.evaluate around a s with
  | error e s₁ =>
    rw [truthOfRun, bind_at_error hrun]
    exact binary_fails_left _ (ht.trans (bind_at_error hrun))
  | ok c s₁ =>
    have hc := (IR.Run.resultFits_of_ok ha hta huses hs hrun).1
    obtain ⟨n, hn⟩ := exists_i32_of_result hta htype hc
    rw [truthOfRun_ok hrun hn]
    have hterm := evaluatesTo_i32 (ht.trans (bind_at_ok hrun)) hn
    exact evaluate_relation .unequal rfl .i32 hterm (evaluatesTo_number 0)

/-! ### Operators -/

theorem evaluates_unary {op : NumericOp} (hop : op ∈ NumericOp.table)
    (hcategory : op.category = .unary ∨ op.category = .convert) (hta : a.Typed Γ .value)
    (htype : a.type = op.operand) (huses : a.uses ⊆ known)
    (iha : Evaluates Γ count known around a t) (hf : unaryForm op t = .ok f) :
    Evaluates Γ count known around (.unary op.result op a) f := by
  refine .of_value ha (.unary hop hcategory hta htype) huses rfl ?_
  intro s hs
  rw [IR.Run.evaluate, IR.Run.watched_eq ha.silent, scalarOf, bind_assoc]
  rcases iha.cases ha hta huses hs with ⟨e, s₁, hrun, ht⟩ | ⟨c, s₁, hrun, ht, hc, -⟩
  · rw [unaryForm_fails hf ht, bind_at_error hrun]
  · obtain ⟨w, hw⟩ := exists_word (hta.fits_as htype hc)
    obtain ⟨f', hf', hruns⟩ := exists_unaryForm hop hcategory (.of_cell hw ht)
    obtain rfl : f = f' := Except.ok.inj (hf.symm.trans hf')
    have happly : Operation.applyUnary op (.ofInt op.operand w.toInt)
        = Value.ofInt op.result <$> Operation.unary op.operator op.operand w.toInt := by
      rw [Operation.applyUnary, Operation.operand_ofInt]
      rfl
    rw [hruns, bind_at_ok hrun, hw, Operation.valueOf, happly]
    cases Operation.unary op.operator op.operand w.toInt <;> rfl

theorem evaluates_binary {op : NumericOp} (hop : op ∈ NumericOp.table)
    (hcategory : op.category = .binary) (hta : a.Typed Γ .value) (htb : b.Typed Γ .value)
    (htype : a.type = op.operand) (htype' : b.type = op.operand)
    (huses : a.uses ++ b.uses ⊆ known) (iha : Evaluates Γ count known around a t)
    (ihb : Evaluates Γ count known around b u) (hf : binaryForm op t u = .ok f) :
    Evaluates Γ count known around (.binary op.result op a b) f := by
  obtain ⟨husea, huseb⟩ := List.append_subset.mp huses
  have hregular := NumericOp.regular_of_mem op hop
  rw [NumericOp.Regular, hcategory] at hregular
  refine .of_value ha (.binary hop hcategory hta htb htype htype') huses rfl ?_
  intro s hs
  rw [IR.Run.evaluate, IR.Run.watched_eq ha.silent, scalarOf, bind_assoc]
  rcases iha.cases ha hta husea hs with ⟨e, s₁, hrun, ht⟩ | ⟨c, s₁, hrun, ht, hc, hs₁⟩
  · rw [binaryForm_fails_left hf ht, bind_at_error hrun]
  · obtain ⟨w, hw⟩ := exists_word (hta.fits_as htype hc)
    rw [bind_at_ok hrun, bind_assoc]
    rcases ihb.cases ha htb huseb hs₁ with ⟨e, s₂, hrun', hu⟩ | ⟨d, s₂, hrun', hu, hd, -⟩
    · rw [binaryForm_fails_right hf (.of_cell hw ht) hu, bind_at_error hrun']
    · obtain ⟨v, hv⟩ := exists_word (htb.fits_as htype' hd)
      obtain ⟨r, hr⟩ := Operation.isSome_combine hregular.1 w v
      rw [evaluate_binaryForm hregular.2 hf (.of_cell hw ht) (.of_cell hv hu) hr,
        bind_at_ok hrun', hw, hv, Operation.valueOf, Operation.valueOf,
        Operation.applyBinary_toInt hregular.2, hr]
      cases r <;> rfl

/-- What the bare condition of a comparison decides. -/
theorem comparison_cases {op : NumericOp} (hop : op ∈ NumericOp.table)
    (hcategory : op.category = .test ∨ op.category = .compare) (hta : a.Typed Γ .value)
    (htb : b.Typed Γ .value) (htype : a.type = op.operand) (htype' : b.type = op.operand)
    (huses : a.uses ++ b.uses ⊆ known) (iha : Evaluates Γ count known around a t)
    (ihb : Evaluates Γ count known around b u) (hf : comparisonForm op t u = .ok f)
    (hs : s.Fits Γ count known) :
    (∃ e s₁, IR.Run.evaluate around (.compare op a b) s = .error e s₁ ∧
      f.evaluate around s = .error e s₁) ∨
    ∃ holds s₁, IR.Run.evaluate around (.compare op a b) s
        = .ok (.plain (.i32 (if holds then 1 else 0))) s₁ ∧
      f.evaluate around s = .ok (.truth holds) s₁ := by
  obtain ⟨husea, huseb⟩ := List.append_subset.mp huses
  -- A test is a comparison with zero, so both categories have a comparison as operator.
  have hcompares : (op.operator = .eqz ∨ op.operator.isComparison) ∧ op.result = .i32 := by
    have hregular := NumericOp.regular_of_mem op hop
    rcases hcategory with hcategory | hcategory <;> rw [NumericOp.Regular, hcategory] at hregular
    · exact ⟨.inl hregular.1, hregular.2⟩
    · exact ⟨.inr hregular.1, hregular.2⟩
  rw [IR.Run.evaluate, IR.Run.watched_eq ha.silent]
  rcases iha.cases ha hta husea hs with ⟨e, s₁, hrun, ht⟩ | ⟨c, s₁, hrun, ht, hc, hs₁⟩
  · exact .inl ⟨e, s₁, bind_at_error hrun, comparisonForm_fails_left hf ht⟩
  · obtain ⟨w, hw⟩ := exists_word (hta.fits_as htype hc)
    rw [bind_at_ok hrun]
    rcases ihb.cases ha htb huseb hs₁ with ⟨e, s₂, hrun', hu⟩ | ⟨d, s₂, hrun', hu, hd, -⟩
    · exact .inl ⟨e, s₂, bind_at_error hrun', comparisonForm_fails_right hf (.of_cell hw ht) hu⟩
    · obtain ⟨v, hv⟩ := exists_word (htb.fits_as htype' hd)
      obtain ⟨holds, hholds⟩ := Operation.isSome_compare hcompares.1 w v
      refine .inr ⟨holds, s₂, ?_, ?_⟩
      · rw [bind_at_ok hrun', hw, hv, Operation.valueOf, Operation.valueOf,
          Operation.applyComparison_toInt hcompares.2, hholds, hcompares.2]
        cases holds <;> rfl
      · exact (evaluate_comparison hcompares.2 hf (.of_cell hw ht) (.of_cell hv hu) hholds).1

theorem evaluates_compare {op : NumericOp} (hop : op ∈ NumericOp.table)
    (hcategory : op.category = .test ∨ op.category = .compare) (hta : a.Typed Γ .value)
    (htb : b.Typed Γ .value) (htype : a.type = op.operand) (htype' : b.type = op.operand)
    (huses : a.uses ++ b.uses ⊆ known) (iha : Evaluates Γ count known around a t)
    (ihb : Evaluates Γ count known around b u) (hf : comparisonForm op t u = .ok f) :
    Evaluates Γ count known around (.compare op a b)
      (.parens (.conditional f (.number 1) (.number 0))) := by
  -- As a value the bare condition chooses between 1 and 0.
  constructor
  · intro s hs
    rw [Term.evaluate, Term.evaluate, scalarOf]
    rcases comparison_cases ha hop hcategory hta htb htype htype' huses iha ihb hf hs with
      ⟨e, s₁, hrun, hcond⟩ | ⟨holds, s₁, hrun, hcond⟩
    · rw [bind_at_error hrun, bind_at_error hcond]
    · rw [bind_at_ok hrun, bind_at_ok hcond]
      cases holds <;> rfl
  · intro _ s hs
    rw [asCondition]
    rcases comparison_cases ha hop hcategory hta htb htype htype' huses iha ihb hf hs with
      ⟨e, s₁, hrun, hcond⟩ | ⟨holds, s₁, hrun, hcond⟩
    · rw [hcond, truthOfRun, bind_at_error hrun]
    · rw [hcond, truthOfRun_ok hrun rfl]
      cases holds <;> rfl

theorem evaluates_select {type : ValueType} {g : Expression} {cond yes no : Term}
    (htg : g.Typed Γ .value) (hta : a.Typed Γ .value) (htb : b.Typed Γ .value)
    (htypeg : g.type = .i32) (htypea : a.type = type) (htypeb : b.type = type)
    (huses : g.uses ++ a.uses ++ b.uses ⊆ known) (ihg : Evaluates Γ count known around g cond)
    (iha : Evaluates Γ count known around a yes) (ihb : Evaluates Γ count known around b no) :
    Evaluates Γ count known around (.select type g a b)
      (.parens (.conditional (asCondition g cond) yes no)) := by
  obtain ⟨hga, -⟩ := List.append_subset.mp huses
  obtain ⟨huseg, -⟩ := List.append_subset.mp hga
  refine .of_value ha (.select htg hta htb htypeg htypea htypeb) huses rfl ?_
  intro s hs
  have hcond := ihg.condition htypeg s hs
  rw [IR.Run.evaluate, IR.Run.watched_eq ha.silent, Term.evaluate, Term.evaluate, scalarOf,
    bind_assoc]
  rcases ihg.cases ha htg huseg hs with ⟨e, s₁, hrun, -⟩ | ⟨c, s₁, hrun, -, hc, hs₁⟩
  · rw [truthOfRun, bind_at_error hrun] at hcond
    rw [bind_at_error hcond, bind_at_error hrun]
  · obtain ⟨n, hn⟩ := IR.Run.exists_i32 (htg.fits_as htypeg hc)
    rw [truthOfRun_ok hrun hn] at hcond
    rw [bind_at_ok hcond, bind_at_ok hrun, IR.Run.toI32_eq hn, bind_assoc, pure_bind]
    -- Only the value that is chosen is evaluated, by the script as by the run.
    by_cases hzero : n = 0
    · subst hzero
      exact ihb.value s₁ hs₁
    · rw [if_pos hzero, decide_eq_true hzero]
      exact iha.value s₁ hs₁

/-! ### Variables -/

theorem evaluates_variable (hta : a.Typed Γ .value) (huses : a.uses ⊆ known) (v : Variable)
    (hplain : ∀ t, asCondition a t = .binary .unequal t (.number 0))
    (hread : IR.Run.evaluate around a = v.read around) :
    Evaluates Γ count known around a (.variable v) := by
  refine .of_value ha hta huses (hplain _) ?_
  intro s _
  rw [Term.evaluate, hread]
  rfl

/-- Assigning a variable the value of an expression. -/
theorem evaluate_assign (hta : a.Typed Γ .value) (huses : a.uses ⊆ known)
    (iha : Evaluates Γ count known around a t) (v : Variable) (hs : s.Fits Γ count known) :
    (Term.assign v t).evaluate around s
      = (do let c ← IR.Run.evaluate around a
            v.write around c
            pure (Datum.scalar (.ofCell c))) s := by
  rw [Term.evaluate]
  rcases iha.cases ha hta huses hs with ⟨e, s₁, hrun, ht⟩ | ⟨c, s₁, hrun, ht, -, -⟩
  · rw [bind_at_error ht, bind_at_error hrun]
  · rw [bind_at_ok ht, bind_at_ok hrun]
    simp only [Datum.scalar?, Option.bind_some, Scalar.toCell?_ofCell, Run.present, pure_bind]

theorem evaluates_tee {index : Nat} (hfound : Γ.locals[index]? = some a.type)
    (hta : a.Typed Γ .value) (huses : a.uses ⊆ known)
    (iha : Evaluates Γ count known around a t) :
    Evaluates Γ count known around (.tee a.type index a)
      (.parens (.assign (.localVar index) t)) := by
  refine .of_value ha (.tee hfound hta) huses rfl ?_
  intro s hs
  rw [IR.Run.evaluate, IR.Run.watched_eq ha.silent, Term.evaluate,
    evaluate_assign ha hta huses iha _ hs, scalarOf]
  simp only [bind_assoc, pure_bind]
  rfl

/-! ### Addresses and accesses -/

/-- An address is a literal, or it is computed; either way a script has it as an unsigned
number. -/
theorem Evaluates.address_cases (iha : Evaluates Γ count known around a t) (hta : a.Typed Γ role)
    (htype : a.type = .i32) (huses : a.uses ⊆ known) (hs : s.Fits Γ count known) :
    (∃ e s₁, IR.Run.evaluate around a s = .error e s₁ ∧
      (asAddress a t).evaluate around s = .error e s₁) ∨
    ∃ c n s₁, IR.Run.evaluate around a s = .ok c s₁ ∧ c.toValue = .i32 n ∧
      (asAddress a t).evaluate around s = .ok (.word (Bits.unsigned32 n)) s₁ ∧
      s₁.Fits Γ count known := by
  rcases iha.cases ha hta huses hs with ⟨e, s₁, hrun, ht⟩ | ⟨c, s₁, hrun, ht, hc, hs₁⟩
  · refine .inl ⟨e, s₁, hrun, ?_⟩
    unfold asAddress
    split
    · -- A literal does not fail.
      rw [IR.Run.evaluate, IR.Run.watched_eq ha.silent] at hrun
      cases hrun
    · exact ht
    · exact binary_fails_left .ushr ht
  · obtain ⟨n, hn⟩ := exists_i32_of_result hta htype hc
    refine .inr ⟨c, n, s₁, hrun, hn, ?_, hs₁⟩
    unfold asAddress
    split
    · rw [IR.Run.evaluate, IR.Run.watched_eq ha.silent] at hrun
      cases hrun
      cases hn
      rfl
    · -- What is computed is unsigned already.
      match c, hc with
      | .plain (.i32 m), hm =>
        obtain rfl : m = n := Value.i32.inj hn
        obtain ⟨hlow, hhigh⟩ := hm
        have hmod : (Bits.unsigned32 m : Int) = m := by
          rw [Bits.unsigned32, Bits.unsigned_eq_toNat, BitVec.toNat_ofInt]
          omega
        rw [hmod]
        exact ht
    · exact evaluate_toUnsigned32 (evaluatesTo_i32 ht hn)

theorem evaluates_address {offset : Nat} (hoffset : offset < 2 ^ 32) (hta : a.Typed Γ .value)
    (htype : a.type = .i32) (huses : a.uses ⊆ known)
    (iha : Evaluates Γ count known around a t) :
    Evaluates Γ count known around (.address a offset) (addressForm t offset) := by
  refine .of_value ha (.address hta htype) huses rfl ?_
  intro s hs
  rw [IR.Run.evaluate, IR.Run.watched_eq ha.silent, scalarOf, bind_assoc]
  rcases iha.cases ha hta huses hs with ⟨e, s₁, hrun, ht⟩ | ⟨c, s₁, hrun, ht, hc, -⟩
  · rw [bind_at_error hrun]
    unfold addressForm
    split
    · exact binary_fails_left .ushr ht
    · exact binary_fails_left .ushr (binary_fails_left .plus ht)
  · have hword : ∃ w : BitVec 32, c.toValue = .i32 w.toInt := exists_word (hta.fits_as htype hc)
    obtain ⟨w, hw⟩ := hword
    rw [evaluate_addressForm hoffset (evaluatesTo_i32 ht hw), bind_at_ok hrun, IR.Run.toI32_eq hw,
      ← unsigned_add]
    rfl

omit ha in
/-- A call of an accessor is the access of the memory in the body. -/
theorem evaluate_access (accessor : Accessor) {address : Nat}
    (ht : t.evaluate around s = .ok (.word address) s₁) :
    (Term.call (.access accessor) [t]).evaluate around s
      = (do let k ← Run.act (.onOwnMemory around.place (LinearMemory.load accessor address))
            pure (Datum.scalar (.ofValue (.ofInt accessor.type k)))) s₁ := by
  rw [evaluate_call_one ht, Callee.call, toInteger?_word]
  rfl

theorem evaluates_load {access : Access} (hmemory : Γ.module.memory.isSome)
    (hload : access.isStore = false) (hta : a.Typed Γ .address) (htype : a.type = .i32)
    (huses : a.uses ⊆ known) (iha : Evaluates Γ count known around a t) :
    Evaluates Γ count known around (.load access a)
      (if access.isNarrowI64 then .call .bigInt [.call (.access access.accessor) [asAddress a t]]
        else .call (.access access.accessor) [asAddress a t]) := by
  refine .of_value ha (.load hmemory hload hta) huses rfl ?_
  intro s hs
  have htypes := access.type_accessor
  rw [IR.Run.evaluate, IR.Run.watched_eq ha.silent, scalarOf, bind_assoc]
  rcases iha.address_cases ha hta htype huses hs with
    ⟨e, s₁, hrun, ht⟩ | ⟨c, n, s₁, hrun, hn, ht, -⟩
  · rw [bind_at_error hrun]
    split
    · exact call_fails_first _ _ (call_fails_first _ _ ht)
    · exact call_fails_first _ _ ht
  · have hcall := evaluate_access access.accessor ht
    rw [bind_at_ok hrun, Run.toAddress, IR.Run.toI32_eq hn, pure_bind, bind_assoc, pure_bind,
      bind_assoc]
    cases hact : Run.act (.onOwnMemory around.place
        (LinearMemory.load access.accessor (Bits.unsigned32 n))) s₁ with
    | error e s₂ =>
      rw [bind_at_error hact] at hcall
      rw [bind_at_error hact]
      split
      · exact call_fails_first _ _ hcall
      · exact hcall
    | ok k s₂ =>
      rw [bind_at_ok hact] at hcall
      rw [bind_at_ok hact]
      -- A narrow access of 64 bits is made a big integer of afterwards.
      by_cases hnarrow : access.isNarrowI64
      · rw [if_pos hnarrow] at htypes ⊢
        rw [htypes] at hcall
        rw [Operation.loaded, (Access.narrow hnarrow).1]
        exact evaluate_bigInt (.of_word hcall)
      · rw [if_neg hnarrow] at htypes ⊢
        rw [htypes] at hcall
        exact hcall

theorem evaluates_memorySize (hmemory : Γ.module.memory.isSome) :
    Evaluates Γ count known around .memorySize .memoryPages := by
  refine .of_value ha (.memorySize hmemory) (List.nil_subset _) rfl ?_
  intro s _
  rw [IR.Run.evaluate, IR.Run.watched_eq ha.silent]
  rfl

theorem evaluates_memoryGrow (hmemory : Γ.module.memory.isSome) (hta : a.Typed Γ .value)
    (htype : a.type = .i32) (huses : a.uses ⊆ known)
    (iha : Evaluates Γ count known around a t) :
    Evaluates Γ count known around (.memoryGrow a) (.call .memoryGrow [t]) := by
  refine .of_value ha (.memoryGrow hmemory hta htype) huses rfl ?_
  intro s hs
  rw [IR.Run.evaluate, IR.Run.watched_eq ha.silent, scalarOf, bind_assoc]
  rcases iha.cases ha hta huses hs with ⟨e, s₁, hrun, ht⟩ | ⟨c, s₁, hrun, ht, hc, -⟩
  · rw [bind_at_error hrun]
    exact call_fails_first _ _ ht
  · obtain ⟨n, hn⟩ := IR.Run.exists_i32 (hta.fits_as htype hc)
    obtain ⟨x, hx, hxn⟩ := (evaluatesTo_i32 ht hn).number
    rw [evaluate_call_one hx, bind_at_ok hrun, Run.toAddress, IR.Run.toI32_eq hn, Callee.call,
      hxn.toUInt32]
    rfl

/-! ### Calls of functions -/

theorem evaluateAll_of_evaluates {es : List Expression} {ts : List Term}
    (htyped : ∀ e ∈ es, e.Typed Γ .value) (huses : usesAll es ⊆ known)
    (h : List.Forall₂ (Evaluates Γ count known around) es ts) (hs : s.Fits Γ count known) :
    Term.evaluateAll around ts s
      = (do let cs ← IR.Run.evaluateAll around es
            pure (cs.map fun c => Datum.scalar (.ofCell c))) s := by
  induction h generalizing s with
  | nil => rfl
  | @cons a t es ts hfirst _ ih =>
    obtain ⟨hta, htes⟩ := List.forall_mem_cons.mp htyped
    obtain ⟨husea, huses⟩ := List.append_subset.mp huses
    rw [Term.evaluateAll, IR.Run.evaluateAll, bind_assoc]
    rcases hfirst.cases ha hta husea hs with ⟨e, s₁, hrun, ht⟩ | ⟨c, s₁, hrun, ht, -, hs₁⟩
    · rw [bind_at_error ht, bind_at_error hrun]
    · have hts := ih htes huses hs₁
      rw [bind_at_ok ht, bind_at_ok hrun, bind_assoc]
      cases hruns : IR.Run.evaluateAll around es s₁ with
      | error e s₂ =>
        rw [bind_at_error hruns] at hts
        rw [bind_at_error hts, bind_at_error hruns]
      | ok cs s₂ =>
        rw [bind_at_ok hruns] at hts
        rw [bind_at_ok hts, bind_at_ok hruns]
        rfl

/-- A call of a function hands over the values of its arguments. -/
theorem evaluate_function {es : List Expression} {ts : List Term} (function : Nat)
    (htyped : ∀ e ∈ es, e.Typed Γ .value) (huses : usesAll es ⊆ known)
    (h : List.Forall₂ (Evaluates Γ count known around) es ts) (hs : s.Fits Γ count known) :
    (Term.call (.function function) ts).evaluate around s
      = (do let args ← IR.Run.evaluateAll around es
            let cells ← Run.act (around.call function args)
            pure (Datum.ofCells cells)) s := by
  have hts := evaluateAll_of_evaluates ha htyped huses h hs
  cases hruns : IR.Run.evaluateAll around es s with
  | error e s₁ =>
    rw [bind_at_error hruns] at hts
    rw [Term.evaluate, bind_at_error hts, bind_at_error hruns]
  | ok args s₁ =>
    have hargs : args.map (fun c => Datum.scalar (.ofCell c)) = (args.map .ofCell).map .scalar :=
      List.map_map.symm
    have hcells : (args.map Scalar.ofCell).mapM Scalar.toCell? = some args :=
      mapM_map_some Scalar.toCell?_ofCell args
    rw [bind_at_ok hruns, hargs] at hts
    rw [evaluate_call _ hts, bind_at_ok hruns, Callee.call, hcells]
    rfl

theorem evaluates_call {result : ValueType} {function : Nat} {es : List Expression}
    {ts : List Term}
    (hfound : Γ.module.functionType? function = some ⟨es.map Expression.type, [result]⟩)
    (htyped : ∀ e ∈ es, e.Typed Γ .value) (huses : usesAll es ⊆ known)
    (h : List.Forall₂ (Evaluates Γ count known around) es ts) :
    Evaluates Γ count known around (.call result function es) (.call (.function function) ts) := by
  refine .of_value ha (.call hfound htyped) huses rfl ?_
  intro s hs
  rw [evaluate_function ha function htyped huses h hs, IR.Run.evaluate,
    IR.Run.watched_eq ha.silent, scalarOf, bind_assoc]
  cases hruns : IR.Run.evaluateAll around es s with
  | error e s₁ => rw [bind_at_error hruns, bind_at_error hruns]
  | ok args s₁ =>
    obtain ⟨hargs, hs₁⟩ := IR.Run.fits_of_ok ha htyped huses hs hruns
    have hmeets := (IR.Run.agree_call ha.toSurroundingsAgree hfound hargs s₁ hs₁).2
    rw [bind_at_ok hruns, bind_at_ok hruns, bind_assoc]
    cases hcall : Run.act (around.call function args) s₁ with
    | error e s₂ => rw [bind_at_error hcall, bind_at_error hcall]
    | ok cells s₂ =>
      rw [hcall] at hmeets
      rw [bind_at_ok hcall, bind_at_ok hcall]
      -- A function with one result gives one value.
      rcases hmeets.1 with _ | ⟨-, _ | _⟩
      rfl

end

/-! ### Expressions of a body -/

theorem forall₂_of_ofExpressions {es : List Expression} {R : Expression → Term → Prop}
    (h : ∀ e ∈ es, ∀ t, ofExpression e = .ok t → R e t) {ts : List Term}
    (hts : ofExpressions es = .ok ts) : List.Forall₂ R es ts := by
  induction es generalizing ts with
  | nil =>
    obtain rfl := ofExpressions_nil hts
    exact .nil
  | cons e es ih =>
    obtain ⟨t, us, rfl, ht, hus⟩ := ofExpressions_cons hts
    obtain ⟨he, hes⟩ := List.forall_mem_cons.mp h
    exact .cons (he t ht) (ih hes hus)

theorem type_of_address {a : Expression} (h : a.Typed Γ .address) : a.type = .i32 := by
  cases h <;> rfl

section

variable (ha : Unwatched Γ count F around)

include ha

/-- The script of a typed expression gives what the expression gives. -/
theorem evaluates_of_typed (h : a.Typed Γ role)
    (hsmall : a.Small) (huses : a.uses ⊆ known) (ht : ofExpression a = .ok t) :
    Evaluates Γ count known around a t := by
  -- The induction is on the typing, which also says what the operands must fit.
  induction h generalizing t with
  | @literal v canonical =>
    refine .of_value ha (.literal canonical) huses ?_ ?_
    · cases v <;> rfl
    · intro s _
      rw [IR.Run.evaluate, IR.Run.watched_eq ha.silent]
      cases v <;> cases ht <;> rfl
  | folded canonical =>
    cases ht
    refine .of_value ha (.folded canonical) huses rfl ?_
    intro s _
    rw [IR.Run.evaluate, IR.Run.watched_eq ha.silent]
    rfl
  | @localRef type index found =>
    cases ht
    refine evaluates_variable ha (.localRef found) huses _ (fun _ => rfl) ?_
    rw [IR.Run.evaluate, IR.Run.watched_eq ha.silent]
    rfl
  | @tempRef type id kind found =>
    cases ht
    refine evaluates_variable ha (.tempRef found) huses _ (fun _ => rfl) ?_
    rw [IR.Run.evaluate, IR.Run.watched_eq ha.silent]
    rfl
  | @globalRef index g found =>
    cases ht
    refine evaluates_variable ha (.globalRef found) huses _ (fun _ => rfl) ?_
    rw [IR.Run.evaluate, IR.Run.watched_eq ha.silent]
    rfl
  | @unary op a known category operand type ih =>
    obtain ⟨u, hu, hf⟩ := ok_of_bind ht
    exact evaluates_unary ha known category operand type huses (ih hsmall huses hu) hf
  | @binary op a b known category left right leftType rightType ihl ihr =>
    obtain ⟨hl, hr⟩ := List.append_subset.mp huses
    obtain ⟨u, hu, ht⟩ := ok_of_bind ht
    obtain ⟨v, hv, hf⟩ := ok_of_bind ht
    exact evaluates_binary ha known category left right leftType rightType huses
      (ihl hsmall.1 hl hu) (ihr hsmall.2 hr hv) hf
  | @compare op a b known category left right leftType rightType ihl ihr =>
    obtain ⟨hl, hr⟩ := List.append_subset.mp huses
    obtain ⟨u, hu, ht⟩ := ok_of_bind ht
    obtain ⟨v, hv, ht⟩ := ok_of_bind ht
    obtain ⟨f, hf, ht⟩ := ok_of_bind ht
    cases ht
    exact evaluates_compare ha known category left right leftType rightType huses
      (ihl hsmall.1 hl hu) (ihr hsmall.2 hr hv) hf
  | @select type c a b condition yes no conditionType yesType noType ihc ihy ihn =>
    obtain ⟨hca, hn⟩ := List.append_subset.mp huses
    obtain ⟨hc, hy⟩ := List.append_subset.mp hca
    obtain ⟨cond, hcond, ht⟩ := ok_of_bind ht
    obtain ⟨u, hu, ht⟩ := ok_of_bind ht
    obtain ⟨v, hv, ht⟩ := ok_of_bind ht
    cases ht
    exact evaluates_select ha condition yes no conditionType yesType noType huses
      (ihc hsmall.1 hc hcond) (ihy hsmall.2.1 hy hu) (ihn hsmall.2.2 hn hv)
  | @call result function es found args ih =>
    obtain ⟨ts, hts, ht⟩ := ok_of_bind ht
    cases ht
    refine evaluates_call ha found args huses (forall₂_of_ofExpressions ?_ hts)
    intro e he u hu
    exact ih e he (IR.Expression.allSmall_iff.mp hsmall e he) (usesAll_subset.mp huses e he) hu
  | @tee index a found value ih =>
    obtain ⟨u, hu, ht⟩ := ok_of_bind ht
    cases ht
    exact evaluates_tee ha found value huses (ih hsmall huses hu)
  | @address a offset base type ih =>
    obtain ⟨u, hu, ht⟩ := ok_of_bind ht
    cases ht
    exact evaluates_address ha hsmall.2 base type huses (ih hsmall.1 huses hu)
  | @load access a memory loads address ih =>
    obtain ⟨u, hu, ht⟩ := ok_of_bind ht
    cases ht
    have htype := type_of_address address
    exact evaluates_load ha memory loads address htype huses (ih hsmall huses hu)
  | memorySize memory =>
    cases ht
    exact evaluates_memorySize ha memory
  | @memoryGrow a memory delta type ih =>
    obtain ⟨u, hu, ht⟩ := ok_of_bind ht
    cases ht
    exact evaluates_memoryGrow ha memory delta type huses (ih hsmall huses hu)

/-- Arguments and results, from left to right. -/
theorem cells_ofExpressions {es : List Expression} {ts : List Term}
    (htyped : ∀ e ∈ es, e.Typed Γ .value) (hsmall : ∀ e ∈ es, e.Small) (huses : usesAll es ⊆ known)
    (hts : ofExpressions es = .ok ts) (hs : s.Fits Γ count known) :
    Term.cells around ts s = IR.Run.evaluateAll around es s := by
  have hall : List.Forall₂ (Evaluates Γ count known around) es ts := by
    refine forall₂_of_ofExpressions ?_ hts
    intro e he u hu
    exact evaluates_of_typed ha (htyped e he) (hsmall e he) (usesAll_subset.mp huses e he) hu
  have heval := evaluateAll_of_evaluates ha htyped huses hall hs
  rw [Term.cells]
  cases hruns : IR.Run.evaluateAll around es s with
  | error err s₁ =>
    rw [bind_at_error hruns] at heval
    exact bind_at_error heval
  | ok cs s₁ =>
    rw [bind_at_ok hruns] at heval
    have hcell (c : Cell) : (Datum.scalar (.ofCell c)).cell? = some c := Scalar.toCell?_ofCell c
    rw [bind_at_ok heval, mapM_map_some hcell cs]
    rfl

/-- A condition and its script both fail, or they decide the same. -/
theorem holds_cases (hta : a.Typed Γ .value) (htype : a.type = .i32) (hsmall : a.Small)
    (huses : a.uses ⊆ known) (ht : ofCondition a = .ok t) (hs : s.Fits Γ count known) :
    (∃ e s₁, IR.Run.evaluate around a s = .error e s₁ ∧ t.holds around s = .error e s₁) ∨
    ∃ c n s₁, IR.Run.evaluate around a s = .ok c s₁ ∧ c.toValue = .i32 n ∧
      t.holds around s = .ok (decide (n ≠ 0)) s₁ ∧ s₁.Fits Γ count known := by
  obtain ⟨u, hu, rfl⟩ := map_ok ht
  have heval := evaluates_of_typed ha hta hsmall huses hu
  have hcond := heval.condition htype s hs
  rcases heval.cases ha hta huses hs with ⟨e, s₁, hrun, -⟩ | ⟨c, s₁, hrun, -, hc, hs₁⟩
  · rw [truthOfRun, bind_at_error hrun] at hcond
    exact .inl ⟨e, s₁, hrun, bind_at_error hcond⟩
  · obtain ⟨n, hn⟩ := IR.Run.exists_i32 (hta.fits_as htype hc)
    rw [truthOfRun_ok hrun hn] at hcond
    exact .inr ⟨c, n, s₁, hrun, hn, bind_at_ok hcond, hs₁⟩

/-- The index of a table is the signed integer that a `switch` compares. -/
theorem selector_cases (hta : a.Typed Γ .value) (htype : a.type = .i32) (hsmall : a.Small)
    (huses : a.uses ⊆ known) (ht : ofExpression a = .ok t) (hs : s.Fits Γ count known) :
    (∃ e s₁, IR.Run.evaluate around a s = .error e s₁ ∧ t.selector around s = .error e s₁) ∨
    ∃ c n s₁, IR.Run.evaluate around a s = .ok c s₁ ∧ c.toValue = .i32 n ∧
      (-0x80000000 ≤ n ∧ n < 0x80000000) ∧ t.selector around s = .ok n s₁ ∧
      s₁.Fits Γ count known := by
  have heval := evaluates_of_typed ha hta hsmall huses ht
  rcases heval.cases ha hta huses hs with ⟨e, s₁, hrun, hterm⟩ | ⟨c, s₁, hrun, hterm, hc, hs₁⟩
  · exact .inl ⟨e, s₁, hrun, bind_at_error hterm⟩
  · obtain ⟨n, hn, hbounds⟩ := Value.fits_i32_iff.mp (hta.fits_as htype hc)
    refine .inr ⟨c, n, s₁, hrun, hn, hbounds, ?_, hs₁⟩
    rw [Term.selector, bind_at_ok hterm]
    simp only [Datum.scalar?, Option.bind_some, toInteger?_ofCell hn]
    rfl

/-- What is bound or dropped. -/
theorem evaluate_ofOperand {operand : Operand} {types : List ValueType}
    (htyped : operand.Typed Γ types) (hsmall : operand.Small) (huses : operand.uses ⊆ known)
    (ht : ofOperand operand = .ok t) (hs : s.Fits Γ count known) :
    t.evaluate around s
      = (do let cells ← IR.Run.evaluateOperand around operand
            pure (Datum.ofCells cells)) s := by
  cases htyped with
  | @single a value =>
    rw [(evaluates_of_typed ha value hsmall huses ht).value s hs, IR.Run.evaluateOperand, scalarOf,
      bind_assoc]
    simp only [pure_bind]
    rfl
  | @multi function es types found args =>
    obtain ⟨ts, hts, ht⟩ := ok_of_bind ht
    cases ht
    have hall : List.Forall₂ (Evaluates Γ count known around) es ts := by
      refine forall₂_of_ofExpressions ?_ hts
      intro a hmem u hu
      exact evaluates_of_typed ha (args a hmem) (hsmall a hmem) (usesAll_subset.mp huses a hmem) hu
    rw [evaluate_function ha function args huses hall hs, IR.Run.evaluateOperand, bind_assoc]

end

end Script
end WasmScript
