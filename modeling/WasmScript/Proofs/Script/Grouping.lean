/-
  WasmScript/Proofs/Script/Grouping.lean
  ======================================
  **Operands in scripts** — that the forms of the operators keep the nesting of expressions.

  A form joins the texts of its operands and does not look at precedence.  It may do so
  because the script of an expression is an operand in whatever it becomes part of
  (`delimited_ofExpression`): it is a name, a literal, a call or in parentheses, and nothing
  else reads like it.  A comparison used as a condition is the one that stands without
  parentheses, and a condition binds less than any binary operator.
-/
import WasmScript.Proofs.Script.Scoping
import WasmScript.Proofs.Script.Readings

namespace WasmScript.Script

open WasmScript.IR (Expression Operand)

/-! ### Forms -/

namespace Term

/-- A term that a text can be read as, and as nothing else. -/
structure Readable (t : Term) : Prop where
  grammatical : t.Grammatical
  unique : t.Unique

/-- An operand that keeps its place wherever it stands. -/
structure Delimited (t : Term) : Prop extends Readable t where
  simple : t.Simple

theorem allGrammatical {ts : List Term} (h : ∀ t ∈ ts, t.Grammatical) : AllGrammatical ts := by
  induction ts with
  | nil => trivial
  | cons t ts ih =>
    obtain ⟨ht, hts⟩ := List.forall_mem_cons.mp h
    exact ⟨ht, ih hts⟩

namespace Readable

variable {s : Symbol} {v : Variable} {l r x c y n : Term}

protected theorem binary (hl : l.Delimited) (hr : r.Delimited) : (binary s l r).Readable where
  grammatical := ⟨⟨hl.simple.tight, hl.grammatical⟩, hr.simple.tight, hr.grammatical⟩
  unique := .binary hl.unique hr.unique hl.simple hr.simple

protected theorem assign (hx : x.Delimited) : (assign v x).Readable where
  grammatical := hx.grammatical
  unique := .assign hx.unique hx.simple

protected theorem conditional (hc : c.Readable) (htight : c.Tight) (hy : y.Delimited)
    (hn : n.Delimited) :
    (conditional c y n).Readable where
  grammatical := ⟨⟨htight, hc.grammatical⟩, hy.grammatical, hn.grammatical⟩
  unique := .conditional hc.unique hy.unique hn.unique htight hc.grammatical hy.simple hn.simple

end Readable

namespace Delimited

variable {s : Symbol} {l r x : Term}

protected theorem «variable» (v : Variable) :
    (Term.variable v).Delimited := ⟨⟨trivial, .variable v⟩, trivial⟩

protected theorem memoryPages : memoryPages.Delimited := ⟨⟨trivial, .memoryPages⟩, trivial⟩

protected theorem number (n : Int) : (number n).Delimited := ⟨⟨trivial, .number n⟩, trivial⟩

protected theorem bigInteger (n : Int) :
    (bigInteger n).Delimited := ⟨⟨trivial, .bigInteger n⟩, trivial⟩

protected theorem parens (hx : x.Readable) :
    (parens x).Delimited := ⟨⟨hx.grammatical, .parens hx.unique⟩, trivial⟩

protected theorem call {c : Callee} {args : List Term} (h : ∀ a ∈ args, a.Readable) :
    (call c args).Delimited :=
  ⟨⟨allGrammatical fun a ha => (h a ha).grammatical, .call fun a ha => (h a ha).unique⟩, trivial⟩

theorem call_one {c : Callee} (hx : x.Readable) :
    (call c [x]).Delimited := .call (by simpa using hx)

theorem call_two {c : Callee} (hl : l.Readable) (hr : r.Readable) : (call c [l, r]).Delimited :=
  .call (by simpa using ⟨hl, hr⟩)

theorem group (hl : l.Delimited) (hr : r.Delimited) : (group s l r).Delimited :=
  .parens (.binary hl hr)

theorem toSigned (width : Int) (hx : x.Readable) : (toSigned width x).Delimited :=
  call_two (Delimited.number width).toReadable hx

theorem toUnsigned64 (hx : x.Readable) :
    (toUnsigned64 x).Delimited := call_two (Delimited.number 64).toReadable hx

end Delimited

end Term

open Term (Delimited Readable Tight)

theorem delimited_unsignedForm {t : Term} (ht : t.Delimited) (type : ValueType) :
    (unsignedForm type t).Delimited := by
  cases type with
  | i32 => exact .group ht (.number 0)
  | i64 => exact .toUnsigned64 ht.toReadable

/-- A comparison may stand as a condition. -/
theorem readable_comparisonForm {op : NumericOp} {a b t : Term} (ha : a.Delimited)
    (hb : b.Delimited) (h : comparisonForm op a b = .ok t) : t.Readable ∧ t.Tight := by
  unfold comparisonForm at h
  dsimp only at h
  have hbinary {s : Symbol} {l r : Term} (hl : l.Delimited) (hr : r.Delimited) :
      (Term.binary s l r).Readable ∧ (Term.binary s l r).Tight := ⟨.binary hl hr, trivial⟩
  split at h <;> cases h
  all_goals first
    | exact hbinary ha hb
    | exact hbinary (delimited_unsignedForm ha _) (delimited_unsignedForm hb _)

theorem delimited_binaryForm {op : NumericOp} {a b t : Term} (ha : a.Delimited) (hb : b.Delimited)
    (h : binaryForm op a b = .ok t) : t.Delimited := by
  have hcount32 : (Term.count32 b).Delimited := .group hb (.number 31)
  have hcount64 : (Term.count64 b).Delimited := .group hb (.bigInteger 63)
  unfold binaryForm at h
  split at h
  · unfold binaryForm32 at h
    split at h <;> cases h
    all_goals first
      | exact .call_two ha.toReadable hb.toReadable
      | exact .group ha hb
      | exact .group ha hcount32
      | exact .group (.group ha hb) (.number 0)
      | exact .group (.group ha hcount32) (.number 0)
  · unfold binaryForm64 at h
    split at h <;> cases h
    all_goals first
      | exact .call_two ha.toReadable hb.toReadable
      | exact .group ha hb
      | exact .group ha hcount64
      | exact .toSigned 64 (.binary ha hb)
      | exact .toSigned 64 (.binary ha hcount64)
      | exact .toSigned 64 (.binary (.toUnsigned64 ha.toReadable) hcount64)

theorem delimited_unaryForm {op : NumericOp} {a t : Term} (ha : a.Delimited)
    (h : unaryForm op a = .ok t) :
    t.Delimited := by
  have hextend (places : Int) : (extend32 places a).Delimited :=
    .group (.group ha (.number places)) (.number places)
  unfold unaryForm at h
  split at h <;> cases h
  all_goals first
    | exact .call_one ha.toReadable
    | exact hextend _
    | exact .toSigned _ ha.toReadable
    | exact .call_one (.binary ha (.number 0))

theorem delimited_addressForm {t : Term} (ht : t.Delimited) (offset : Nat) :
    (addressForm t offset).Delimited := by
  unfold addressForm
  split
  · exact .group ht (.number 0)
  · exact .group (.group ht (.number offset)) (.number 0)

theorem delimited_asAddress {t : Term} (ht : t.Delimited) (e : Expression) :
    (asAddress e t).Delimited := by
  unfold asAddress
  split
  · exact .number _
  · exact ht
  · exact .group ht (.number 0)

theorem readable_nonzero {t : Term} (ht : t.Delimited) :
    (Term.binary .unequal t (.number 0)).Readable ∧ (Term.binary .unequal t (.number 0)).Tight :=
  ⟨.binary ht (.number 0), trivial⟩

mutual
/-- The script of an expression is an operand, and serves as a condition without its values. -/
theorem delimited_ofExpression {e : Expression} {t : Term} (h : ofExpression e = .ok t) :
    t.Delimited ∧ (asCondition e t).Readable ∧ (asCondition e t).Tight := by
  cases e with
  | literal v =>
    have ht : t.Delimited := by
      cases v with
      | i32 n =>
        cases h
        exact .number n
      | i64 n =>
        cases h
        exact .bigInteger n
    exact ⟨ht, readable_nonzero ht⟩
  | localRef type index =>
    cases h
    exact ⟨.variable _, readable_nonzero (.variable _)⟩
  | tempRef type id =>
    cases h
    exact ⟨.variable _, readable_nonzero (.variable _)⟩
  | globalRef type index =>
    cases h
    exact ⟨.variable _, readable_nonzero (.variable _)⟩
  | tee type index value =>
    rw [ofExpression] at h
    obtain ⟨x, hx, h⟩ := ok_of_bind h
    cases h
    have ht := Delimited.parens (.assign (v := .localVar index) (delimited_ofExpression hx).1)
    exact ⟨ht, readable_nonzero ht⟩
  | unary type op operand =>
    rw [ofExpression] at h
    obtain ⟨a, ha, h⟩ := ok_of_bind h
    have ht := delimited_unaryForm (delimited_ofExpression ha).1 h
    exact ⟨ht, readable_nonzero ht⟩
  | binary type op left right =>
    rw [ofExpression] at h
    obtain ⟨a, ha, h⟩ := ok_of_bind h
    obtain ⟨b, hb, h⟩ := ok_of_bind h
    have ht := delimited_binaryForm (delimited_ofExpression ha).1 (delimited_ofExpression hb).1 h
    exact ⟨ht, readable_nonzero ht⟩
  | compare op left right =>
    rw [ofExpression] at h
    obtain ⟨a, ha, h⟩ := ok_of_bind h
    obtain ⟨b, hb, h⟩ := ok_of_bind h
    obtain ⟨c, hc, h⟩ := ok_of_bind h
    cases h
    obtain ⟨hreadable, htight⟩ :=
      readable_comparisonForm (delimited_ofExpression ha).1 (delimited_ofExpression hb).1 hc
    -- As a condition it stands as it is, and as a value it chooses between two numbers.
    exact ⟨.parens (.conditional hreadable htight (.number 1) (.number 0)), hreadable, htight⟩
  | select type condition ifTrue ifFalse =>
    rw [ofExpression] at h
    obtain ⟨c, hc, h⟩ := ok_of_bind h
    obtain ⟨yes, hyes, h⟩ := ok_of_bind h
    obtain ⟨no, hno, h⟩ := ok_of_bind h
    cases h
    obtain ⟨-, hreadable, htight⟩ := delimited_ofExpression hc
    have ht := Delimited.parens
      (.conditional hreadable htight (delimited_ofExpression hyes).1 (delimited_ofExpression hno).1)
    exact ⟨ht, readable_nonzero ht⟩
  | call type function args =>
    rw [ofExpression] at h
    obtain ⟨ts, hts, h⟩ := ok_of_bind h
    cases h
    have ht : (Term.call (.function function) ts).Delimited :=
      .call fun a ha => (delimited_ofExpressions hts a ha).toReadable
    exact ⟨ht, readable_nonzero ht⟩
  | address base offset =>
    rw [ofExpression] at h
    obtain ⟨x, hx, h⟩ := ok_of_bind h
    cases h
    have ht := delimited_addressForm (delimited_ofExpression hx).1 offset
    exact ⟨ht, readable_nonzero ht⟩
  | load access address =>
    rw [ofExpression] at h
    obtain ⟨x, hx, h⟩ := ok_of_bind h
    cases h
    have hload : (Term.call (.access access.accessor) [asAddress address x]).Delimited :=
      .call_one (delimited_asAddress (delimited_ofExpression hx).1 address).toReadable
    split
    · have ht :
          (Term.call .bigInt [.call (.access access.accessor) [asAddress address x]]).Delimited :=
        .call_one hload.toReadable
      exact ⟨ht, readable_nonzero ht⟩
    · exact ⟨hload, readable_nonzero hload⟩
  | memorySize =>
    cases h
    exact ⟨.memoryPages, readable_nonzero .memoryPages⟩
  | memoryGrow delta =>
    rw [ofExpression] at h
    obtain ⟨x, hx, h⟩ := ok_of_bind h
    cases h
    have ht : (Term.call .memoryGrow [x]).Delimited :=
      .call_one (delimited_ofExpression hx).1.toReadable
    exact ⟨ht, readable_nonzero ht⟩

theorem delimited_ofExpressions {es : List Expression} {ts : List Term}
    (h : ofExpressions es = .ok ts) :
    ∀ t ∈ ts, t.Delimited := by
  cases es with
  | nil =>
    cases h
    simp
  | cons e es =>
    rw [ofExpressions] at h
    obtain ⟨t, ht, h⟩ := ok_of_bind h
    obtain ⟨ts, hts, h⟩ := ok_of_bind h
    cases h
    exact List.forall_mem_cons.mpr ⟨(delimited_ofExpression ht).1, delimited_ofExpressions hts⟩
end

/-- The text of an operand: its parentheses match, it has no blank outside of them, and it has no
other reading. -/
structure Term.Grouped (t : Term) : Prop extends Readable t where
  closed : Closed [' '] t.text.toList
  operand : CallExpression t.text.toList

theorem Term.Delimited.grouped {t : Term} (h : t.Delimited) : t.Grouped where
  toReadable := h.toReadable
  closed := ((Term.grammar t).1 h.simple).closed.mono (by simp [separators])
  operand := (Term.grammar t).1 h.simple

/-- The text of an expression is that of an operand, so what is put together of such texts has one
reading: as an expression, a condition, an address or a call. -/
theorem operands_keep_nesting (e : Expression) :
    (∀ Γ role, e.Typed Γ role → ∃ t, ofExpression e = .ok t)
      ∧ (∀ t, ofExpression e = .ok t → t.Grouped)
      ∧ (∀ c, ofCondition e = .ok c → c.Readable)
      ∧ (∀ a, ofAddress e = .ok a → a.Grouped)
      ∧ ∀ o t, ofOperand o = .ok t → t.Grouped := by
  refine ⟨?_, ?_, ?_, ?_, ?_⟩
  · intro Γ role htyped
    obtain ⟨t, ht, -⟩ := exists_ofExpression htyped
    exact ⟨t, ht⟩
  · intro t ht
    exact (delimited_ofExpression ht).1.grouped
  · intro c hc
    obtain ⟨t, ht, rfl⟩ := map_ok hc
    exact (delimited_ofExpression ht).2.1
  · intro a ha
    obtain ⟨t, ht, rfl⟩ := map_ok ha
    exact (delimited_asAddress (delimited_ofExpression ht).1 e).grouped
  · intro o t ht
    -- An operand is an expression or a call, whose arguments are set apart by commas.
    cases o with
    | single value => exact (delimited_ofExpression ht).1.grouped
    | multi function args types =>
      obtain ⟨ts, hts, ht⟩ := ok_of_bind ht
      cases ht
      exact (Delimited.call fun a ha => (delimited_ofExpressions hts a ha).toReadable).grouped

def chosenDifference : Expression :=
  .binary .i32 ⟨0x6b, "i32.sub", .binary, .sub, .i32, .i32⟩
    (.select .i32
        (.compare ⟨0x48, "i32.lt_s", .compare, .ltS, .i32, .i32⟩ (.localRef .i32 0)
        (.literal (.i32 (-5))))
      (.tee .i32 1 (.literal (.i32 7))) (.localRef .i32 1))
    (.literal (.i32 (-1)))

/-- The condition stands without parentheses of its own, and nothing else reads like this. -/
theorem operands_keep_nesting_choice :
    ∃ t, ofExpression chosenDifference = .ok t
      ∧ t.text = "(((l0 < (-5) ? (l1 = 7) : l1) - (-1)) | 0)" ∧ t.Grouped := by
  obtain ⟨-, hgrouped, -⟩ := operands_keep_nesting chosenDifference
  exact ⟨_, rfl, by decide +kernel, hgrouped _ rfl⟩

end WasmScript.Script
