/-
  WasmScript/Proofs/Script/Scoping.lean
  =====================================
  **Names in scripts** — constants are in scope where they are used, and jumps leave or
  restart a statement around them.

  A block that no branch targets is not written, so what is bound in it stays in scope
  after it, and no jump inside may name it.  A loop that is written can be left as well as
  restarted.  `exists_ofStatements` says that a body whose parts fit has a script, and that
  the names in that are in order if those in the body are.
-/
import WasmScript.Script.Execution
import WasmScript.Proofs.IR.ScopedBodies
import WasmScript.Proofs.Script.Forms

namespace WasmScript.Script

open WasmScript.IR (Expression Operand Branch Place Temp)
open WasmScript.IR.Expression (usesAll)
open WasmScript.IR.Statement (Names branchesIn branchesIn_append branchesIn_cons branchesIn_block
  branchesIn_loop branchesIn_conditional)

/-! ### What scripts name -/

/-- The temporary that a variable is, if it is one. -/
def Variable.temps : Variable → List Nat
  | .tempVar id => [id]
  | .localVar _ | .globalVar _ => []

namespace Term

mutual
/-- The temporaries that an expression names. -/
def temps : Term → List Nat
  | .variable v => v.temps
  | .memoryPages | .number _ | .bigInteger _ => []
  | .parens inner => inner.temps
  | .binary _ left right => left.temps ++ right.temps
  | .conditional condition yes no => condition.temps ++ yes.temps ++ no.temps
  | .assign v value => v.temps ++ value.temps
  | .call _ args => tempsAll args

/-- The temporaries that some expressions name. -/
def tempsAll : List Term → List Nat
  | [] => []
  | t :: ts => t.temps ++ tempsAll ts
end

end Term

open Term (tempsAll)

/-- Whether what a jump names is there. -/
def Jump.Placed (p : Place) : Jump → Prop
  | .leave values => tempsAll values ⊆ p.known
  | .exit label => label ∈ p.exits
  | .restart label => label ∈ p.restarts

namespace Statement

mutual
/-- Whether a statement names only what is there.  A choice can be left only if it has a label. -/
def Placed (p : Place) : Statement → Prop
  | .block label body => PlacedAll (p.inBlock label) body
  | .forever label body => PlacedAll ((p.inLoop label).inBlock label) body
  | .conditional label condition yes no =>
    condition.temps ⊆ p.known ∧ PlacedAll (label.elim p p.inBlock) yes
      ∧ PlacedElse (label.elim p p.inBlock) no
  | .jumpIf condition j => condition.temps ⊆ p.known ∧ j.Placed p
  | .jump j => j.Placed p
  | .switch index groups _ default =>
    index.temps ⊆ p.known ∧ PlacedGroups p groups ∧ PlacedAll p default
  | .unreachable => True
  | .define _ value | .evaluate value => value.temps ⊆ p.known
  | .assign ids values => ids ⊆ p.known ∧ tempsAll values ⊆ p.known

/-- As `Placed`, for the second part of a choice. -/
def PlacedElse (p : Place) : Option (List Statement) → Prop
  | none => True
  | some no => PlacedAll p no

/-- As `Placed`, for the statements of a block: what is declared is in scope from then on. -/
def PlacedAll (p : Place) : List Statement → Prop
  | [] => True
  | t :: ts => t.Placed p ∧ PlacedAll (p.learn t.binds) ts

/-- As `Placed`, for the groups of a `switch`. -/
def PlacedGroups (p : Place) : List (List Nat × List Statement) → Prop
  | [] => True
  | (_, body) :: rest => PlacedAll p body ∧ PlacedGroups p rest
end

end Statement

/-- A function in which slots are declared ahead, and constants and labels are where they are
named. -/
def Function.Scoped (f : Function) : Prop :=
  Statement.PlacedAll { known := f.slots.map Prod.fst } f.body

/-! ### Expressions -/

theorem append_subset_append {as as' bs bs' : List Nat} (h : as ⊆ as') (h' : bs ⊆ bs') :
    as ++ bs ⊆ as' ++ bs' :=
  List.append_subset.mpr
    ⟨List.subset_append_of_subset_left _ h, List.subset_append_of_subset_right _ h'⟩

open Term in
/-- The forms of a unary operator or a conversion name what its operand names. -/
theorem unaryForm_names {op : NumericOp} (hop : op ∈ NumericOp.table)
    (hcat : op.category = .unary ∨ op.category = .convert) (t : Term) :
    ∃ f, unaryForm op t = .ok f ∧ f.temps ⊆ t.temps := by
  have hname := name_eq_unaryName op hop hcat
  have hresult : op.operator.unaryResult op.operand = some op.result := by
    have hregular := NumericOp.regular_of_mem op hop
    rcases hcat with hcat | hcat <;> simpa only [NumericOp.Regular, hcat] using hregular
  clear hop hcat
  obtain ⟨opcode, name, category, o, operand, result⟩ := op
  dsimp only at hname hresult
  subst hname
  cases operand <;> cases o <;> cases hresult <;>
    exact ⟨_, rfl, by simp [temps, tempsAll, help, extend32, group, toSigned]⟩

open Term in
theorem binaryForm_names {op : NumericOp} (h : op.operator.isBinary) (t u : Term) :
    ∃ f, binaryForm op t u = .ok f ∧ f.temps ⊆ t.temps ++ u.temps := by
  obtain ⟨opcode, name, category, o, type, result⟩ := op
  cases type <;> cases o <;>
    first
    | exact ⟨_, rfl, by
        simp [temps, tempsAll, help, group, toSigned32, toSigned, toUnsigned64, count32, count64]⟩
    | simp [Operator.isBinary, Operator.combine] at h

open Term in
theorem comparisonForm_names {op : NumericOp} (h : op.operator = .eqz ∨ op.operator.isComparison)
    (t u : Term) : ∃ f, comparisonForm op t u = .ok f ∧ f.temps ⊆ t.temps ++ u.temps := by
  have hunsigned (type : ValueType) (t : Term) : (unsignedForm type t).temps = t.temps := by
    cases type <;> simp [unsignedForm, toUnsigned32, toUnsigned64, group, temps, tempsAll]
  obtain ⟨opcode, name, category, o, type, result⟩ := op
  cases o <;> first
    | exact ⟨_, rfl, by simp [temps, hunsigned]⟩
    | simp [Operator.isComparison, Operator.compare] at h

theorem temps_addressForm (t : Term) (offset : Nat) : (addressForm t offset).temps = t.temps := by
  unfold addressForm
  split <;> simp [Term.toUnsigned32, Term.group, Term.temps]

theorem temps_asAddress (e : Expression) (t : Term) : (asAddress e t).temps ⊆ t.temps := by
  unfold asAddress
  split <;> simp [Term.temps, Term.toUnsigned32, Term.group]

theorem temps_asCondition (e : Expression) (t : Term) : (asCondition e t).temps ⊆ t.temps := by
  unfold asCondition
  split <;> simp [Term.temps]

theorem exists_ofExpressions {es : List Expression}
    (h : ∀ e ∈ es, ∃ t, ofExpression e = .ok t ∧ t.temps ⊆ e.uses) :
    ∃ ts, ofExpressions es = .ok ts ∧ tempsAll ts ⊆ usesAll es := by
  induction es with
  | nil => exact ⟨[], rfl, List.Subset.refl _⟩
  | cons e es ih =>
    obtain ⟨⟨t, ht, htemps⟩, hes⟩ := List.forall_mem_cons.mp h
    obtain ⟨ts, hts, htemps'⟩ := ih hes
    refine ⟨t :: ts, by rw [ofExpressions, ht, hts]; rfl, ?_⟩
    exact append_subset_append htemps htemps'

/-- A typed expression has a script, which names the temporaries that it uses. -/
theorem exists_ofExpression {Γ : IR.Scope} {role : IR.Role} {e : Expression} (h : e.Typed Γ role) :
    ∃ t, ofExpression e = .ok t ∧ t.temps ⊆ e.uses := by
  -- The induction is on the typing, which tells that each operator has a form.
  induction h with
  | @literal v canonical => cases v <;> exact ⟨_, rfl, List.nil_subset _⟩
  | localRef found => exact ⟨_, rfl, List.nil_subset _⟩
  | tempRef found => exact ⟨_, rfl, List.Subset.refl _⟩
  | globalRef found => exact ⟨_, rfl, List.nil_subset _⟩
  | unary known category _ type ih =>
    obtain ⟨t, ht, htemps⟩ := ih
    obtain ⟨f, hf, hnames⟩ := unaryForm_names known category t
    exact ⟨f, by rw [ofExpression, ht]; exact hf, List.Subset.trans hnames htemps⟩
  | @binary op a b known category _ _ leftType rightType iha ihb =>
    have hregular := NumericOp.regular_of_mem op known
    rw [NumericOp.Regular, category] at hregular
    obtain ⟨t, ht, htemps⟩ := iha
    obtain ⟨u, hu, hutemps⟩ := ihb
    obtain ⟨f, hf, hnames⟩ := binaryForm_names hregular.1 t u
    exact ⟨f, by rw [ofExpression, ht, hu]; exact hf,
      List.Subset.trans hnames (append_subset_append htemps hutemps)⟩
  | @compare op a b known category _ _ leftType rightType iha ihb =>
    have hoperator : op.operator = .eqz ∨ op.operator.isComparison := by
      have hregular := NumericOp.regular_of_mem op known
      rcases category with category | category <;> rw [NumericOp.Regular, category] at hregular
      · exact .inl hregular.1
      · exact .inr hregular.1
    obtain ⟨t, ht, htemps⟩ := iha
    obtain ⟨u, hu, hutemps⟩ := ihb
    obtain ⟨f, hf, hnames⟩ := comparisonForm_names hoperator t u
    have hmade : ofExpression (.compare op a b) = (comparisonForm op t u >>= fun c =>
        pure (.parens (.conditional c (.number 1) (.number 0)))) := by
      rw [ofExpression, ht, hu]
      rfl
    refine ⟨.parens (.conditional f (.number 1) (.number 0)), by rw [hmade, hf]; rfl, ?_⟩
    have hall := List.Subset.trans hnames (append_subset_append htemps hutemps)
    simpa [Term.temps, Expression.uses] using hall
  | @select type c a b _ _ _ conditionType yesType noType ihc iha ihb =>
    obtain ⟨t, ht, htemps⟩ := ihc
    obtain ⟨yes, hyes, hyestemps⟩ := iha
    obtain ⟨no, hno, hnotemps⟩ := ihb
    refine ⟨.parens (.conditional (asCondition c t) yes no),
      by rw [ofExpression, ht, hyes, hno]; rfl, ?_⟩
    have hc := List.Subset.trans (temps_asCondition c t) htemps
    exact append_subset_append (append_subset_append hc hyestemps) hnotemps
  | @call result function es found _ ih =>
    obtain ⟨ts, hts, htemps⟩ := exists_ofExpressions ih
    exact ⟨.call (.function function) ts, by rw [ofExpression, hts]; rfl, htemps⟩
  | @tee index a found _ ih =>
    obtain ⟨t, ht, htemps⟩ := ih
    exact ⟨.parens (.assign (.localVar index) t), by rw [ofExpression, ht]; rfl, htemps⟩
  | @load access a memory loads _ ih =>
    obtain ⟨t, ht, htemps⟩ := ih
    have haddress := List.Subset.trans (temps_asAddress a t) htemps
    refine ⟨if access.isNarrowI64 then .call .bigInt
        [.call (.access access.accessor) [asAddress a t]]
      else .call (.access access.accessor) [asAddress a t], by rw [ofExpression, ht]; rfl, ?_⟩
    split <;> simpa [Term.temps, tempsAll, Expression.uses] using haddress
  | memorySize memory => exact ⟨_, rfl, List.nil_subset _⟩
  | @memoryGrow a memory _ type ih =>
    obtain ⟨t, ht, htemps⟩ := ih
    refine ⟨.call .memoryGrow [t], by rw [ofExpression, ht]; rfl, ?_⟩
    simpa [Term.temps, tempsAll, Expression.uses] using htemps
  | folded canonical => exact ⟨_, rfl, List.nil_subset _⟩
  | @address a offset _ type ih =>
    obtain ⟨t, ht, htemps⟩ := ih
    exact ⟨addressForm t offset, by rw [ofExpression, ht]; rfl, temps_addressForm t offset ▸ htemps⟩

theorem exists_ofCondition {Γ : IR.Scope} {e : Expression} (h : e.Typed Γ .value) :
    ∃ t, ofCondition e = .ok t ∧ t.temps ⊆ e.uses := by
  obtain ⟨t, ht, htemps⟩ := exists_ofExpression h
  exact ⟨asCondition e t, by rw [ofCondition, ht]; rfl,
    List.Subset.trans (temps_asCondition e t) htemps⟩

theorem exists_ofAddress {Γ : IR.Scope} {role : IR.Role} {e : Expression} (h : e.Typed Γ role) :
    ∃ t, ofAddress e = .ok t ∧ t.temps ⊆ e.uses := by
  obtain ⟨t, ht, htemps⟩ := exists_ofExpression h
  exact ⟨asAddress e t, by rw [ofAddress, ht]; rfl, List.Subset.trans (temps_asAddress e t) htemps⟩

theorem exists_ofOperand {Γ : IR.Scope} {operand : Operand} {types : List ValueType}
    (h : operand.Typed Γ types) : ∃ t, ofOperand operand = .ok t ∧ t.temps ⊆ operand.uses := by
  cases h with
  | single value => exact exists_ofExpression value
  | @multi function es types found args =>
    obtain ⟨ts, hts, htemps⟩ := exists_ofExpressions fun e he => exists_ofExpression (args e he)
    exact ⟨.call (.function function) ts, by rw [ofOperand, hts]; rfl, htemps⟩

/-! ### Branches -/

section Branches

variable {Γ : IR.Scope} {p q : Place}

theorem placed_jumpOf {b : Branch} {values : List Term} (hreaches : q.Reaches b)
    (hvalues : tempsAll values ⊆ q.known) : (jumpOf b values).Placed q := by
  unfold jumpOf
  rw [Place.Reaches] at hreaches
  cases hmode : b.mode with
  | leave => exact hvalues
  | _ =>
    rw [hmode] at hreaches
    exact hreaches

/-- A branch has a script, which names what the branch does and the slots of its target. -/
theorem exists_ofBranch {b : Branch} (htyped : b.Typed Γ)
    (hslots : Temp.ids .slot Γ.temps.toList ⊆ q.known) (hvalues : usesAll b.values ⊆ q.known)
    (hreaches : q.Reaches b) :
    ∃ ts, ofBranch b = .ok ts ∧ Statement.PlacedAll q ts := by
  obtain ⟨values, hmade, htemps⟩ :=
    exists_ofExpressions fun e he => exists_ofExpression (htyped.values e he)
  have hjump : (jumpOf b values).Placed q :=
    placed_jumpOf hreaches (List.Subset.trans htemps hvalues)
  refine ⟨_, by rw [ofBranch, hmade]; rfl, ?_⟩
  split
  · next hassigns =>
    refine ⟨⟨?_, List.Subset.trans htemps hvalues⟩, ?_, trivial⟩
    · exact List.Subset.trans (htyped.slots hassigns.1).subset_ids hslots
    · have hbinds : (Statement.assign b.slots values).binds = [] := rfl
      rw [hbinds, Place.learn_nil]
      exact hjump
  · exact ⟨hjump, trivial⟩

theorem exists_ofBranchIf {c : Expression} {b : Branch} (hc : c.Typed Γ .value) (htyped : b.Typed Γ)
    (hslots : Temp.ids .slot Γ.temps.toList ⊆ q.known) (hcondition : c.uses ⊆ q.known)
    (hvalues : usesAll b.values ⊆ q.known) (hreaches : q.Reaches b) :
    ∃ t, ofBranchIf c b = .ok t ∧ t.Placed q := by
  obtain ⟨t, ht, htemps⟩ := exists_ofCondition hc
  have hc := List.Subset.trans htemps hcondition
  by_cases hplain : b.values.length = 0 ∨ b.mode = .leave
  · obtain ⟨values, hmade, hnames⟩ :=
      exists_ofExpressions fun e he => exists_ofExpression (htyped.values e he)
    refine ⟨.jumpIf t (jumpOf b values), ?_, hc, ?_⟩
    · rw [ofBranchIf, ht, hmade]
      exact if_pos hplain
    · exact placed_jumpOf hreaches (List.Subset.trans hnames hvalues)
  · obtain ⟨body, hmade, hbody⟩ := exists_ofBranch htyped hslots hvalues hreaches
    refine ⟨.conditional none t body none, ?_, hc, hbody, trivial⟩
    rw [ofBranchIf, ht, hmade]
    exact if_neg hplain

theorem exists_ofGroups {targets : List Branch} (hslots : Temp.ids .slot Γ.temps.toList ⊆ q.known)
    (h : ∀ b ∈ targets, b.Typed Γ ∧ usesAll b.values ⊆ q.known ∧ q.Reaches b) (depths : List Nat) :
    ∃ groups, ofGroups targets depths = .ok groups ∧ Statement.PlacedGroups q groups := by
  induction depths with
  | nil => exact ⟨[], rfl, trivial⟩
  | cons depth rest ih =>
    obtain ⟨groups, hgroups, hplaced⟩ := ih
    cases hb : branchOf? targets depth with
    | none => exact ⟨groups, by rw [ofGroups, hb]; exact hgroups, hplaced⟩
    | some b =>
      have hmem : b ∈ targets := List.mem_reverse.mp (List.mem_of_find?_eq_some hb)
      obtain ⟨htyped, hvalues, hreaches⟩ := h b hmem
      obtain ⟨body, hbody, hbodyPlaced⟩ := exists_ofBranch htyped hslots hvalues hreaches
      exact ⟨(casesOf targets depth, body) :: groups, by
          simp only [ofGroups, hb, hbody, hgroups]; rfl,
        hbodyPlaced, hplaced⟩

theorem exists_ofBranchTable {e : Expression} {targets : List Branch} {default : Branch}
    (hindex : e.Typed Γ .value) (hslots : Temp.ids .slot Γ.temps.toList ⊆ q.known)
    (huses : e.uses ⊆ q.known)
    (h : ∀ b ∈ targets ++ [default], b.Typed Γ ∧ usesAll b.values ⊆ q.known ∧ q.Reaches b) :
    ∃ t, ofBranchTable e targets default = .ok t ∧ t.Placed q := by
  obtain ⟨htyped, hvalues, hreaches⟩ := h default (List.mem_append_right _ List.mem_cons_self)
  obtain ⟨t, ht, htemps⟩ := exists_ofExpression hindex
  obtain ⟨groups, hgroups, hplacedGroups⟩ := exists_ofGroups hslots
    (fun b hb => h b (List.mem_append_left _ hb))
      ((firstUses (targets.map Branch.depth)).filter (· ≠ default.depth))
  obtain ⟨last, hlast, hplacedLast⟩ := exists_ofBranch htyped hslots hvalues hreaches
  refine ⟨.switch t groups (casesOf targets default.depth) last, ?_, List.Subset.trans htemps huses,
    hplacedGroups, hplacedLast⟩
  simp only [ofBranchTable, ht, hgroups, hlast]
  rfl

end Branches

/-! ### Statements -/

namespace Statement

variable {p q : Place}

theorem placedAll_append {ts us : List Statement} :
    PlacedAll p (ts ++ us) ↔ PlacedAll p ts ∧ PlacedAll (p.learn (bindsAll ts)) us := by
  induction ts generalizing p with
  | nil => simp [PlacedAll, bindsAll]
  | cons t ts ih =>
    have hbinds : bindsAll (t :: ts) = t.binds ++ bindsAll ts := List.flatMap_cons
    rw [List.cons_append, PlacedAll, PlacedAll, ih, hbinds, Place.learn_learn, and_assoc]

theorem placedAll_singleton {t : Statement} : PlacedAll p [t] ↔ t.Placed p := and_iff_left trivial

end Statement

open Statement (PlacedAll PlacedGroups bindsAll placedAll_append placedAll_singleton)

/-- A place in a script that has what statements of a body need which fit another place. -/
structure Serves (p q : Place) (ss : List IR.Statement) : Prop where
  known : p.known ⊆ q.known
  reaches : ∀ b ∈ branchesIn ss, p.Reaches b → q.Reaches b

namespace Serves

variable {p q : Place} {s : IR.Statement} {ss ts : List IR.Statement} {label : Int}

theorem mono (h : Serves p q ss) (hsub : branchesIn ts ⊆ branchesIn ss) : Serves p q ts :=
  ⟨h.known, fun b hb => h.reaches b (hsub hb)⟩

/-- What has a label must be there only if some branch names the label. -/
theorem inBlock {r : Place} (h : Serves p r ss) (hlabel : Names label ss → label ∈ r.exits) :
    Serves (p.inBlock label) r ss := by
  refine ⟨h.known, fun b hb hreaches => ?_⟩
  rcases Place.reaches_inBlock hreaches with hreaches | ⟨hmode, rfl⟩
  · exact h.reaches b hb hreaches
  · rw [Place.Reaches, hmode]
    exact hlabel ⟨b, hb, rfl⟩

theorem inLoop {r : Place} (h : Serves p r ss) (hlabel : Names label ss → label ∈ r.restarts) :
    Serves (p.inLoop label) r ss := by
  refine ⟨h.known, fun b hb hreaches => ?_⟩
  rcases Place.reaches_inLoop hreaches with hreaches | ⟨hmode, rfl⟩
  · exact h.reaches b hb hreaches
  · rw [Place.Reaches, hmode]
    exact hlabel ⟨b, hb, rfl⟩

/-- More may be named further inside. -/
theorem more {r : Place} (h : Serves p q ss) (hle : q.Le r) : Serves p r ss :=
  ⟨List.Subset.trans h.known hle.known, fun b hb hreaches => hle.reaches (h.reaches b hb hreaches)⟩

theorem plain (h : Serves p q [s]) (hplaced : s.Placed p) (hlabel : s.label? = none) :
    s.uses ⊆ q.known ∧ ∀ b ∈ s.branches, q.Reaches b := by
  obtain ⟨huses, hreaches⟩ := (IR.Statement.placed_iff_of_label? hlabel).mp hplaced
  refine ⟨List.Subset.trans huses h.known, fun b hb => h.reaches b ?_ (hreaches b hb)⟩
  rwa [IR.Statement.branchesIn_of_label? hlabel]

theorem learn (h : Serves p q (s :: ss)) {ids ids' : List Nat} (hids : ids ⊆ ids') :
    Serves (p.learn ids) (q.learn ids') ss where
  known := append_subset_append h.known hids
  reaches b hb hreaches := by
    refine h.reaches b ?_ hreaches
    rw [branchesIn_cons]
    exact List.mem_append_right _ hb

end Serves

/-- A statement that has no other inside and whose parts fit has a script, which names what is
there. -/
theorem exists_ofPlain {Γ : IR.Scope} {s : IR.Statement} {q : Place} (htyped : s.Typed Γ)
    (hlabel : s.label? = none) (hslots : Temp.ids .slot Γ.temps.toList ⊆ q.known)
    (huses : s.uses ⊆ q.known) (hreaches : ∀ b ∈ s.branches, q.Reaches b) :
    ∃ ts, ofStatement s = .ok ts ∧ PlacedAll q ts ∧ s.binds ⊆ bindsAll ts := by
  cases htyped with
  | block | loop | conditional => cases hlabel
  | @branch b htyped =>
    obtain ⟨ts, hts, hall⟩ := exists_ofBranch htyped hslots huses (hreaches b List.mem_cons_self)
    exact ⟨ts, by rw [ofStatement, hts], hall, List.nil_subset _⟩
  | @branchIf c b hc type htyped =>
    obtain ⟨hcondition, hvalues⟩ := List.append_subset.mp huses
    obtain ⟨t, ht, hall⟩ :=
      exists_ofBranchIf hc htyped hslots hcondition hvalues (hreaches b List.mem_cons_self)
    exact ⟨[t], by rw [ofStatement, ht]; rfl, placedAll_singleton.mpr hall, List.nil_subset _⟩
  | @branchTable e targets default hindex type htargets hdefault =>
    obtain ⟨huse, hvalues⟩ := List.append_subset.mp huses
    -- The default is checked like any other target.
    have htyped : ∀ b ∈ targets ++ [default], b.Typed Γ :=
      List.forall_mem_append.mpr ⟨htargets, List.forall_mem_singleton.mpr hdefault⟩
    obtain ⟨t, ht, hplaced⟩ := exists_ofBranchTable hindex hslots huse fun b hb =>
      ⟨htyped b hb, fun id hid => hvalues (List.mem_flatMap.mpr ⟨b, hb, hid⟩), hreaches b hb⟩
    exact ⟨[t], by rw [ofStatement, ht]; rfl, placedAll_singleton.mpr hplaced, List.nil_subset _⟩
  | leave values =>
    obtain ⟨ts, hts, htemps⟩ := exists_ofExpressions fun e he => exists_ofExpression (values.1 e he)
    exact ⟨[.jump (.leave ts)], by rw [ofStatement, hts]; rfl,
      placedAll_singleton.mpr (List.Subset.trans htemps huses), List.nil_subset _⟩
  | unreachable => exact ⟨[.unreachable], rfl, placedAll_singleton.mpr trivial, List.nil_subset _⟩
  | @localSet index e found value =>
    obtain ⟨t, ht, htemps⟩ := exists_ofExpression value
    exact ⟨[.evaluate (.assign (.localVar index) t)], by rw [ofStatement, ht]; rfl,
      placedAll_singleton.mpr (List.Subset.trans htemps huses), List.nil_subset _⟩
  | @globalSet index e g found changes value type =>
    obtain ⟨t, ht, htemps⟩ := exists_ofExpression value
    exact ⟨[.evaluate (.assign (.globalVar index) t)], by rw [ofStatement, ht]; rfl,
      placedAll_singleton.mpr (List.Subset.trans htemps huses), List.nil_subset _⟩
  | @define ids operand types value temps =>
    obtain ⟨t, ht, htemps⟩ := exists_ofOperand value
    exact ⟨[.define ids t], by rw [ofStatement, ht]; rfl,
      placedAll_singleton.mpr (List.Subset.trans htemps huses), List.subset_append_left _ _⟩
  | @assign ids es types values temps =>
    obtain ⟨ts, hts, htemps⟩ := exists_ofExpressions fun e he => exists_ofExpression (values.1 e he)
    exact ⟨[.assign ids ts], by rw [ofStatement, hts]; rfl,
      placedAll_singleton.mpr
        ⟨List.Subset.trans temps.subset_ids hslots, List.Subset.trans htemps huses⟩,
      List.nil_subset _⟩
  | @store access a e memory stores address value type =>
    obtain ⟨t, ht, htemps⟩ := exists_ofAddress address
    obtain ⟨u, hu, hutemps⟩ := exists_ofExpression value
    refine ⟨[memoryCall
      (.access access.accessor) [t, if access.isNarrowI64 then .help .i32WrapI64 [u] else u]], by
      rw [ofStatement, ht, hu]; rfl, placedAll_singleton.mpr (List.Subset.trans ?_ huses),
      List.nil_subset _⟩
    have hvalue : tempsAll [if access.isNarrowI64 then .help .i32WrapI64 [u] else u] ⊆ e.uses := by
      split <;> simpa [tempsAll, Term.help, Term.temps] using hutemps
    exact append_subset_append htemps hvalue
  | memoryCopy memory operands =>
    obtain ⟨⟨hd, -⟩, ⟨hs, -⟩, hn, -⟩ := operands.three
    obtain ⟨d, hd, hdtemps⟩ := exists_ofAddress hd
    obtain ⟨s, hs, hstemps⟩ := exists_ofAddress hs
    obtain ⟨n, hn, hntemps⟩ := exists_ofAddress hn
    refine ⟨[memoryCall .memoryCopy [d, s, n]], by rw [ofStatement, hd, hs, hn]; rfl,
      placedAll_singleton.mpr (List.Subset.trans ?_ huses), List.nil_subset _⟩
    have hall := append_subset_append (append_subset_append hdtemps hstemps) hntemps
    simpa [memoryCall, tempsAll, Term.temps, IR.Statement.uses] using hall
  | memoryFill memory operands =>
    obtain ⟨⟨hd, -⟩, ⟨hv, -⟩, hn, -⟩ := operands.three
    obtain ⟨d, hd, hdtemps⟩ := exists_ofAddress hd
    obtain ⟨v, hv, hvtemps⟩ := exists_ofExpression hv
    obtain ⟨n, hn, hntemps⟩ := exists_ofAddress hn
    refine ⟨[memoryCall .memoryFill [d, v, n]], by rw [ofStatement, hd, hv, hn]; rfl,
      placedAll_singleton.mpr (List.Subset.trans ?_ huses), List.nil_subset _⟩
    have hall := append_subset_append (append_subset_append hdtemps hvtemps) hntemps
    simpa [memoryCall, tempsAll, Term.temps, IR.Statement.uses] using hall
  | evaluate value =>
    obtain ⟨t, ht, htemps⟩ := exists_ofOperand value
    exact ⟨[.evaluate t], by rw [ofStatement, ht]; rfl,
      placedAll_singleton.mpr (List.Subset.trans htemps huses), List.nil_subset _⟩

mutual
/-- A statement whose parts fit has a script, which names what is there. -/
theorem exists_ofStatement {Γ : IR.Scope} {s : IR.Statement} {p q : Place} (htyped : s.Typed Γ)
    (hplaced : s.Placed p) (hslots : Temp.ids .slot Γ.temps.toList ⊆ p.known)
    (hq : Serves p q [s]) :
    ∃ ts, ofStatement s = .ok ts ∧ PlacedAll q ts ∧ s.binds ⊆ bindsAll ts := by
  cases s with
  | block label targeted body =>
    cases htyped with | block hbody =>
    obtain ⟨htargeted, hin⟩ := hplaced
    have hbody' : Serves p q body := hq.mono (branchesIn_block .. ▸ List.Subset.refl _)
    -- A block that nothing branches to is left out, and its body stands in its place.
    cases targeted with
    | true =>
      obtain ⟨ts, hts, hall⟩ := exists_ofStatements hbody hin hslots
        ((hbody'.more (q.le_inBlock label)).inBlock fun _ => List.mem_cons_self)
      exact ⟨[.block label ts], by rw [ofStatement, hts]; rfl, placedAll_singleton.mpr hall,
        List.nil_subset _⟩
    | false =>
      obtain ⟨ts, hts, hall⟩ := exists_ofStatements hbody hin hslots
        (hbody'.inBlock fun hnames => absurd (htargeted.mpr hnames) Bool.false_ne_true)
      exact ⟨ts, by rw [ofStatement, hts]; rfl, hall, List.nil_subset _⟩
  | loop label targeted body =>
    cases htyped with | loop hbody =>
    obtain ⟨htargeted, hin⟩ := hplaced
    have hbody' : Serves p q body := hq.mono (branchesIn_loop .. ▸ List.Subset.refl _)
    cases targeted with
    | true =>
      obtain ⟨ts, hts, hall⟩ := exists_ofStatements hbody hin hslots
        ((hbody'.more ((q.le_inLoop label).trans (Place.le_inBlock _ label))).inLoop fun _ =>
          List.mem_cons_self)
      exact ⟨[.forever label ts], by rw [ofStatement, hts]; rfl, placedAll_singleton.mpr hall,
        List.nil_subset _⟩
    | false =>
      obtain ⟨ts, hts, hall⟩ := exists_ofStatements hbody hin hslots
        (hbody'.inLoop fun hnames => absurd (htargeted.mpr hnames) Bool.false_ne_true)
      exact ⟨ts, by rw [ofStatement, hts]; rfl, hall, List.nil_subset _⟩
  | conditional label targeted c yes no =>
    cases htyped with | conditional hc type hyes hno =>
    obtain ⟨hcondition, htargeted, hinYes, hinNo⟩ := hplaced
    obtain ⟨t, ht, htemps⟩ := exists_ofCondition hc
    let name := if targeted then some label else none
    have hboth : Serves (p.inBlock label) (name.elim q q.inBlock) (yes ++ no) := by
      have hbody : Serves p q (yes ++ no) :=
        hq.mono (branchesIn_conditional .. ▸ List.Subset.refl _)
      cases targeted with
      | true => exact (hbody.more (q.le_inBlock label)).inBlock fun _ => List.mem_cons_self
      | false => exact hbody.inBlock fun hnames => absurd (htargeted.mpr hnames) Bool.false_ne_true
    have hparts := branchesIn_append yes no
    obtain ⟨ts, hts, hallYes⟩ := exists_ofStatements hyes hinYes hslots
      (hboth.mono (hparts ▸ List.subset_append_left _ _))
    obtain ⟨us, hus, hallNo⟩ := exists_ofStatements hno hinNo hslots
      (hboth.mono (hparts ▸ List.subset_append_right _ _))
    refine ⟨[.conditional name t ts (if no.isEmpty then none else some us)],
      by rw [ofStatement, ht, hts, hus]; rfl, placedAll_singleton.mpr ⟨?_, hallYes, ?_⟩,
      List.nil_subset _⟩
    · exact List.Subset.trans htemps (List.Subset.trans hcondition hq.known)
    · split
      · trivial
      · exact hallNo
  | _ =>
    obtain ⟨huses, hreaches⟩ := hq.plain hplaced rfl
    exact exists_ofPlain htyped rfl (List.Subset.trans hslots hq.known) huses hreaches

theorem exists_ofStatements {Γ : IR.Scope} {ss : List IR.Statement} {p q : Place}
    (htyped : ∀ s ∈ ss, s.Typed Γ) (hplaced : IR.Statement.PlacedAll p ss)
    (hslots : Temp.ids .slot Γ.temps.toList ⊆ p.known) (hq : Serves p q ss) :
    ∃ ts, ofStatements ss = .ok ts ∧ PlacedAll q ts := by
  cases ss with
  | nil => exact ⟨[], rfl, trivial⟩
  | cons s ss =>
    obtain ⟨hs, hss⟩ := List.forall_mem_cons.mp htyped
    have hhead : branchesIn [s] ⊆ branchesIn (s :: ss) := by
      rw [branchesIn_cons s ss]
      exact List.subset_append_left _ _
    obtain ⟨ts, hts, hplacedHead, hbinds⟩ := exists_ofStatement hs hplaced.1 hslots (hq.mono hhead)
    obtain ⟨us, hus, hplacedTail⟩ := exists_ofStatements hss hplaced.2
      (List.subset_append_of_subset_left _ hslots) (hq.learn hbinds)
    exact ⟨ts ++ us, by rw [ofStatements, hts, hus]; rfl,
      placedAll_append.mpr ⟨hplacedHead, hplacedTail⟩⟩
end

/-! ### Functions -/

/-- The script of a function that is built, and the names in it. -/
theorem exists_ofBody {m : Module} {index : Nat} {fn : IR.Function}
    (h : IR.buildFunction m index = .ok fn) : ∃ g, Function.ofBody fn = .ok g ∧ g.Scoped := by
  have hscoped := IR.Function.scoped_of_build h
  have htyped := (IR.Function.typed_of_build h).body
  let p : Place := { known := Temp.ids .slot fn.temps }
  have hslots : Temp.ids .slot (fn.scope m).temps.toList ⊆ p.known := by
    rw [IR.Function.scope, List.toList_toArray]
    exact List.Subset.refl _
  obtain ⟨ts, hts, hplaced⟩ := exists_ofStatements htyped hscoped.placed hslots (q := p)
    ⟨List.Subset.refl _, fun _ _ hreaches => hreaches⟩
  refine ⟨_, by rw [Function.ofBody, hts]; rfl, ?_⟩
  have hids : ((fn.temps.filter fun t => t.kind = .slot).map fun t => (t.id, t.type)).map Prod.fst
      = Temp.ids .slot fn.temps := by
    rw [List.map_map]
    rfl
  rw [Function.Scoped, hids]
  exact hplaced

/-- Each function that is built has a script, in which all names are in order as well. -/
theorem built_function_scoped {m : Module} {index : Nat} {fn : IR.Function}
    (h : IR.buildFunction m index = .ok fn) :
    fn.Scoped ∧ ∃ g, Function.ofBody fn = .ok g ∧ g.Scoped :=
  ⟨IR.Function.scoped_of_build h, exists_ofBody h⟩

/-- A function that keeps its argument on the stack while it counts it down in a loop, inside a
block that nothing branches to. -/
def countdown : Module where
  types := #[⟨[.i32], [.i32]⟩]
  functions := #[0]
  bodies := #[
    ⟨#[], #[⟨0, .block ⟨[], [.i32]⟩⟩, ⟨2, .localGet 0⟩, ⟨4, .loop ⟨[], []⟩⟩, ⟨6, .localGet 0⟩,
      ⟨8, .const (.i32 1)⟩, ⟨10, .numeric 0x6b⟩, ⟨11, .localTee 0⟩, ⟨13, .brIf 0⟩, ⟨15, .endMark⟩,
      ⟨16, .endMark⟩, ⟨17, .endMark⟩], 0⟩]

/-- The argument is bound in the block, ahead of the loop, and only the loop is marked. -/
theorem built_function_scoped_countdown :
    ∃ fn, IR.buildFunction countdown 0 = .ok fn ∧ IR.Statement.bindsIn fn.body = [1]
      ∧ IR.Statement.labelsIn fn.body = [0, 1] ∧ fn.Scoped
      ∧ ∃ g, Function.ofBody fn = .ok g ∧ g.Scoped := by
  have hnames : (IR.buildFunction countdown 0).toOption.map
      (fun fn => (IR.Statement.bindsIn fn.body, IR.Statement.labelsIn fn.body))
        = some ([1], [0, 1]) := by decide +kernel
  cases hbuilt : IR.buildFunction countdown 0 with
  | error failure =>
    rw [hbuilt] at hnames
    cases hnames
  | ok fn =>
    rw [hbuilt] at hnames
    obtain ⟨hbinds, hlabels⟩ := Prod.mk.inj (Option.some.inj hnames)
    obtain ⟨hscoped, hscript⟩ := built_function_scoped hbuilt
    exact ⟨fn, rfl, hbinds, hlabels, hscoped, hscript⟩

end WasmScript.Script
