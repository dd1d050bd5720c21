/-
  WasmScript/Proofs/IR/EffectOrder.lean
  =====================================
  **The order of effects** — what a body does is done by the function that is built, in its order.

  An `Effect` is a call, an access to memory that may trap, a write or a trap, by the opcode,
  the index or the callee in it.  `trace` reads off a structured body the effects in it in the
  order in which it is evaluated, and `effect?` off an instruction the one that it has.

  While a body is built, effects wait on the operand stack.  The trace of a draft puts those
  after the statements of their block, so it is what has been built so far in the order in
  which it will be evaluated, and each `Step` adds the effect of its instruction at the end.
  What may be written down twice, such as the parameters of an `if` and the values of a
  `br_table`, is stable by then and has no effect.
-/
import WasmScript.Proofs.IR.PlacedStatements
import WasmScript.Proofs.IR.Reach

namespace WasmScript

/-! ### Effects -/

/-- Something that an instruction does to a state, or a trap that it may raise. -/
inductive Effect where
  | call (function : Nat)
  | load (opcode : Nat)
  | store (opcode : Nat)
  | memoryGrow
  | memoryCopy
  | memoryFill
  | localTee (index : Nat)
  | localSet (index : Nat)
  | globalSet (index : Nat)
  /-- A division or a remainder. -/
  | divide (opcode : Nat)
  | unreachable
deriving DecidableEq, Repr

/-- Whether an opcode is that of a division or a remainder, of either width. -/
def isDivision (opcode : Nat) :
    Bool := (0x6d ≤ opcode ∧ opcode ≤ 0x70) ∨ (0x7f ≤ opcode ∧ opcode ≤ 0x82)

def Instruction.effect? : Instruction → Option Effect
  | .call function => some (.call function)
  | .load opcode _ => some (.load opcode)
  | .store opcode _ => some (.store opcode)
  | .memoryGrow => some .memoryGrow
  | .memoryCopy => some .memoryCopy
  | .memoryFill => some .memoryFill
  | .localTee index => some (.localTee index)
  | .localSet index => some (.localSet index)
  | .globalSet index => some (.globalSet index)
  | .numeric opcode => if isDivision opcode then some (.divide opcode) else none
  | .unreachable => some .unreachable
  | _ => none

namespace IR

/-! ### Traces -/

namespace Expression

mutual
/-- The effects of an expression, in the order in which it is evaluated. -/
def trace : Expression → List Effect
  | .literal _ | .localRef .. | .tempRef .. | .globalRef .. | .memorySize => []
  | .unary _ _ a | .address a _ => a.trace
  | .binary _ op a b => a.trace ++ b.trace ++ if op.operator.traps then [.divide op.opcode] else []
  | .compare _ a b => a.trace ++ b.trace
  | .select _ c a b => c.trace ++ a.trace ++ b.trace
  | .call _ function args => traceAll args ++ [.call function]
  | .tee _ index a => a.trace ++ [.localTee index]
  | .load access a => a.trace ++ [.load access.opcode.byte]
  | .memoryGrow a => a.trace ++ [.memoryGrow]

def traceAll : List Expression → List Effect
  | [] => []
  | e :: es => e.trace ++ traceAll es
end

end Expression

open Expression (traceAll)

def Operand.trace : Operand → List Effect
  | .single e => e.trace
  | .multi function args _ => traceAll args ++ [.call function]

namespace Statement

mutual
/-- The effects in a statement: those of a condition come before those of both arms. -/
def trace : Statement → List Effect
  | .block _ _ body | .loop _ _ body => traceAll body
  | .conditional _ _ condition yes no => condition.trace ++ traceAll yes ++ traceAll no
  | .branch b => Expression.traceAll b.values
  | .branchIf condition b => condition.trace ++ Expression.traceAll b.values
  | .branchTable index targets default =>
    index.trace ++ (targets ++ [default]).flatMap fun b => Expression.traceAll b.values
  | .leave values | .assign _ values => Expression.traceAll values
  | .unreachable => [.unreachable]
  | .localSet index value => value.trace ++ [.localSet index]
  | .globalSet index value => value.trace ++ [.globalSet index]
  | .define _ value | .evaluate value => value.trace
  | .store access a b => a.trace ++ b.trace ++ [.store access.opcode.byte]
  | .memoryCopy a b c => a.trace ++ b.trace ++ c.trace ++ [.memoryCopy]
  | .memoryFill a b c => a.trace ++ b.trace ++ c.trace ++ [.memoryFill]

def traceAll : List Statement → List Effect
  | [] => []
  | s :: ss => s.trace ++ traceAll ss
end

@[simp] theorem traceAll_append (ss ts : List Statement) :
    traceAll (ss ++ ts) = traceAll ss ++ traceAll ts := by
  induction ss with
  | nil => rfl
  | cons s ss ih => rw [List.cons_append, traceAll, traceAll, ih, List.append_assoc]

end Statement

namespace Expression

@[simp] theorem traceAll_append (es fs : List Expression) :
    traceAll (es ++ fs) = traceAll es ++ traceAll fs := by
  induction es with
  | nil => rfl
  | cons e es ih => rw [List.cons_append, traceAll, traceAll, ih, List.append_assoc]

@[simp] theorem traceAll_singleton (e : Expression) : traceAll [e] = e.trace := List.append_nil _

/-- Only what has effects has a place among them. -/
theorem trace_of_quiet {e : Expression} (h : e.hasEffects = false) : e.trace = [] := by
  induction e using hasEffects.induct with
  | case1 | case2 | case3 | case4 | case5 => rfl
  | case6 | case7 | case8 | case9 => cases h
  | case10 _ _ a ih => exact ih h
  | case11 _ op a b iha ihb =>
    simp only [hasEffects, Bool.or_eq_false_iff] at h
    rw [trace, iha h.1.2, ihb h.2, h.1.1]
    rfl
  | case12 _ a b iha ihb =>
    simp only [hasEffects, Bool.or_eq_false_iff] at h
    rw [trace, iha h.1, ihb h.2]
    rfl
  | case13 _ c a b ihc iha ihb =>
    simp only [hasEffects, Bool.or_eq_false_iff] at h
    rw [trace, ihc h.1.1, iha h.1.2, ihb h.2]
    rfl
  | case14 a _ ih => exact ih h

theorem trace_of_stable {e : Expression} (h : e.isStable) : e.trace = [] := by
  cases e with
  | literal | tempRef => rfl
  | _ => cases h

theorem traceAll_of_stable {es : List Expression} (h : ∀ e ∈ es, e.isStable) :
    traceAll es = [] := by
  induction es with
  | nil => rfl
  | cons e es ih =>
    obtain ⟨he, hes⟩ := List.forall_mem_cons.mp h
    rw [traceAll, trace_of_stable he, ih hes]
    rfl

theorem trace_constant (type : ValueType) (n : Int) : (constant type n).trace = [] := by
  cases type <;> rfl

theorem traceAll_refs (ids : List Nat) (types : List ValueType) :
    traceAll (Build.refs ids types) = [] := by
  induction ids generalizing types with
  | nil => rfl
  | cons id ids ih =>
    cases types with
    | nil => rfl
    | cons type types => exact ih types

theorem trace_effectiveAddress (base : Expression) (offset : Nat) :
    (base.effectiveAddress offset).trace = base.trace := by
  unfold effectiveAddress
  split <;> rfl

end Expression

/-! ### Plain instructions -/

/-- The effects in what a plain instruction becomes. -/
def Work.trace : Work → List Effect
  | .value e => e.trace
  | .statement s => s.trace
  | .results function args _ => traceAll args ++ [.call function]

theorem Work.trace_ofCall (function : Nat) (args : List Expression) (types : List ValueType) :
    (Work.ofCall function args types).trace = traceAll args ++ [.call function] := by
  rcases types with _ | ⟨r, _ | ⟨r', rs⟩⟩ <;> rfl

/-- The operators that may trap are the divisions and remainders, and all of them take two
operands. -/
theorem traps_of_mem : ∀ op ∈ NumericOp.table, op.operator.traps = isDivision op.opcode ∧
    (op.operator.traps → op.category = .binary) := by
  decide +kernel

theorem opcode_of_found {opcode : Nat} {access : Access}
    (h : Access.ofOpcode? opcode = some access) :
    access.opcode.byte = opcode := by
  simpa using List.find?_some h

theorem trace_ofOperator {op : NumericOp} (hop : op ∈ NumericOp.table) {es : List Expression}
    {e : Expression} (h : Expression.ofOperator op es = some e) :
    e.trace = traceAll es ++ if isDivision op.opcode then [.divide op.opcode] else [] := by
  obtain ⟨htraps, hbinary⟩ := traps_of_mem op hop
  have hnone {category : NumericCategory} (hcategory : op.category = category)
      (hne : category ≠ .binary) :
      (if isDivision op.opcode then [Effect.divide op.opcode] else []) = [] := by
    rw [← htraps]
    exact if_neg fun h => hne (hcategory ▸ hbinary h)
  -- Only a division has an effect of its own, and it is made of two operands.
  unfold Expression.ofOperator at h
  split at h
  · split at h
    · next hcategory =>
      cases h
      rw [hnone hcategory (by rintro ⟨⟩), Expression.trace, Expression.trace_constant,
        Expression.traceAll_singleton]
    · next hcategory =>
      cases h
      rw [hnone hcategory (by rintro ⟨⟩), Expression.trace, Expression.traceAll_singleton,
        List.append_nil]
    · next hcategory =>
      cases h
      rw [hnone hcategory (by rintro ⟨⟩), Expression.trace, Expression.traceAll_singleton,
        List.append_nil]
    · cases h
  · split at h
    · next hcategory =>
      cases h
      rw [hnone hcategory (by rintro ⟨⟩), Expression.trace, traceAll, Expression.traceAll_singleton,
        List.append_nil]
    · cases h
      rw [← htraps, Expression.trace, traceAll, Expression.traceAll_singleton]
    · cases h
  · cases h

/-- What becomes of a plain instruction has the effects of the operands and then its own. -/
theorem trace_work {i : Instruction} {m : Module} {locals : Array ValueType}
    {es : List Expression} {w : Work} (h : i.work m locals es = some w) :
    w.trace = traceAll es ++ i.effect?.toList := by
  cases Instruction.becomes_of_work h with
  | @call function type found => exact Work.trace_ofCall function es type.results
  | localGet | globalGet | memorySize => rfl
  | localSet | localTee | globalSet | memoryGrow =>
    exact congrArg (· ++ _) (Expression.traceAll_singleton _).symm
  | const v => exact Expression.trace_constant ..
  | @numeric opcode op _ e found made =>
    have hopcode : op.opcode = opcode := by simpa using List.find?_some found
    rw [Work.trace, trace_ofOperator (List.mem_of_find?_eq_some found) made, hopcode,
      Instruction.effect?]
    split <;> rfl
  | load found =>
    rw [Work.trace, Expression.trace, Expression.trace_effectiveAddress, opcode_of_found found,
      Expression.traceAll_singleton]
    rfl
  | store found =>
    rw [Work.trace, Statement.trace, Expression.trace_effectiveAddress,
      opcode_of_found found, traceAll, Expression.traceAll_singleton]
    rfl
  | memoryCopy | memoryFill => simp [Work.trace, Statement.trace, traceAll, Instruction.effect?]

/-! ### What is pending -/

namespace Build

open Statement (trace)

variable {ctx : Context} {i : Instruction} {d d' : Draft}

/-- What is settled keeps its effects, and then has none. -/
theorem trace_settling (first : Nat) (es : List Expression) :
    Statement.traceAll (settling first es).statements = Expression.traceAll es := by
  induction es generalizing first with
  | nil => rfl
  | cons e es ih =>
    unfold settling
    split
    · next he =>
      rw [Expression.traceAll, Expression.trace_of_stable he]
      exact ih first
    · exact congrArg (e.trace ++ ·) (ih (first + 1))

theorem trace_settled (first : Nat) (es : List Expression) :
    Expression.traceAll (settling first es).operands = [] :=
  Expression.traceAll_of_stable (isStable_settling first es)

/-- What is evaluated for its effects only has all of them. -/
theorem trace_effects (es : List Expression) :
    Statement.traceAll (effects es) = Expression.traceAll es := by
  induction es with
  | nil => rfl
  | cons e es ih =>
    rw [Expression.traceAll, ← ih]
    cases he : e.hasEffects with
    | true =>
      rw [effects, List.filter_cons_of_pos he]
      rfl
    | false =>
      rw [effects, List.filter_cons_of_neg (by rw [he]; exact Bool.false_ne_true),
        Expression.trace_of_quiet he]
      rfl

theorem trace_assignments (slots : List Nat) (values : List Expression) :
    Statement.traceAll (assignments slots values) = Expression.traceAll values := by
  unfold assignments
  split
  · next h => rw [h]; rfl
  · exact List.append_nil _

/-- Branches with stable values have no effects, however many there are. -/
theorem trace_branches {values : List Expression} (h : Expression.traceAll values = [])
    (fs : List Frame) (depths : List Nat) :
    (depths.map (branchAt fs values)).flatMap (fun b => Expression.traceAll b.values) = [] := by
  rw [List.flatMap_eq_nil_iff]
  intro b hb
  obtain ⟨depth, -, rfl⟩ := List.mem_map.mp hb
  rw [values_branchAt]
  exact h

/-- A plain instruction leaves the effects of what was pending and then its own. -/
theorem trace_settlingWork (first : Nat) (rest : List Expression) (w : Work) :
    Statement.traceAll (settlingWork first rest w).statements
        ++ Expression.traceAll (settlingWork first rest w).operands
      = Expression.traceAll rest ++ w.trace := by
  cases w with
  | value e => simp [settlingWork, Statement.traceAll, Work.trace]
  | statement s =>
    simp [settlingWork, trace_settling, trace_settled, Statement.traceAll, Work.trace]
  | results function args types =>
    simp [settlingWork, trace_settling, trace_settled, Statement.traceAll, Statement.trace,
      Operand.trace, Work.trace, Expression.traceAll_refs]

/-- An instruction that stays in a block leaves the effects of what was pending there and then its
own. -/
theorem trace_straight {fs : List Frame} {first : Nat} {pend : List Expression} {o : Outcome}
    (h : Straight ctx fs first i pend o) :
    Statement.traceAll o.statements ++ Expression.traceAll o.operands
      = Expression.traceAll pend ++ i.effect?.toList := by
  cases h with
  | nop => exact (List.append_nil _).symm
  | work signature types made gives =>
    rw [trace_settlingWork, trace_work made, Expression.traceAll_append, List.append_assoc]
  | @drop rest e =>
    rw [Settling.emit, Statement.traceAll_append, trace_effects, Expression.traceAll_append]
    cases he : e.hasEffects with
    | true =>
      simp [settlingIf, trace_settling, trace_settled, Instruction.effect?]
    | false =>
      simp [settlingIf, Expression.trace_of_quiet he, Statement.traceAll, Instruction.effect?]
  | @select rest rest' condition a b needed type operands same quiet =>
    have hselect : Expression.traceAll [.select b.type condition a b]
        = condition.trace ++ a.trace ++ b.trace := Expression.traceAll_singleton _
    have hoperands := congrArg Expression.traceAll operands
    dsimp only
    rw [Expression.traceAll_append, Expression.traceAll_append, hselect,
      Expression.traceAll_singleton]
    cases needed with
    | true =>
      have hstable := isStable_settling first rest
      simp only [settlingIf, if_pos] at operands ⊢
      rw [operands] at hstable
      have hrest : Expression.traceAll rest' = [] :=
        Expression.traceAll_of_stable fun e he => hstable e (List.mem_append_left _ he)
      have ha : a.trace = [] := Expression.trace_of_stable (hstable a (by simp))
      have hb : b.trace = [] := Expression.trace_of_stable (hstable b (by simp))
      rw [trace_settling, hrest, ha, hb]
      simp [Instruction.effect?]
    | false =>
      -- Nothing is settled, but then neither the condition nor what it chooses from has an effect.
      obtain ⟨hcondition, ha, hb⟩ := quiet rfl
      rw [Bool.not_eq_true] at hcondition ha hb
      obtain rfl : rest = rest' ++ [a, b] := operands
      simp [settlingIf, Expression.trace_of_quiet hcondition, Expression.trace_of_quiet ha,
        Expression.trace_of_quiet hb, Statement.traceAll, Expression.traceAll, Instruction.effect?]
  | unreachable =>
    simp [trace_effects, Statement.traceAll, Statement.trace, Expression.traceAll,
      Instruction.effect?]
  | br =>
    simp [trace_effects, Statement.traceAll, Statement.trace, Expression.traceAll,
      Instruction.effect?, values_branchAt]
  | ret =>
    simp [trace_effects, Statement.traceAll, Statement.trace, Expression.traceAll,
      Instruction.effect?]
  | @brIf rest rest' es depth condition type operands target =>
    have hsettled := trace_settled first rest
    rw [operands, Expression.traceAll_append, List.append_eq_nil_iff] at hsettled
    rw [Settling.emit, Statement.traceAll_append, trace_settling, operands,
      Expression.traceAll_append, hsettled.1, hsettled.2]
    simp [Statement.traceAll, Statement.trace, values_branchAt, hsettled.2, Instruction.effect?]
  | @brTable rest rest' es default depths index type operands targets =>
    have hsettled := trace_settled first rest
    rw [operands, Expression.traceAll_append, List.append_eq_nil_iff] at hsettled
    have hbranches := trace_branches hsettled.2 fs (depths ++ [default])
    rw [List.map_append, List.map_singleton] at hbranches
    rw [Settling.emit]
    simp only [Statement.traceAll_append, trace_settling, Statement.traceAll,
      Statement.trace, hbranches, Expression.traceAll_append, Expression.traceAll_singleton]
    simp [Expression.traceAll, Instruction.effect?]

/-- An instruction after which control does not go on leaves nothing pending. -/
theorem operands_of_stops {fs : List Frame} {first : Nat} {pend : List Expression} {o : Outcome}
    (h : Straight ctx fs first i pend o) (hlive : o.live = false) : o.operands = [] := by
  cases h with
  | unreachable | br | ret | brTable => rfl
  | _ => cases hlive

end Build

/-! ### Open blocks -/

namespace Frame

variable {f : Frame}

/-- The effects in an open block: those of its condition, of its first arm and of what it has been
filled with. -/
def trace (f : Frame) : List Effect :=
  f.condition.elim [] Expression.trace ++ Statement.traceAll (f.firstArm.getD [] ++ f.body.toList)

theorem trace_add (f : Frame) (ss : List Statement) :
    (f.add ss).trace = f.trace ++ Statement.traceAll ss := by
  have hbody : (f.add ss).body.toList = f.body.toList ++ ss := toList_body_add f ss
  rw [trace, hbody, ← List.append_assoc, Statement.traceAll_append, ← List.append_assoc]
  rfl

/-- Only an `if` has a condition and two arms, and what is written down for each of them is
stable. -/
structure Arms (f : Frame) : Prop where
  only : f.kind ≠ .conditional → f.condition = none ∧ f.firstArm = none
  params : ∀ e ∈ f.paramValues, e.isStable

/-- A finished block has the effects in it. -/
theorem trace_toStatement (h : f.Arms) : f.toStatement.trace = f.trace := by
  have hnone (hkind : f.kind ≠ .conditional) : f.trace = Statement.traceAll f.body.toList := by
    obtain ⟨hcondition, hfirst⟩ := h.only hkind
    rw [trace, hcondition, hfirst]
    rfl
  have hcondition : (f.condition.getD (.constant .i32 0)).trace =
      f.condition.elim [] Expression.trace := by
    cases f.condition <;> rfl
  unfold toStatement
  split
  · next hkind => exact (hnone (by rw [hkind]; rintro ⟨⟩)).symm
  · split
    · next yes hfirst =>
      rw [Statement.trace, hcondition, trace, hfirst, Option.getD_some, Statement.traceAll_append,
        List.append_assoc]
    · next hfirst =>
      rw [Statement.trace, hcondition, trace, hfirst]
      exact List.append_nil _
  · next hloop hconditional => exact (hnone hconditional).symm

end Frame

namespace Layer

/-- The effects in an open block and in what is pending there. -/
def trace (l : Layer) : List Effect := l.frame.trace ++ Expression.traceAll l.pend

/-- The effects in some open blocks, those in the outer ones first. -/
def traceAll : List Layer → List Effect
  | [] => []
  | l :: ls => traceAll ls ++ l.trace

theorem traceAll_target (targets : Nat → Bool) (ls : List Layer) :
    traceAll (target targets ls) = traceAll ls := by
  induction ls generalizing targets with
  | nil => rfl
  | cons l ls ih => exact congrArg (· ++ l.trace) (ih _)

/-- Nothing is pending in an open block whose end is not reached, and it has the arms of its
kind. -/
structure Ordered (l : Layer) : Prop where
  arms : l.frame.Arms
  dead : l.frame.unreachable = true → l.pend = []

end Layer

/-- An open block with others inside goes on after them, and what is pending there is stable. -/
structure Layer.Outer (l : Layer) : Prop where
  live : l.frame.unreachable = false
  stable : ∀ e ∈ l.pend, e.isStable

/-- The open blocks of a draft are as they should be for its effects to keep their order. -/
structure Draft.Ordered (d : Draft) : Prop where
  layers : ∀ l ∈ d.layers, l.Ordered
  outer : ∀ l ∈ d.layers.tail, l.Outer

namespace Build

variable {ctx : Context} {i : Instruction} {d d' : Draft} {f : Frame} {pend : List Expression}
    {l : Layer}

theorem arms_finished (h : f.Arms) (pend : List Expression) : (finished f pend).Arms := by
  obtain ⟨ss, hss⟩ := exists_finished f pend
  rw [hss]
  exact ⟨h.only, h.params⟩

/-- The end of a block keeps the effects of what is pending there. -/
theorem trace_finished (h : f.unreachable = true → pend = []) :
    (finished f pend).trace = f.trace ++ Expression.traceAll pend := by
  unfold finished
  split
  · next hdead =>
    rw [h hdead]
    exact (List.append_nil _).symm
  · rw [Frame.trace_add, trace_assignments]

theorem trace_secondArm (hfirst : f.firstArm = none) : (secondArm f).trace = f.trace := by
  rw [Frame.trace, Frame.trace, hfirst]
  exact congrArg (fun ss => _ ++ Statement.traceAll ss) (List.append_nil _)

theorem trace_resumed {g : Frame} (hl : ∀ e ∈ l.pend, e.isStable) (hg : g.Arms) :
    (resumed l g).trace = l.trace ++ g.trace := by
  have hadd : (l.frame.add [g.toStatement]).trace = l.frame.trace ++ g.trace := by
    rw [Frame.trace_add, Statement.traceAll, Frame.trace_toStatement hg]
    exact congrArg _ (List.append_nil _)
  have hnone : Expression.traceAll l.pend = [] := Expression.traceAll_of_stable hl
  have hl : l.trace = l.frame.trace := by rw [Layer.trace, hnone, List.append_nil]
  unfold resumed
  dsimp only
  split
  · rw [Layer.trace, Expression.traceAll_append, hnone, Expression.traceAll_refs, hadd, hl]
    exact List.append_nil _
  · rw [hl, ← hadd]
    exact List.append_nil _

theorem ordered_target {ls : List Layer} (h : ∀ l ∈ ls, l.Ordered) (targets : Nat → Bool) :
    ∀ l ∈ Layer.target targets ls, l.Ordered := by
  intro l hl
  obtain ⟨l₀, hl₀, targeted, rfl⟩ := Layer.exists_of_mem_target hl
  exact ⟨⟨(h l₀ hl₀).arms.only, (h l₀ hl₀).arms.params⟩, (h l₀ hl₀).dead⟩

theorem outer_target {ls : List Layer} (h : ∀ l ∈ ls, l.Outer) (targets : Nat → Bool) :
    ∀ l ∈ Layer.target targets ls, l.Outer := by
  intro l hl
  obtain ⟨l₀, hl₀, targeted, rfl⟩ := Layer.exists_of_mem_target hl
  exact ⟨(h l₀ hl₀).live, (h l₀ hl₀).stable⟩

/-- A block that is opened has no effects yet but those of its condition. -/
theorem trace_opening (kind : FrameKind) (type : BlockType) (condition : Option Expression)
    {params : List Expression} (height label : Nat) (temps : Array Temp)
    (hparams : ∀ e ∈ params, e.isStable) :
    let o := opening kind type condition params height label temps
    Layer.trace ⟨o.frame, o.operands⟩ = condition.elim [] Expression.trace ∧
      Statement.traceAll o.before = [] := by
  have hnone : Expression.traceAll params = [] := Expression.traceAll_of_stable hparams
  constructor
  · have hoperands :
        Expression.traceAll (opening kind type condition params height label temps).operands =
          [] := by
      dsimp only [opening]
      split
      · exact Expression.traceAll_refs _ _
      · exact hnone
    rw [Layer.trace, hoperands, Frame.trace, List.append_nil]
    exact List.append_nil _
  · dsimp only [opening]
    rw [trace_assignments]
    split
    · exact hnone
    · rfl

/-- An instruction that stays in a block adds its effect there, and leaves nothing pending where it
stops. -/
theorem trace_layer {fs : List Frame} {first : Nat} {o : Outcome} (hl : Layer.Ordered ⟨f, pend⟩)
    (live : f.unreachable = false) (h : Straight ctx fs first i pend o) :
    (o.layer f).Ordered ∧ (o.layer f).trace = Layer.trace ⟨f, pend⟩ ++ i.effect?.toList := by
  have htrace : (f.add o.statements).trace ++ Expression.traceAll o.operands
      = Layer.trace ⟨f, pend⟩ ++ i.effect?.toList := by
    rw [Frame.trace_add, List.append_assoc, trace_straight h, ← List.append_assoc]
    rfl
  cases hlive : o.live with
  | true =>
    rw [Outcome.layer, if_pos hlive]
    exact ⟨⟨⟨hl.arms.only, hl.arms.params⟩, fun hdead =>
      absurd (live.symm.trans hdead) (by decide)⟩, htrace⟩
  | false =>
    rw [Outcome.layer, if_neg (by rw [hlive]; decide)]
    exact ⟨⟨⟨hl.arms.only, hl.arms.params⟩, fun _ => operands_of_stops h hlive⟩, htrace⟩

theorem ordered_resumed {g : Frame} (hl : l.Ordered) (live : l.frame.unreachable = false) :
    (resumed l g).Ordered := by
  unfold resumed
  dsimp only
  split
  · exact ⟨⟨hl.arms.only, hl.arms.params⟩, fun hdead => absurd (live.symm.trans hdead) (by decide)⟩
  · exact ⟨⟨hl.arms.only, hl.arms.params⟩, fun _ => rfl⟩

/-- Each step adds the effect of its instruction to the trace of a draft. -/
theorem trace_step (h : Step ctx i d d') (hd : d.Ordered) :
    d'.Ordered ∧ Layer.traceAll d'.layers = Layer.traceAll d.layers ++ i.effect?.toList := by
  obtain ⟨hlayers, houter⟩ := hd
  cases h with
  | @straight i f pend ls temps label o live outcome =>
    obtain ⟨hl, hls⟩ := List.forall_mem_cons.mp hlayers
    have hlayer := trace_layer hl live outcome
    refine ⟨⟨ordered_target (List.forall_mem_cons.mpr ⟨hlayer.1, hls⟩) (decide <| · ∈ o.depths),
      outer_target houter fun i => decide (i + 1 ∈ o.depths)⟩, ?_⟩
    rw [Outcome.draft, Layer.traceAll_target, Layer.traceAll, hlayer.2, ← List.append_assoc]
    rfl
  | @enter i kind type condition f pend rest params ls temps label live opens operands types =>
    obtain ⟨hl, hls⟩ := List.forall_mem_cons.mp hlayers
    have hstable : ∀ e ∈ rest ++ params, e.isStable := operands ▸ isStable_settling temps.size pend
    obtain ⟨hrest, hparams⟩ := List.forall_mem_append.mp hstable
    -- What is pending has been bound, so that its effects are among the statements before the
    -- block.
    have hnone : Expression.traceAll rest = [] := Expression.traceAll_of_stable hrest
    have hcondition :
        Expression.traceAll condition.toList = condition.elim [] Expression.trace := by
      cases condition with
      | none => rfl
      | some e => exact Expression.traceAll_singleton e
    have hkind : kind ≠ .conditional → condition = none := by
      cases opens with
      | block | loop => exact fun _ => rfl
      | ifBlock => exact fun hkind => (hkind rfl).elim
    have heffect : i.effect? = none := by
      cases opens <;> rfl
    obtain ⟨hopened, hbefore⟩ := trace_opening kind type condition
      (Layer.stack (⟨f, rest⟩ :: ls)).length label
        (temps ++ (settling temps.size pend).temps.toArray) hparams
    refine ⟨⟨List.forall_mem_cons.mpr ⟨⟨⟨fun h => ⟨hkind h, rfl⟩, hparams⟩, by rintro ⟨⟩⟩,
      List.forall_mem_cons.mpr ⟨⟨⟨hl.arms.only, hl.arms.params⟩, fun hdead => ?_⟩, hls⟩⟩,
      List.forall_mem_cons.mpr ⟨⟨live, hrest⟩, houter⟩⟩, ?_⟩
    · exact absurd (live.symm.trans hdead) (by decide)
    · rw [heffect, Opening.draft, Layer.traceAll, Layer.traceAll, hopened, Layer.trace,
        Frame.trace_add, hbefore, Frame.trace_add, trace_settling, hnone, Layer.traceAll,
          Layer.trace, Expression.traceAll_append, hcondition]
      simp
  | @second f pend ls temps label kind first types =>
    obtain ⟨hl, hls⟩ := List.forall_mem_cons.mp hlayers
    have hkept : (finished f pend).kind = .conditional ∧ (finished f pend).firstArm = none := by
      obtain ⟨ss, hss⟩ := exists_finished f pend
      rw [hss]
      exact ⟨kind, first⟩
    refine ⟨⟨List.forall_mem_cons.mpr
      ⟨⟨⟨fun hkind => (hkind hkept.1).elim, ?_⟩, by rintro ⟨⟩⟩, hls⟩, houter⟩, ?_⟩
    · exact (arms_finished hl.arms pend).params
    · have hnone : Expression.traceAll f.paramValues = [] :=
        Expression.traceAll_of_stable hl.arms.params
      rw [Layer.traceAll, Layer.trace, hnone, trace_secondArm hkept.2, trace_finished hl.dead,
        List.append_nil]
      exact (List.append_nil _).symm
  | @leave f pend l ls temps label kind arms types =>
    obtain ⟨hl, hl', hls⟩ := List.forall_mem_cons.mp hlayers |>.imp_right List.forall_mem_cons.mp
    obtain ⟨hlive, houter⟩ := List.forall_mem_cons.mp houter
    refine ⟨⟨List.forall_mem_cons.mpr ⟨ordered_resumed hl' hlive.live, hls⟩, houter⟩, ?_⟩
    rw [Layer.traceAll, trace_resumed hlive.stable (arms_finished hl.arms pend),
      trace_finished hl.dead, ← List.append_assoc]
    exact (List.append_nil _).symm

/-- What a path of steps builds has the effects of its instructions. -/
theorem trace_path {is : List Instruction} (h : Path ctx is d d') (hd : d.Ordered) :
    d'.Ordered ∧ Layer.traceAll d'.layers =
      Layer.traceAll d.layers ++ is.filterMap Instruction.effect? := by
  induction h with
  | nil => exact ⟨hd, (List.append_nil _).symm⟩
  | @cons i is _ _ _ first _ ih =>
    obtain ⟨hd', htrace⟩ := trace_step first hd
    obtain ⟨hd'', hrest⟩ := ih hd'
    refine ⟨hd'', ?_⟩
    rw [hrest, htrace, List.append_assoc, List.filterMap_cons]
    cases i.effect? <;> rfl

theorem ordered_start (type : FunctionType) : (Draft.start type).Ordered where
  layers := List.forall_mem_singleton.mpr
    ⟨⟨fun _ => ⟨rfl, rfl⟩, fun _ he => absurd he List.not_mem_nil⟩, by rintro ⟨⟩⟩
  outer := fun _ h => absurd h List.not_mem_nil

/-- The body of a function has the effects in it and in its results. -/
theorem trace_finishedBody (hf : f.Arms) (hkind : f.kind = .function)
    (hdead : f.unreachable = true → pend = []) :
    Statement.traceAll (finishedBody f pend) = Layer.trace ⟨f, pend⟩ := by
  obtain ⟨hcondition, hfirst⟩ := hf.only (by rw [hkind]; rintro ⟨⟩)
  have hbody : f.trace = Statement.traceAll f.body.toList := by
    rw [Frame.trace, hcondition, hfirst]
    rfl
  rw [Layer.trace, hbody, finishedBody]
  split
  · next hends =>
    obtain rfl : pend = [] := hends.elim hdead id
    exact (List.append_nil _).symm
  · rw [Statement.traceAll_append]
    exact congrArg _ (List.append_nil _)

end Build

/-! ### Functions -/

/-- The `else` and `end` instructions have no effects. -/
theorem filterMap_effect_closes (is : List Instruction) :
    (is.filter (!·.closesBlock)).filterMap Instruction.effect? =
      is.filterMap Instruction.effect? := by
  induction is with
  | nil => rfl
  | cons i is ih =>
    rw [List.filter_cons]
    cases hi : i.closesBlock with
    | true =>
      have hnone : i.effect? = none := by
        cases i <;> first | rfl | cases hi
      rw [List.filterMap_cons, hnone]
      exact ih
    | false =>
      rw [if_pos (by rfl), List.filterMap_cons, List.filterMap_cons, ih]

/-- The effects in a function that is built are those of the instructions of its body that are
reached, each of them once and in their order. -/
theorem effects_keep_order {m : Module} {index : Nat} {fn : Function}
    (h : buildFunction m index = .ok fn) :
    ∃ body, m.bodies[index - m.imports.size]? = some body ∧
      Statement.traceAll fn.body
        = (Reach.reached (Located.plain body.instructions.toList) Reach.start).filterMap
          Instruction.effect? := by
  obtain ⟨type, body, is, f, pend, temps, label, -, hfound, -, hpath, hkind, -, hbody, his⟩ :=
    exists_path_of_build h
  obtain ⟨hordered, htrace⟩ := Build.trace_path hpath (Build.ordered_start type)
  have hlayer : Layer.Ordered ⟨f, pend⟩ := hordered.layers _ List.mem_cons_self
  refine ⟨body, hfound, ?_⟩
  calc Statement.traceAll fn.body
      = Layer.trace ⟨f, pend⟩ := by
        rw [hbody, Build.trace_finishedBody hlayer.arms hkind hlayer.dead]
    _ = is.filterMap Instruction.effect? := htrace
    _ = (is.filter (!·.closesBlock)).filterMap Instruction.effect? :=
      (filterMap_effect_closes is).symm
    _ = _ := by rw [his, filterMap_effect_closes]

/-- A function that divides its parameter by itself, sets it to 7 while the quotient is pending, and
leaves with the quotient before an instruction that is not reached. -/
def pendingDivision : Module where
  types := #[⟨[.i32], [.i32]⟩]
  functions := #[0]
  bodies :=
    #[⟨#[], #[⟨26, .localGet 0⟩, ⟨28, .localGet 0⟩, ⟨30, .numeric 0x6d⟩, ⟨31, .const (.i32 7)⟩,
      ⟨33, .localSet 0⟩,
      ⟨35, .br 0⟩, ⟨37, .memoryGrow⟩, ⟨39, .endMark⟩], 25⟩]

/-- The division is done first, and then the local variable is set. -/
theorem effects_keep_order_pending :
    ∃ fn, buildFunction pendingDivision 0 = .ok fn ∧ Statement.traceAll fn.body =
      [.divide 0x6d, .localSet 0] := by
  have hbuilt : (buildFunction pendingDivision 0).toOption.isSome := by decide +kernel
  cases hbuild : buildFunction pendingDivision 0 with
  | error e =>
    rw [hbuild] at hbuilt
    cases hbuilt
  | ok fn =>
    obtain ⟨body, hbody, htrace⟩ := effects_keep_order hbuild
    cases hbody
    exact ⟨fn, rfl, htrace⟩

end IR

end WasmScript
