/-
  WasmScript/Proofs/IR/Plain.lean
  ===============================
  **Plain instructions** — the instructions that take operands of certain types, give
  results of certain types and do not touch control.

  `Instruction.signature` is what validation says of them, rule by rule in `HasType`.  A
  builder treats them all alike: it pops operands of the types in the signature, makes
  something of them, and pushes it or emits it after all that is pending.
  `Instruction.work` is what it makes, rule by rule in `Becomes`, and `step_plain` says that
  this is how each of them is built.  An instruction
  without a signature is at fault, whatever is on the stack.
-/
import WasmScript.Proofs.IR.Primitives
import WasmScript.Proofs.Integer.Meaning

namespace WasmScript

/-! ### What validation says -/

namespace Instruction

/-- The types of the operands and of the results of a plain instruction, if what it refers to is
there and may be used in this way. -/
def signature (m : Module) (locals : Array ValueType) : Instruction → Option FunctionType
  | .call function => m.functionType? function
  | .localGet index => locals[index]?.map fun type => ⟨[], [type]⟩
  | .localSet index => locals[index]?.map fun type => ⟨[type], []⟩
  | .localTee index => locals[index]?.map fun type => ⟨[type], [type]⟩
  | .globalGet index => m.globals[index]?.map fun g => ⟨[], [g.type]⟩
  | .globalSet index =>
    m.globals[index]?.bind fun g => if g.isMutable then some ⟨[g.type], []⟩ else none
  | .const v => some ⟨[], [v.type]⟩
  | .numeric opcode =>
    (NumericOp.ofOpcode? opcode).map fun op => ⟨List.replicate op.arity op.operand, [op.result]⟩
  | .load opcode _ =>
    if m.memory.isSome then
      (Access.ofOpcode? opcode).bind fun access =>
        if access.isStore then none else some ⟨[.i32], [access.type]⟩
    else none
  | .store opcode _ =>
    if m.memory.isSome then
      (Access.ofOpcode? opcode).bind fun access =>
        if access.isStore then some ⟨[.i32, access.type], []⟩ else none
    else none
  | .memorySize => if m.memory.isSome then some ⟨[], [.i32]⟩ else none
  | .memoryGrow => if m.memory.isSome then some ⟨[.i32], [.i32]⟩ else none
  | .memoryCopy | .memoryFill =>
    if m.memory.isSome then some ⟨[.i32, .i32, .i32], []⟩ else none
  | _ => none

def isPlain : Instruction → Bool
  | .call _ | .localGet _ | .localSet _ | .localTee _ | .globalGet _ | .globalSet _ | .const _
  | .numeric _ | .load .. | .store .. | .memorySize | .memoryGrow | .memoryCopy | .memoryFill =>
    true
  | _ => false

/-- Whether the opcodes of an instruction are those of operators, loads and stores. -/
def Known : Instruction → Prop
  | .numeric opcode => (NumericOp.ofOpcode? opcode).isSome
  | .load opcode _ => ∃ access, Access.ofOpcode? opcode = some access ∧ access.isStore = false
  | .store opcode _ => ∃ access, Access.ofOpcode? opcode = some access ∧ access.isStore = true
  | _ => True

/-- The types of plain instructions, with what each of them asks for. -/
inductive HasType (m : Module) (locals : Array ValueType) : Instruction → FunctionType → Prop
  | call {function : Nat} {type : FunctionType} (found : m.functionType? function = some type) :
      HasType m locals (.call function) type
  | localGet {index : Nat} {type : ValueType} (found : locals[index]? = some type) :
      HasType m locals (.localGet index) ⟨[], [type]⟩
  | localSet {index : Nat} {type : ValueType} (found : locals[index]? = some type) :
      HasType m locals (.localSet index) ⟨[type], []⟩
  | localTee {index : Nat} {type : ValueType} (found : locals[index]? = some type) :
      HasType m locals (.localTee index) ⟨[type], [type]⟩
  | globalGet {index : Nat} {g : Global} (found : m.globals[index]? = some g) :
      HasType m locals (.globalGet index) ⟨[], [g.type]⟩
  | globalSet {index : Nat} {g : Global} (found : m.globals[index]? = some g)
      (isMutable : g.isMutable) :
      HasType m locals (.globalSet index) ⟨[g.type], []⟩
  | const (v : Value) : HasType m locals (.const v) ⟨[], [v.type]⟩
  | numeric {opcode : Nat} {op : NumericOp} (found : NumericOp.ofOpcode? opcode = some op) :
      HasType m locals (.numeric opcode) ⟨List.replicate op.arity op.operand, [op.result]⟩
  | load {opcode : Nat} {access : Access} (memory : m.memory.isSome)
      (found : Access.ofOpcode? opcode = some access) (loads : access.isStore = false)
        (arg : MemArg) :
      HasType m locals (.load opcode arg) ⟨[.i32], [access.type]⟩
  | store {opcode : Nat} {access : Access} (memory : m.memory.isSome)
      (found : Access.ofOpcode? opcode = some access) (stores : access.isStore = true)
        (arg : MemArg) :
      HasType m locals (.store opcode arg) ⟨[.i32, access.type], []⟩
  | memorySize (memory : m.memory.isSome) : HasType m locals .memorySize ⟨[], [.i32]⟩
  | memoryGrow (memory : m.memory.isSome) : HasType m locals .memoryGrow ⟨[.i32], [.i32]⟩
  | memoryCopy (memory : m.memory.isSome) : HasType m locals .memoryCopy ⟨[.i32, .i32, .i32], []⟩
  | memoryFill (memory : m.memory.isSome) : HasType m locals .memoryFill ⟨[.i32, .i32, .i32], []⟩

theorem hasType_of_signature {m : Module} {locals : Array ValueType} {i : Instruction}
    {type : FunctionType} (h : i.signature m locals = some type) : i.HasType m locals type := by
  -- Each condition of a signature is one that the typing asks for.
  cases i with
  | call function => exact .call h
  | localGet index | localSet index | localTee index =>
    obtain ⟨t, ht, rfl⟩ := Option.map_eq_some_iff.mp h
    constructor
    exact ht
  | globalGet index =>
    obtain ⟨g, hg, rfl⟩ := Option.map_eq_some_iff.mp h
    exact .globalGet hg
  | globalSet index =>
    obtain ⟨g, hg, h⟩ := Option.bind_eq_some_iff.mp h
    obtain ⟨hmutable, heq⟩ := Option.ite_none_right_eq_some.mp h
    obtain rfl := Option.some.inj heq
    exact .globalSet hg hmutable
  | const v =>
    obtain rfl := Option.some.inj h
    exact .const v
  | numeric opcode =>
    obtain ⟨op, hop, rfl⟩ := Option.map_eq_some_iff.mp h
    exact .numeric hop
  | load opcode arg =>
    obtain ⟨hmemory, h⟩ := Option.ite_none_right_eq_some.mp h
    obtain ⟨access, haccess, h⟩ := Option.bind_eq_some_iff.mp h
    obtain ⟨hload, heq⟩ := Option.ite_none_left_eq_some.mp h
    obtain rfl := Option.some.inj heq
    exact .load hmemory haccess (Bool.eq_false_iff.mpr hload) arg
  | store opcode arg =>
    obtain ⟨hmemory, h⟩ := Option.ite_none_right_eq_some.mp h
    obtain ⟨access, haccess, h⟩ := Option.bind_eq_some_iff.mp h
    obtain ⟨hstore, heq⟩ := Option.ite_none_right_eq_some.mp h
    obtain rfl := Option.some.inj heq
    exact .store hmemory haccess hstore arg
  | memorySize | memoryGrow | memoryCopy | memoryFill =>
    obtain ⟨hmemory, heq⟩ := Option.ite_none_right_eq_some.mp h
    obtain rfl := Option.some.inj heq
    constructor
    exact hmemory
  | _ => cases h

end Instruction

namespace IR

/-! ### What is made of the operands -/

/-- The expression for an operator and its operands.  A test is a comparison with zero. -/
def Expression.ofOperator (op : NumericOp) : List Expression → Option Expression
  | [a] =>
    match op.category with
    | .test => some (.compare op a (.constant op.operand 0))
    | .unary | .convert => some (.unary op.result op a)
    | _ => none
  | [a, b] =>
    match op.category with
    | .compare => some (.compare op a b)
    | .binary => some (.binary op.result op a b)
    | _ => none
  | _ => none

/-- What a plain instruction becomes: an operand, a statement or a call with several results. -/
inductive Work where
  | value (e : Expression)
  | statement (s : Statement)
  | results (function : Nat) (args : List Expression) (types : List ValueType)

def Work.types : Work → List ValueType
  | .value e => [e.type]
  | .statement _ => []
  | .results _ _ types => types

def Work.ofCall (function : Nat) (args : List Expression) : List ValueType → Work
  | [result] => .value (.call result function args)
  | [] => .statement (.evaluate (.multi function args []))
  | types => .results function args types

theorem Work.types_ofCall (function : Nat) (args : List Expression) (types : List ValueType) :
    (Work.ofCall function args types).types = types := by
  rcases types with _ | ⟨r, _ | ⟨r', rs⟩⟩ <;> rfl

namespace Build

/-- Adds what an instruction becomes to what is built. -/
def accept (ctx : Context) : Work → Build Unit
  | .value e => push e
  | .statement s => do
    flush ctx
    emit ctx s
  | .results function args types => do
    flush ctx
    let ids ← types.mapM (newTemp .value)
    emit ctx (.define ids (.multi function args types))
    pushAll (refs ids types)

end Build

end IR

/-- What a builder makes of a plain instruction and its operands. -/
def Instruction.work (m : Module) (locals : Array ValueType) :
    Instruction → List IR.Expression → Option IR.Work
  | .call function, args =>
    (m.functionType? function).map fun type => .ofCall function args type.results
  | .localGet index, [] => locals[index]?.map fun type => .value (.localRef type index)
  | .localSet index, [e] => some (.statement (.localSet index e))
  | .localTee index, [e] => locals[index]?.map fun type => .value (.tee type index e)
  | .globalGet index, [] => m.globals[index]?.map fun g => .value (.globalRef g.type index)
  | .globalSet index, [e] => some (.statement (.globalSet index e))
  | .const v, [] => some (.value (.constant v.type v.toInt))
  | .numeric opcode, es =>
    (NumericOp.ofOpcode? opcode).bind fun op => (IR.Expression.ofOperator op es).map .value
  | .load opcode arg, [base] =>
    (Access.ofOpcode? opcode).map fun access =>
      .value (.load access (base.effectiveAddress arg.offset))
  | .store opcode arg, [base, value] =>
    (Access.ofOpcode? opcode).map fun access =>
      .statement (.store access (base.effectiveAddress arg.offset) value)
  | .memorySize, [] => some (.value .memorySize)
  | .memoryGrow, [delta] => some (.value (.memoryGrow delta))
  | .memoryCopy, [destination, source, length] =>
    some (.statement (.memoryCopy destination source length))
  | .memoryFill, [destination, value, length] =>
    some (.statement (.memoryFill destination value length))
  | _, _ => none

namespace Instruction

open IR (Expression Work)

/-- What plain instructions become with some operands. -/
inductive Becomes (m : Module) (locals : Array ValueType) :
    Instruction → List Expression → Work → Prop
  | call {function : Nat} {type : FunctionType} (found : m.functionType? function = some type)
      (es : List Expression) :
        Becomes m locals (.call function) es (.ofCall function es type.results)
  | localGet {index : Nat} {type : ValueType} (found : locals[index]? = some type) :
      Becomes m locals (.localGet index) [] (.value (.localRef type index))
  | localSet (index : Nat) (e : Expression) :
      Becomes m locals (.localSet index) [e] (.statement (.localSet index e))
  | localTee {index : Nat} {type : ValueType} (found : locals[index]? = some type)
      (e : Expression) :
      Becomes m locals (.localTee index) [e] (.value (.tee type index e))
  | globalGet {index : Nat} {g : Global} (found : m.globals[index]? = some g) :
      Becomes m locals (.globalGet index) [] (.value (.globalRef g.type index))
  | globalSet (index : Nat) (e : Expression) :
      Becomes m locals (.globalSet index) [e] (.statement (.globalSet index e))
  | const (v : Value) : Becomes m locals (.const v) [] (.value (.constant v.type v.toInt))
  | numeric {opcode : Nat} {op : NumericOp} {es : List Expression} {e : Expression}
      (found : NumericOp.ofOpcode? opcode = some op) (made : Expression.ofOperator op es = some e) :
      Becomes m locals (.numeric opcode) es (.value e)
  | load {opcode : Nat} {access : Access} (found : Access.ofOpcode? opcode = some access)
      (arg : MemArg)
      (base : Expression) :
      Becomes m locals (.load opcode arg) [base]
        (.value (.load access (base.effectiveAddress arg.offset)))
  | store {opcode : Nat} {access : Access} (found : Access.ofOpcode? opcode = some access)
      (arg : MemArg)
      (base e : Expression) :
      Becomes m locals (.store opcode arg) [base, e]
        (.statement (.store access (base.effectiveAddress arg.offset) e))
  | memorySize : Becomes m locals .memorySize [] (.value .memorySize)
  | memoryGrow (delta : Expression) :
      Becomes m locals .memoryGrow [delta] (.value (.memoryGrow delta))
  | memoryCopy (d s n : Expression) :
      Becomes m locals .memoryCopy [d, s, n] (.statement (.memoryCopy d s n))
  | memoryFill (d e n : Expression) :
      Becomes m locals .memoryFill [d, e, n] (.statement (.memoryFill d e n))

theorem becomes_of_work {m : Module} {locals : Array ValueType} {i : Instruction}
    {es : List Expression} {w : Work} (h : i.work m locals es = some w) :
    i.Becomes m locals es w := by
  unfold work at h
  split at h
  · obtain ⟨type, found, rfl⟩ := Option.map_eq_some_iff.mp h
    exact .call found _
  · obtain ⟨type, found, rfl⟩ := Option.map_eq_some_iff.mp h
    exact .localGet found
  · cases h
    exact .localSet _ _
  · obtain ⟨type, found, rfl⟩ := Option.map_eq_some_iff.mp h
    exact .localTee found _
  · obtain ⟨g, found, rfl⟩ := Option.map_eq_some_iff.mp h
    exact .globalGet found
  · cases h
    exact .globalSet _ _
  · cases h
    exact .const _
  · obtain ⟨op, found, h⟩ := Option.bind_eq_some_iff.mp h
    obtain ⟨e, made, rfl⟩ := Option.map_eq_some_iff.mp h
    exact .numeric found made
  · obtain ⟨access, found, rfl⟩ := Option.map_eq_some_iff.mp h
    exact .load found _ _
  · obtain ⟨access, found, rfl⟩ := Option.map_eq_some_iff.mp h
    exact .store found _ _ _
  · cases h
    exact .memorySize
  · cases h
    exact .memoryGrow _
  · cases h
    exact .memoryCopy _ _ _
  · cases h
    exact .memoryFill _ _ _
  · cases h

end Instruction

namespace IR.Build

variable {ctx : Context} {b : Builder} {α : Type}

/-! ### How plain instructions are built -/

def plain (ctx : Context) (i : Instruction) (type : FunctionType) : Build Unit := do
  let es ← popValues ctx type.params
  match i.work ctx.module ctx.localTypes es with
  | some w => accept ctx w
  | none => fail ctx .unterminated

theorem popValues_none (k : List Expression → Build α) : popValues ctx [] >>= k = k [] := by
  simp [popValues, popInto]

theorem popValues_one (type : ValueType) (k : List Expression → Build α) :
    popValues ctx [type] >>= k = pop ctx (some type) >>= fun e => k [e] := by
  simp [popValues, popInto]

theorem popValues_two (s t : ValueType) (k : List Expression → Build α) :
    popValues ctx [s, t] >>= k
      = pop ctx (some t) >>= fun b => pop ctx (some s) >>= fun a => k [a, b] := by
  simp [popValues, popInto]

theorem popValues_three (s t u : ValueType) (k : List Expression → Build α) :
    popValues ctx [s, t, u] >>= k
      = pop ctx (some u) >>= fun c => pop ctx (some t) >>= fun b =>
          pop ctx (some s) >>= fun a => k [a, b, c] := by
  simp [popValues, popInto]

theorem localType_eq {index : Nat} {type : ValueType} (h : ctx.localTypes[index]? = some type) :
    localType ctx index = pure type := by
  rw [localType, h]

theorem globalAt_eq {index : Nat} {g : Global} (h : ctx.module.globals[index]? = some g) :
    globalAt ctx index = pure g := by
  rw [globalAt, h]

theorem calleeType_eq {index : Nat} {type : FunctionType}
    (h : ctx.module.functionType? index = some type) : calleeType ctx index = pure type := by
  rw [calleeType, h]

theorem requireMemory_eq (h : ctx.module.memory.isSome) : requireMemory ctx = pure () :=
  require_eq h

theorem requireMemory_fails (h : ¬ ctx.module.memory.isSome) :
    Fails (requireMemory ctx b) b.pos := require_fails h

theorem ofAccess_bind {β : Type} (a : α) (k : α → Build β) : ofAccess (.ok a) >>= k = k a := rfl

theorem loadOf_eq {arg : MemArg} {access : Access} {base : Expression}
    (hload : access.isStore = false) :
    loadOf access arg base = .ok (.load access (base.effectiveAddress arg.offset)) := by
  rw [loadOf, if_neg (by rw [hload]; exact Bool.false_ne_true)]
  rfl

theorem storeOf_eq {arg : MemArg} {access : Access} {base value : Expression}
    (hstore : access.isStore = true) :
    storeOf access arg base value
      = .ok (.store access (base.effectiveAddress arg.offset) value) := by
  rw [storeOf, if_neg (by rw [hstore]; exact Bool.false_ne_true)]
  rfl

/-- Each plain instruction is built in the same way. -/
theorem step_plain {i : Instruction} {type : FunctionType}
    (h : i.signature ctx.module ctx.localTypes = some type) : step ctx i = plain ctx i type := by
  cases Instruction.hasType_of_signature h with
  | localGet found =>
    rw [step, localType_eq found, plain, popValues_none, Instruction.work, found]
    rfl
  | localSet found =>
    rw [step, localType_eq found, plain, popValues_one]
    rfl
  | localTee found =>
    rw [step, localType_eq found, plain, popValues_one]
    simp only [Instruction.work, found]
    rfl
  | globalGet found =>
    rw [step, globalAt_eq found, plain, popValues_none, Instruction.work, found]
    rfl
  | globalSet found isMutable =>
    rw [step, globalAt_eq found, plain, popValues_one]
    simp only [pure_bind, require_eq isMutable]
    rfl
  | const v =>
    rw [step, plain, popValues_none]
    rfl
  | @numeric opcode op found =>
    rw [step, plain, numeric]
    simp only [found, Instruction.work, Option.bind_some]
    -- The category tells how many operands there are.
    cases hcat : op.category <;>
      simp only [NumericOp.arity, hcat, List.replicate, popValues_one, popValues_two,
        Expression.ofOperator, Option.map_some, accept]
  | @load opcode access memory found loads arg =>
    have hfound : describeAccess opcode = .ok access := by rw [describeAccess, found]
    rw [step, requireMemory_eq memory, hfound, plain, popValues_one]
    simp only [Instruction.work, found, pure_bind, ofAccess_bind, loadOf_eq loads]
    rfl
  | @store opcode access memory found stores arg =>
    have hfound : describeAccess opcode = .ok access := by rw [describeAccess, found]
    rw [step, requireMemory_eq memory, hfound, plain, popValues_two]
    simp only [Instruction.work, found, pure_bind, ofAccess_bind, storeOf_eq stores]
    rfl
  | memorySize memory =>
    rw [step, requireMemory_eq memory, plain, popValues_none]
    rfl
  | memoryGrow memory =>
    rw [step, requireMemory_eq memory, plain, popValues_one]
    rfl
  | memoryCopy memory | memoryFill memory =>
    rw [step, requireMemory_eq memory, plain, popValues_three]
    rfl
  | call found =>
    rw [step, call, calleeType_eq found, plain, pure_bind]
    simp only [Instruction.work, found, Option.map_some]
    congr
    funext args
    -- A call becomes something else without results, with one and with several.
    rcases type.results with _ | ⟨r, _ | ⟨r', rs⟩⟩ <;> rfl

/-- A plain instruction without a type is at fault. -/
theorem step_fails {i : Instruction} (hplain : i.isPlain) (hknown : i.Known)
    (h : i.signature ctx.module ctx.localTypes = none) (b : Builder) :
    Fails (step ctx i b) b.pos := by
  have hlocal {index : Nat} (hnone : ctx.localTypes[index]? = none) :
      Fails (localType ctx index b) b.pos := by
    rw [localType, hnone]
    exact fail_fails _
  have hglobal {index : Nat} (hnone : ctx.module.globals[index]? = none) :
      Fails (globalAt ctx index b) b.pos := by
    rw [globalAt, hnone]
    exact fail_fails _
  have hmemory {type : Option FunctionType} (hsome : type.isSome)
      (hnone : (if ctx.module.memory.isSome then type else none) = none) :
      Fails (requireMemory ctx b) b.pos := by
    refine requireMemory_fails fun hmem => ?_
    rw [if_pos hmem] at hnone
    rw [hnone] at hsome
    cases hsome
  -- What a signature may lack is looked up before any operand is taken.
  cases i with
  | localGet index => exact bind_of_fails (hlocal (Option.map_eq_none_iff.mp h))
  | localSet index => exact bind_of_fails (hlocal (Option.map_eq_none_iff.mp h))
  | localTee index => exact bind_of_fails (hlocal (Option.map_eq_none_iff.mp h))
  | globalGet index => exact bind_of_fails (hglobal (Option.map_eq_none_iff.mp h))
  | globalSet index =>
    rw [step]
    cases hg : ctx.module.globals[index]? with
    | none => exact bind_of_fails (hglobal hg)
    | some g =>
      simp only [Instruction.signature, hg, Option.bind_some] at h
      have himmutable : ¬ g.isMutable := fun hm => by rw [if_pos hm] at h; cases h
      rw [globalAt_eq hg, pure_bind]
      exact bind_of_fails (require_fails himmutable)
  | const v => cases h
  | numeric opcode =>
    obtain ⟨op, hop⟩ := Option.isSome_iff_exists.mp hknown
    simp only [Instruction.signature, hop] at h
    cases h
  | load opcode arg =>
    obtain ⟨access, haccess, hload⟩ := hknown
    simp only [Instruction.signature, haccess, Option.bind_some, hload] at h
    exact bind_of_fails (hmemory rfl h)
  | store opcode arg =>
    obtain ⟨access, haccess, hstore⟩ := hknown
    simp only [Instruction.signature, haccess, Option.bind_some, hstore] at h
    exact bind_of_fails (hmemory rfl h)
  | memorySize => exact bind_of_fails (hmemory rfl h)
  | memoryGrow => exact bind_of_fails (hmemory rfl h)
  | memoryCopy => exact bind_of_fails (hmemory rfl h)
  | memoryFill => exact bind_of_fails (hmemory rfl h)
  | call function =>
    have hnone : ctx.module.functionType? function = none := h
    rw [step, call]
    refine bind_of_fails ?_
    rw [calleeType, hnone]
    exact fail_fails _
  | _ => cases hplain

/-! ### What comes of it -/

theorem exists_ofOperator {op : NumericOp} (hop : op ∈ NumericOp.table) {es : List Expression}
    (hlen : es.length = op.arity) :
    ∃ e, Expression.ofOperator op es = some e ∧ e.type = op.result := by
  have hregular := NumericOp.regular_of_mem op hop
  cases hcat : op.category <;>
    simp only [NumericOp.arity, NumericOp.Regular, hcat] at hlen hregular
  case test =>
    obtain ⟨a, rfl⟩ := List.length_eq_one_iff.mp hlen
    exact ⟨.compare op a (.constant op.operand 0), by rw [Expression.ofOperator, hcat],
      hregular.2.symm⟩
  case compare =>
    obtain ⟨a, b, rfl⟩ := List.length_eq_two.mp hlen
    exact ⟨.compare op a b, by rw [Expression.ofOperator, hcat], hregular.2.symm⟩
  case binary =>
    obtain ⟨a, b, rfl⟩ := List.length_eq_two.mp hlen
    exact ⟨_, by rw [Expression.ofOperator, hcat], rfl⟩
  all_goals
    obtain ⟨a, rfl⟩ := List.length_eq_one_iff.mp hlen
    exact ⟨_, by rw [Expression.ofOperator, hcat], rfl⟩

/-- Of operands of the right types, something is made that has the right types. -/
theorem exists_work {m : Module} {locals : Array ValueType} {i : Instruction} {type : FunctionType}
    (h : i.signature m locals = some type) {es : List Expression}
    (hes : es.map Expression.type = type.params) :
    ∃ w, i.work m locals es = some w ∧ w.types = type.results := by
  have hlen : es.length = type.params.length := by rw [← hes, List.length_map]
  -- The signature says how many operands there are, which is how many the instruction works on.
  cases Instruction.hasType_of_signature h with
  | @localGet index t found =>
    obtain rfl := List.map_eq_nil_iff.mp hes
    exact ⟨.value (.localRef t index), by rw [Instruction.work, found]; rfl, rfl⟩
  | localSet found =>
    obtain ⟨e, rfl⟩ := List.length_eq_one_iff.mp hlen
    exact ⟨_, rfl, rfl⟩
  | @localTee index t found =>
    obtain ⟨e, rfl⟩ := List.length_eq_one_iff.mp hlen
    exact ⟨.value (.tee t index e), by rw [Instruction.work, found]; rfl, rfl⟩
  | @globalGet index g found =>
    obtain rfl := List.map_eq_nil_iff.mp hes
    exact ⟨.value (.globalRef g.type index), by rw [Instruction.work, found]; rfl, rfl⟩
  | globalSet found isMutable =>
    obtain ⟨e, rfl⟩ := List.length_eq_one_iff.mp hlen
    exact ⟨_, rfl, rfl⟩
  | const v =>
    obtain rfl := List.map_eq_nil_iff.mp hes
    cases v <;> exact ⟨_, rfl, rfl⟩
  | @numeric opcode op found =>
    rw [List.length_replicate] at hlen
    obtain ⟨e, he, htype⟩ := exists_ofOperator (List.mem_of_find?_eq_some found) hlen
    refine ⟨.value e, ?_, congrArg (fun t => [t]) htype⟩
    rw [Instruction.work, found, Option.bind_some, he]
    rfl
  | @load opcode access memory found loads arg =>
    obtain ⟨e, rfl⟩ := List.length_eq_one_iff.mp hlen
    exact ⟨.value (.load access (e.effectiveAddress arg.offset)), by
      rw [Instruction.work, found]; rfl, rfl⟩
  | @store opcode access memory found stores arg =>
    obtain ⟨e, e', rfl⟩ := List.length_eq_two.mp hlen
    exact ⟨.statement (.store access (e.effectiveAddress arg.offset) e'),
      by rw [Instruction.work, found]; rfl, rfl⟩
  | memorySize memory =>
    obtain rfl := List.map_eq_nil_iff.mp hes
    exact ⟨_, rfl, rfl⟩
  | memoryGrow memory =>
    obtain ⟨e, rfl⟩ := List.length_eq_one_iff.mp hlen
    exact ⟨_, rfl, rfl⟩
  | memoryCopy memory | memoryFill memory =>
    obtain ⟨d, s, n, rfl⟩ := List.length_eq_three.mp hlen
    exact ⟨_, rfl, rfl⟩
  | @call function type found =>
    refine ⟨.ofCall function es type.results, ?_, Work.types_ofCall ..⟩
    rw [Instruction.work, found]
    rfl

/-- What becomes of what is pending, together with something new. -/
def settlingWork (first : Nat) (pend : List Expression) : Work → Settling
  | .value e => ⟨pend ++ [e], [], []⟩
  | .statement s =>
    let settled := settling first pend
    ⟨settled.operands, settled.statements ++ [s], settled.temps⟩
  | .results function args types =>
    let settled := settling first pend
    let next := first + settled.temps.length
    let ids := List.range' next types.length
    ⟨settled.operands ++ refs ids types,
      settled.statements ++ [.define ids (.multi function args types)],
      settled.temps ++ freshTemps .value next types⟩

variable {f : Frame} {fs : List Frame} {pend below : List Expression} {temps : Array Temp}
variable {label pos : Nat}

theorem accept_eq (hbelow : ∀ e ∈ below, e.isStable) (w : Work) :
    accept ctx w ⟨pend.reverse ++ below, f :: fs, temps, label, pos⟩
      = .ok ((), ⟨(settlingWork temps.size pend w).operands.reverse ++ below,
          f.add (settlingWork temps.size pend w).statements :: fs,
          temps ++ (settlingWork temps.size pend w).temps.toArray, label, pos⟩) := by
  cases w with
  | value e =>
    rw [accept, push_eq]
    simp [settlingWork]
  | statement s =>
    rw [accept, bind_of_ok (flush_eq hbelow), emit_eq, Frame.add_add]
    rfl
  | results function args types =>
    rw [accept, bind_of_ok (flush_eq hbelow), bind_of_ok (newTemps_eq _ _ _),
      bind_of_ok (emit_eq _), pushAll_eq, Frame.add_add]
    simp [settlingWork]

theorem types_refs : ∀ {ids : List Nat} {types : List ValueType}, ids.length = types.length →
    (refs ids types).map Expression.type = types
  | [], [], _ => rfl
  | _ :: _, type :: _, h => congrArg (type :: ·) (types_refs (Nat.succ.inj h))

theorem types_settlingWork (first : Nat) (pend : List Expression) (w : Work) :
    (settlingWork first pend w).operands.map Expression.type
      = pend.map Expression.type ++ w.types := by
  cases w with
  | value e => exact List.map_append
  | statement s => exact (types_settling first pend).trans (List.append_nil _).symm
  | results function args types =>
    rw [settlingWork, List.map_append, types_settling, types_refs List.length_range']
    rfl

variable (pend fs temps label pos) in
/-- A plain instruction finds its operands and goes on, or is at fault. -/
theorem step_plain_cases {i : Instruction} {type : FunctionType}
    (h : i.signature ctx.module ctx.localTypes = some type) (hheight : f.height = below.length) :
    (∃ rest es w, pend = rest ++ es ∧ es.map Expression.type = type.params ∧
        i.work ctx.module ctx.localTypes es = some w ∧ w.types = type.results ∧
        step ctx i ⟨pend.reverse ++ below, f :: fs, temps, label, pos⟩
          = accept ctx w ⟨rest.reverse ++ below, f :: fs, temps, label, pos⟩) ∨
      (¬ type.params <:+ pend.map Expression.type ∧
        Fails (step ctx i ⟨pend.reverse ++ below, f :: fs, temps, label, pos⟩) pos) := by
  rw [step_plain h, plain]
  rcases popValues_cases ctx fs pend temps label pos type.params hheight with
    ⟨rest, es, rfl, hes, hpop⟩ | ⟨hno, hfails⟩
  · obtain ⟨w, hw, htypes⟩ := exists_work h hes
    refine .inl ⟨rest, es, w, rfl, hes, hw, htypes, ?_⟩
    rw [bind_of_ok hpop, hw]
  · exact .inr ⟨hno, bind_of_fails hfails⟩

/-! ### Choosing between two operands -/

/-- What becomes of pending operands that are bound if that is needed. -/
def settlingIf (needed : Bool) (first : Nat) (pend : List Expression) : Settling :=
  if needed then settling first pend else ⟨pend, [], []⟩

theorem types_settlingIf (needed : Bool) (first : Nat) (pend : List Expression) :
    (settlingIf needed first pend).operands.map Expression.type = pend.map Expression.type := by
  cases needed with
  | true => exact types_settling first pend
  | false => rfl

theorem flushIf_eq (hbelow : ∀ e ∈ below, e.isStable) (needed : Bool) :
    flushIf ctx needed ⟨pend.reverse ++ below, f :: fs, temps, label, pos⟩
      = .ok ((), ⟨(settlingIf needed temps.size pend).operands.reverse ++ below,
          f.add (settlingIf needed temps.size pend).statements :: fs,
          temps ++ (settlingIf needed temps.size pend).temps.toArray, label, pos⟩) := by
  cases needed with
  | true => exact flush_eq hbelow
  | false => simp [flushIf, settlingIf]; rfl

variable (ctx f fs pend temps label pos) in
/-- What is dropped is evaluated if it has effects, after all that is pending below it. -/
theorem drop_cases (hheight : f.height = below.length) (hbelow : ∀ e ∈ below, e.isStable) :
    (∃ rest e, pend = rest ++ [e] ∧
        step ctx .drop ⟨pend.reverse ++ below, f :: fs, temps, label, pos⟩
          = .ok ((), ⟨(settlingIf e.hasEffects temps.size rest).operands.reverse ++ below,
              f.add ((settlingIf e.hasEffects temps.size rest).statements ++ effects [e]) :: fs,
              temps ++ (settlingIf e.hasEffects temps.size rest).temps.toArray, label, pos⟩)) ∨
      (pend = [] ∧
        Fails (step ctx .drop ⟨pend.reverse ++ below, f :: fs, temps, label, pos⟩) pos) := by
  rw [step]
  rcases pop_cases ctx fs pend temps label pos none hheight with
    ⟨rest, e, rfl, -, hpop⟩ | ⟨hno, hfails⟩
  · refine .inl ⟨rest, e, rfl, ?_⟩
    rw [bind_of_ok hpop]
    by_cases he : e.hasEffects
    · rw [if_pos he, bind_of_ok (flush_eq hbelow), emit_eq, Frame.add_add]
      simp [settlingIf, effects, he]
    · rw [if_neg he]
      simp [settlingIf, effects, he]
      rfl
  · refine .inr ⟨?_, bind_of_fails hfails⟩
    rcases List.eq_nil_or_concat pend with rfl | ⟨rest, e, rfl⟩
    · rfl
    · exact (hno rest e List.concat_eq_append (by rintro _ ⟨⟩)).elim

variable (ctx f fs pend temps label pos) in
/-- A choice finds two operands of one type below its condition.  It binds them unless none of the
three has effects. -/
theorem select_cases (hheight : f.height = below.length) (hbelow : ∀ e ∈ below, e.isStable) :
    (∃ rest condition needed rest' a b, pend = rest ++ [condition] ∧ condition.type = .i32 ∧
        (settlingIf needed temps.size rest).operands = rest' ++ [a, b] ∧ a.type = b.type ∧
        (needed = false → ¬ condition.hasEffects ∧ ¬ a.hasEffects ∧ ¬ b.hasEffects) ∧
        select ctx ⟨pend.reverse ++ below, f :: fs, temps, label, pos⟩
          = .ok ((), ⟨(rest' ++ [.select b.type condition a b]).reverse ++ below,
              f.add (settlingIf needed temps.size rest).statements :: fs,
              temps ++ (settlingIf needed temps.size rest).temps.toArray, label, pos⟩)) ∨
      ((∀ types type, pend.map Expression.type ≠ types ++ [type, type, .i32]) ∧
        Fails (select ctx ⟨pend.reverse ++ below, f :: fs, temps, label, pos⟩) pos) := by
  have hadd (ss : List Statement) : (f.add ss).height = below.length := hheight
  rw [select]
  rcases pop_type_cases ctx fs pend temps label pos .i32 hheight with
    ⟨rest, condition, rfl, hcondition, hpop⟩ | ⟨hno, hfails⟩
  · rw [bind_of_ok hpop, bind_of_ok (a := _) rfl, bind_of_ok (flushIf_eq hbelow _)]
    -- What is below is settled if one of the three operands has an effect.
    generalize hneeded : (condition.hasEffects
      || ((rest.reverse ++ below).take 2).any Expression.hasEffects) = needed
    have htypes := types_settlingIf needed temps.size rest
    rcases pop_cases ctx fs (settlingIf needed temps.size rest).operands
      (temps ++ (settlingIf needed temps.size rest).temps.toArray) label pos none (hadd _) with
      ⟨rest₁, b, hb, -, hpop₁⟩ | ⟨hno, hfails⟩
    · rw [bind_of_ok hpop₁]
      rcases pop_type_cases ctx fs rest₁
        (temps ++ (settlingIf needed temps.size rest).temps.toArray) label pos b.type (hadd _) with
        ⟨rest₂, a, rfl, ha, hpop₂⟩ | ⟨hno, hfails⟩
      · rw [List.append_assoc, List.singleton_append] at hb
        refine .inl ⟨rest, condition, needed, rest₂, a, b, rfl, hcondition, hb, ha, ?_, ?_⟩
        · rintro rfl
          obtain rfl : rest = rest₂ ++ [a, b] := hb
          simpa [and_comm] using hneeded
        · rw [bind_of_ok hpop₂, push_eq]
      · refine .inr ⟨?_, bind_of_fails hfails⟩
        intro types type h
        rw [List.map_append, ← htypes, hb, List.map_append] at h
        have hsplit : types ++ [type, type, .i32] = ((types ++ [type]) ++ [type]) ++ [.i32] := by
          simp
        rw [hsplit] at h
        have hinner := (List.append_inj' (List.append_inj' h rfl).1 rfl)
        have hlast : b.type = type := List.singleton_inj.mp hinner.2
        exact hno ⟨types, by rw [hlast]; exact hinner.1.symm⟩
    · refine .inr ⟨?_, bind_of_fails hfails⟩
      intro types type h
      rcases List.eq_nil_or_concat (settlingIf needed temps.size rest).operands with
        hempty | ⟨rest₁, b, hb⟩
      · rw [hempty] at htypes
        rw [List.map_append, ← htypes] at h
        have hlen := congrArg List.length h
        simp at hlen
      · exact hno rest₁ b (by rw [hb, List.concat_eq_append]) (by rintro _ ⟨⟩)
  · refine .inr ⟨?_, bind_of_fails hfails⟩
    intro types type h
    exact hno ⟨types ++ [type, type], by rw [h]; simp⟩

end IR.Build

end WasmScript
