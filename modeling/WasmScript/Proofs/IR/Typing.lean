/-
  WasmScript/Proofs/IR/Typing.lean
  ================================
  **Typed bodies** — what it means that each part of a body fits the others.

  A `Scope` is what a body may refer to: the module, its locals, its temporaries and the
  results of the function.  `Expression.Typed` and `Statement.Typed` say that operands have
  the types that are asked of them and that whatever is named is there, with its type.  The
  type of an expression can be read off it, so it is no part of the judgement.

  An unsigned address is not a value of its type, and only loads and stores take one; a
  `Role` tells the two apart.
-/
import Mathlib.Data.List.Forall2
import WasmScript.IR.Basic

namespace WasmScript.IR

/-- What the parts of a body refer to. -/
structure Scope where
  module : Module
  /-- The types of the parameters and of the declared locals. -/
  locals : Array ValueType
  /-- What the function gives. -/
  results : List ValueType
  temps : Array Temp

/-- What an expression stands for. -/
inductive Role where
  | value
  /-- The unsigned address of a load or a store. -/
  | address

namespace Scope

/-- Whether some temporaries are there, of one kind and of certain types. -/
def Declares (Γ : Scope) (kind : TempKind) (ids : List Nat) (types : List ValueType) : Prop :=
  List.Forall₂ (fun id type => Γ.temps[id]? = some ⟨id, type, kind⟩) ids types

def more (Γ : Scope) (ts : List Temp) : Scope := { Γ with temps := Γ.temps ++ ts.toArray }

end Scope

/-! ### Expressions -/

/-- Expressions whose parts fit each other. -/
inductive Expression.Typed (Γ : Scope) : Role → Expression → Prop
  | literal {v : Value} (canonical : v.Canonical) : Typed Γ .value (.literal v)
  | localRef {type : ValueType} {index : Nat} (found : Γ.locals[index]? = some type) :
      Typed Γ .value (.localRef type index)
  | tempRef {type : ValueType} {id : Nat} {kind : TempKind}
      (found : Γ.temps[id]? = some ⟨id, type, kind⟩) : Typed Γ .value (.tempRef type id)
  | globalRef {index : Nat} {g : Global} (found : Γ.module.globals[index]? = some g) :
      Typed Γ .value (.globalRef g.type index)
  | unary {op : NumericOp} {a : Expression} (known : op ∈ NumericOp.table)
      (category : op.category = .unary ∨ op.category = .convert)
      (operand : Typed Γ .value a) (type : a.type = op.operand) :
      Typed Γ .value (.unary op.result op a)
  | binary {op : NumericOp} {a b : Expression} (known : op ∈ NumericOp.table)
      (category : op.category = .binary) (left : Typed Γ .value a) (right : Typed Γ .value b)
      (leftType : a.type = op.operand) (rightType : b.type = op.operand) :
      Typed Γ .value (.binary op.result op a b)
  | compare {op : NumericOp} {a b : Expression} (known : op ∈ NumericOp.table)
      (category : op.category = .test ∨ op.category = .compare) (left : Typed Γ .value a)
      (right : Typed Γ .value b) (leftType : a.type = op.operand)
      (rightType : b.type = op.operand) : Typed Γ .value (.compare op a b)
  | select {type : ValueType} {c a b : Expression} (condition : Typed Γ .value c)
      (ifTrue : Typed Γ .value a) (ifFalse : Typed Γ .value b) (conditionType : c.type = .i32)
      (trueType : a.type = type) (falseType : b.type = type) :
      Typed Γ .value (.select type c a b)
  | call {result : ValueType} {function : Nat} {es : List Expression}
      (found : Γ.module.functionType? function = some ⟨es.map Expression.type, [result]⟩)
      (args : ∀ e ∈ es, Typed Γ .value e) : Typed Γ .value (.call result function es)
  | tee {index : Nat} {a : Expression} (found : Γ.locals[index]? = some a.type)
      (value : Typed Γ .value a) : Typed Γ .value (.tee a.type index a)
  | load {access : Access} {a : Expression} (memory : Γ.module.memory.isSome)
      (loads : access.isStore = false) (address : Typed Γ .address a) :
      Typed Γ .value (.load access a)
  | memorySize (memory : Γ.module.memory.isSome) : Typed Γ .value .memorySize
  | memoryGrow {a : Expression} (memory : Γ.module.memory.isSome) (delta : Typed Γ .value a)
      (type : a.type = .i32) : Typed Γ .value (.memoryGrow a)
  /-- A literal address is written as a signed number. -/
  | folded {n : Int} (canonical : (Value.i32 n).Canonical) : Typed Γ .address (.literal (.i32 n))
  | address {a : Expression} {offset : Nat} (base : Typed Γ .value a) (type : a.type = .i32) :
      Typed Γ .address (.address a offset)

/-- Whether expressions are typed and have certain types, one by one. -/
def Scope.Yields (Γ : Scope) (es : List Expression) (types : List ValueType) : Prop :=
  (∀ e ∈ es, e.Typed Γ .value) ∧ es.map Expression.type = types

/-- An operand whose parts fit each other, and the types of what it gives. -/
inductive Operand.Typed (Γ : Scope) : Operand → List ValueType → Prop
  | single {e : Expression} (value : e.Typed Γ .value) : Typed Γ (.single e) [e.type]
  | multi {function : Nat} {es : List Expression} {types : List ValueType}
      (found : Γ.module.functionType? function = some ⟨es.map Expression.type, types⟩)
      (args : ∀ e ∈ es, e.Typed Γ .value) : Typed Γ (.multi function es types) types

/-! ### Statements -/

/-- A branch carries one value for each slot of its target, or the results of the function. -/
structure Branch.Typed (Γ : Scope) (b : Branch) : Prop where
  values : ∀ e ∈ b.values, e.Typed Γ .value
  slots : b.mode ≠ .leave → Γ.Declares .slot b.slots (b.values.map Expression.type)
  results : b.mode = .leave → b.slots = [] ∧ b.values.map Expression.type = Γ.results

/-- Statements whose parts fit each other. -/
inductive Statement.Typed (Γ : Scope) : Statement → Prop
  | block {label : Int} {targeted : Bool} {ss : List Statement} (body : ∀ s ∈ ss, Typed Γ s) :
      Typed Γ (.block label targeted ss)
  | loop {label : Int} {targeted : Bool} {ss : List Statement} (body : ∀ s ∈ ss, Typed Γ s) :
      Typed Γ (.loop label targeted ss)
  | conditional {label : Int} {targeted : Bool} {c : Expression} {ss ts : List Statement}
      (condition : c.Typed Γ .value) (type : c.type = .i32) (yes : ∀ s ∈ ss, Typed Γ s)
      (no : ∀ s ∈ ts, Typed Γ s) : Typed Γ (.conditional label targeted c ss ts)
  | branch {b : Branch} (branch : b.Typed Γ) : Typed Γ (.branch b)
  | branchIf {c : Expression} {b : Branch} (condition : c.Typed Γ .value) (type : c.type = .i32)
      (branch : b.Typed Γ) : Typed Γ (.branchIf c b)
  | branchTable {e : Expression} {bs : List Branch} {b : Branch} (index : e.Typed Γ .value)
      (type : e.type = .i32) (targets : ∀ b ∈ bs, b.Typed Γ) (default : b.Typed Γ) :
      Typed Γ (.branchTable e bs b)
  | leave {es : List Expression} (values : Γ.Yields es Γ.results) : Typed Γ (.leave es)
  | unreachable : Typed Γ .unreachable
  | localSet {index : Nat} {e : Expression} (found : Γ.locals[index]? = some e.type)
      (value : e.Typed Γ .value) : Typed Γ (.localSet index e)
  | globalSet {index : Nat} {e : Expression} {g : Global}
      (found : Γ.module.globals[index]? = some g) (changes : g.isMutable)
      (value : e.Typed Γ .value) (type : e.type = g.type) : Typed Γ (.globalSet index e)
  | define {ids : List Nat} {operand : Operand} {types : List ValueType}
      (value : operand.Typed Γ types) (temps : Γ.Declares .value ids types) :
      Typed Γ (.define ids operand)
  | assign {ids : List Nat} {es : List Expression} {types : List ValueType}
      (values : Γ.Yields es types) (temps : Γ.Declares .slot ids types) : Typed Γ (.assign ids es)
  | store {access : Access} {a e : Expression} (memory : Γ.module.memory.isSome)
      (stores : access.isStore) (address : a.Typed Γ .address) (value : e.Typed Γ .value)
      (type : e.type = access.type) : Typed Γ (.store access a e)
  | memoryCopy {destination source length : Expression} (memory : Γ.module.memory.isSome)
      (operands : Γ.Yields [destination, source, length] [.i32, .i32, .i32]) :
      Typed Γ (.memoryCopy destination source length)
  | memoryFill {destination value length : Expression} (memory : Γ.module.memory.isSome)
      (operands : Γ.Yields [destination, value, length] [.i32, .i32, .i32]) :
      Typed Γ (.memoryFill destination value length)
  | evaluate {operand : Operand} {types : List ValueType} (value : operand.Typed Γ types) :
      Typed Γ (.evaluate operand)

/-! ### Functions -/

def Function.scope (m : Module) (f : Function) : Scope :=
  ⟨m, (f.params ++ f.locals).toArray, f.results, f.temps.toArray⟩

/-- A function of a module whose parts fit each other, and which has the type that the module gives
it. -/
structure Function.Typed (m : Module) (f : Function) : Prop where
  type : m.functionType? f.index = some ⟨f.params, f.results⟩
  /-- Temporaries are numbered from zero. -/
  temps : f.temps.map Temp.id = List.range f.temps.length
  body : ∀ s ∈ f.body, s.Typed (f.scope m)

/-! ### More temporaries -/

variable {Γ : Scope} {kind : TempKind}

theorem Scope.found_more {id : Nat} {t : Temp} (h : Γ.temps[id]? = some t) (ts : List Temp) :
    (Γ.more ts).temps[id]? = some t := by
  have hlt : id < Γ.temps.size := (Array.getElem?_eq_some_iff.mp h).1
  rw [Scope.more, Array.getElem?_append_left hlt]
  exact h

theorem Scope.Declares.more {ids : List Nat} {types : List ValueType}
    (h : Γ.Declares kind ids types) (ts : List Temp) : (Γ.more ts).Declares kind ids types :=
  List.Forall₂.imp (fun _ _ hfound => Scope.found_more hfound ts) h

/-- Temporaries that are there are numbered below all that are not. -/
theorem Scope.Declares.lt_size {ids : List Nat} {types : List ValueType}
    (h : Γ.Declares kind ids types) :
    ∀ id ∈ ids, id < Γ.temps.size := by
  induction h with
  | nil => exact fun id hid => absurd hid List.not_mem_nil
  | cons found _ ih => exact List.forall_mem_cons.mpr ⟨(Array.getElem?_eq_some_iff.mp found).1, ih⟩

theorem Expression.Typed.more {role : Role} {e : Expression} (h : e.Typed Γ role) (ts : List Temp) :
    e.Typed (Γ.more ts) role := by
  induction h with
  | literal canonical => exact .literal canonical
  | localRef found => exact .localRef found
  | tempRef found => exact .tempRef (Scope.found_more found ts)
  | globalRef found => exact .globalRef found
  | unary known category _ type ih => exact .unary known category ih type
  | binary known category _ _ leftType rightType ihl ihr =>
    exact .binary known category ihl ihr leftType rightType
  | compare known category _ _ leftType rightType ihl ihr =>
    exact .compare known category ihl ihr leftType rightType
  | select _ _ _ conditionType yesType noType ihc ihy ihn =>
    exact .select ihc ihy ihn conditionType yesType noType
  | call found _ ih => exact .call found ih
  | tee found _ ih => exact .tee found ih
  | load memory loads _ ih => exact .load memory loads ih
  | memorySize memory => exact .memorySize memory
  | memoryGrow memory _ type ih => exact .memoryGrow memory ih type
  | folded canonical => exact .folded canonical
  | address _ type ih => exact .address ih type

theorem Scope.Yields.more {es : List Expression} {types : List ValueType} (h : Γ.Yields es types)
    (ts : List Temp) : (Γ.more ts).Yields es types :=
  ⟨fun e he => (h.1 e he).more ts, h.2⟩

/-- Three operands and their types, one by one. -/
theorem Scope.Yields.three {a b c : Expression} {s t u : ValueType}
    (h : Γ.Yields [a, b, c] [s, t, u]) :
    (a.Typed Γ .value ∧ a.type = s) ∧ (b.Typed Γ .value ∧ b.type = t) ∧ c.Typed Γ .value ∧
      c.type = u := by
  obtain ⟨htyped, htypes⟩ := h
  simp only [List.map_cons, List.map_nil, List.cons.injEq, and_true] at htypes
  simp only [List.forall_mem_cons] at htyped
  exact ⟨⟨htyped.1, htypes.1⟩, ⟨htyped.2.1, htypes.2.1⟩, htyped.2.2.1, htypes.2.2⟩

theorem Operand.Typed.more {operand : Operand} {types : List ValueType} (h : operand.Typed Γ types)
    (ts : List Temp) : operand.Typed (Γ.more ts) types := by
  cases h with
  | single value => exact .single (value.more ts)
  | multi found args => exact .multi found fun e he => (args e he).more ts

theorem Branch.Typed.more {b : Branch} (h : b.Typed Γ) (ts : List Temp) : b.Typed (Γ.more ts) where
  values e he := (h.values e he).more ts
  slots hmode := (h.slots hmode).more ts
  results := h.results

theorem Statement.Typed.more {s : Statement} (h : s.Typed Γ) (ts : List Temp) :
    s.Typed (Γ.more ts) := by
  induction h with
  | block _ ih => exact .block ih
  | loop _ ih => exact .loop ih
  | conditional condition type _ _ ihy ihn => exact .conditional (condition.more ts) type ihy ihn
  | branch branch => exact .branch (branch.more ts)
  | branchIf condition type branch => exact .branchIf (condition.more ts) type (branch.more ts)
  | branchTable index type targets default =>
    exact .branchTable (index.more ts) type (fun b hb => (targets b hb).more ts) (default.more ts)
  | leave values => exact .leave (values.more ts)
  | unreachable => exact .unreachable
  | localSet found value => exact .localSet found (value.more ts)
  | globalSet found changes value type => exact .globalSet found changes (value.more ts) type
  | define value temps => exact .define (value.more ts) (temps.more ts)
  | assign values temps => exact .assign (values.more ts) (temps.more ts)
  | store memory stores address value type =>
    exact .store memory stores (address.more ts) (value.more ts) type
  | memoryCopy memory operands => exact .memoryCopy memory (operands.more ts)
  | memoryFill memory operands => exact .memoryFill memory (operands.more ts)
  | evaluate value => exact .evaluate (value.more ts)

end WasmScript.IR
