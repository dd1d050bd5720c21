/-
  WasmScript/IR/Builder.lean
  ==========================
  **The state of a build** — pending operands, open blocks and temporaries.

  While a body is built, operands wait on a stack as expressions that are not evaluated
  yet.  A statement that is emitted runs after all of them, so `flush` first binds every
  pending operand whose value could change to a temporary, oldest first.  Each open block
  is a `Frame` that remembers the height of the stack below it; operands below that
  height belong to the blocks around it.
-/
import WasmScript.IR.Basic
import WasmScript.IR.BuildError

namespace WasmScript.IR

structure Frame where
  kind : FrameKind
  /-- The label; that of the function is -1. -/
  label : Int
  params : List ValueType
  results : List ValueType
  /-- The height of the operand stack below the parameters. -/
  height : Nat
  /-- The slots that hold the results once the block ends. -/
  resultSlots : List Nat
  /-- The slots that hold the parameters of a loop between turns. -/
  paramSlots : List Nat
  /-- The statements of the body, or of the current arm, built so far. -/
  body : Array Statement := #[]
  /-- Set after an instruction that never falls through. -/
  unreachable : Bool := false
  /-- Whether some branch targets this block. -/
  targeted : Bool := false
  condition : Option Expression := none
  /-- The first arm, once the second has started. -/
  firstArm : Option (List Statement) := none
  /-- Whether the end of the first arm is reached. -/
  firstFallsThrough : Bool := false
  /-- The parameters, which the second arm starts with again. -/
  paramValues : List Expression := []
deriving Inhabited

namespace Frame

/-- The types that a branch to a block carries: a loop's parameters, else the results. -/
def labelTypes (f : Frame) : List ValueType :=
  match f.kind with
  | .loop => f.params
  | _ => f.results

/-- Whether what follows a block is reached: if its end is, if a branch leaves it, or if one of its
arms lets control through. -/
def leaves (f : Frame) : Bool :=
  ¬ f.unreachable ∨ (f.kind ≠ .loop ∧ f.targeted)
    ∨ (f.kind = .conditional ∧ (f.firstFallsThrough ∨ f.firstArm.isNone))

def toStatement (f : Frame) : Statement :=
  match f.kind with
  | .loop => .loop f.label f.targeted f.body.toList
  | .conditional =>
    let condition := f.condition.getD (.constant .i32 0)
    match f.firstArm with
    | some yes => .conditional f.label f.targeted condition yes f.body.toList
    | none => .conditional f.label f.targeted condition f.body.toList []
  | _ => .block f.label f.targeted f.body.toList

end Frame

/-- What a body refers to while it is built. -/
structure Context where
  module : Module
  index : Nat
  name : Option String
  type : FunctionType
  /-- The types of the parameters and of the declared locals. -/
  localTypes : Array ValueType

structure Builder where
  /-- The pending operands, the newest first. -/
  stack : List Expression := []
  /-- The open blocks, the innermost first. -/
  frames : List Frame := []
  temps : Array Temp := #[]
  nextLabel : Nat := 0
  /-- The offset of the instruction being built. -/
  pos : Nat := 0
deriving Inhabited

/-- Why a build ends without a function. -/
inductive BuildFailure where
  | invalid (error : BuildError)
  /-- An opcode that is no load or store: no decoded module holds one. -/
  | access (error : AccessError)
deriving DecidableEq, Repr

abbrev Build := StateT Builder (Except BuildFailure)

namespace Build

def fail {α : Type} (ctx : Context) (cause : BuildCause ValueType Nat) : Build α :=
  fun b => .error (.invalid ⟨cause, ctx.index, ctx.name, b.pos⟩)

def require (ctx : Context) (holds : Prop) [Decidable holds] (cause : BuildCause ValueType Nat) :
    Build Unit :=
  if holds then pure () else fail ctx cause

def ofAccess {α : Type} (result : Except AccessError α) : Build α :=
  fun b =>
    match result with
    | .ok a => .ok (a, b)
    | .error e => .error (.access e)

/-! ### Frames -/

def frame (ctx : Context) : Build Frame := do
  match (← get).frames with
  | f :: _ => pure f
  | [] => fail ctx .trailing

def modifyFrame (change : Frame → Frame) : Build Unit :=
  modify fun b =>
    match b with
    | { stack, frames := f :: rest, temps, nextLabel, pos } =>
      { stack, frames := change f :: rest, temps, nextLabel, pos }
    | _ => b

/-- Adds a statement to the innermost open block. -/
def emit (ctx : Context) (s : Statement) : Build Unit := do
  let _ ← frame ctx
  modifyFrame fun f => { f with body := f.body.push s }

def target (ctx : Context) (depth : Nat) : Build Frame := do
  let frames := (← get).frames
  match frames[depth]? with
  | some f => pure f
  | none => fail ctx (.label depth frames.length)

/-- Drops operands until the stack has a given height. -/
def cut (height : Nat) : Build Unit :=
  modify fun b => { b with stack := b.stack.drop (b.stack.length - height) }

/-- Marks the rest of the innermost open block as never reached. -/
def markUnreachable (ctx : Context) : Build Unit := do
  let f ← frame ctx
  modifyFrame fun f => { f with unreachable := true }
  cut f.height

/-- A branch to an open block, which is targeted from then on. -/
def branch (ctx : Context) (depth : Nat) (values : List Expression) : Build Branch := do
  let f ← target ctx depth
  modify fun b => { b with frames := b.frames.modify depth fun f => { f with targeted := true } }
  pure <| match f.kind with
    | .function => ⟨depth, f.label, .leave, [], values⟩
    | .loop => ⟨depth, f.label, .restart, f.paramSlots, values⟩
    | _ => ⟨depth, f.label, .exit, f.resultSlots, values⟩

/-! ### Temporaries -/

def newTemp (kind : TempKind) (type : ValueType) : Build Nat := do
  let b ← get
  let id := b.temps.size
  set { b with temps := b.temps.push ⟨id, type, kind⟩ }
  pure id

def refs (ids : List Nat) (types : List ValueType) : List Expression :=
  List.zipWith (fun id type => .tempRef type id) ids types

/-! ### Operands -/

def push (e : Expression) : Build Unit := modify fun b => { b with stack := e :: b.stack }

/-- Pushes operands, the first one first. -/
def pushAll (es : List Expression) : Build Unit :=
  modify fun b => { b with stack := es.reverse ++ b.stack }

def pop (ctx : Context) (expected : Option ValueType) : Build Expression := do
  let f ← frame ctx
  let b ← get
  if b.stack.length ≤ f.height then fail ctx (.stackUnderflow expected)
  else
    match b.stack with
    | [] => fail ctx (.stackUnderflow none)
    | e :: rest =>
      set { b with stack := rest }
      match expected with
      | some type => if e.type = type then pure e else fail ctx (.operandType type e.type)
      | none => pure e

/-- Pops operands of the given types, the last one first, before those already popped. -/
def popInto (ctx : Context) :
    (reversed : List ValueType) → List Expression → Build (List Expression)
  | [], popped => pure popped
  | type :: types, popped => do popInto ctx types ((← pop ctx (some type)) :: popped)

/-- Pops operands of the given types; the result is in stack order. -/
def popValues (ctx : Context) (types : List ValueType) : Build (List Expression) :=
  popInto ctx types.reverse []

/-- Checks that operands of the given types are on top of the stack. -/
def peekValues (ctx : Context) (types : List ValueType) : Build (List Expression) := do
  let values ← popValues ctx types
  pushAll values
  pure values

/-- Binds an operand to a temporary, unless it is stable. -/
def settle (ctx : Context) (e : Expression) : Build Expression := do
  if e.isStable then pure e
  else
    let id ← newTemp .value e.type
    emit ctx (.define [id] (.single e))
    pure (.tempRef e.type id)

/-- Binds every pending operand to a temporary, oldest first, so that a statement emitted next
runs after all of them. -/
def flush (ctx : Context) : Build Unit := do
  let settled ← (← get).stack.reverse.mapM (settle ctx)
  modify fun b => { b with stack := settled.reverse }

def flushIf (ctx : Context) (needed : Bool) : Build Unit := if needed then flush ctx else pure ()

/-- Emits an operand that is dropped, if it has effects. -/
def emitEffects (ctx : Context) (e : Expression) : Build Unit := do
  if e.hasEffects then emit ctx (.evaluate (.single e))

/-- Drops the operands of the innermost open block before control leaves it.  Those with effects
still run, in order. -/
def discard (ctx : Context) : Build Unit := do
  let f ← frame ctx
  let stack := (← get).stack
  (stack.take (stack.length - f.height)).reverse.forM (emitEffects ctx)
  cut f.height

/-! ### What instructions refer to -/

def localType (ctx : Context) (index : Nat) : Build ValueType :=
  match ctx.localTypes[index]? with
  | some type => pure type
  | none => fail ctx (.unknownLocal index ctx.localTypes.size)

def globalAt (ctx : Context) (index : Nat) : Build Global :=
  match ctx.module.globals[index]? with
  | some g => pure g
  | none => fail ctx (.unknownGlobal index)

def calleeType (ctx : Context) (index : Nat) : Build FunctionType :=
  match ctx.module.functionType? index with
  | some type => pure type
  | none => fail ctx (.unknownFunction index)

def requireMemory (ctx : Context) : Build Unit :=
  require ctx ctx.module.memory.isSome .missingMemory

end Build

end WasmScript.IR
