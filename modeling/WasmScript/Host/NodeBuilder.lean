/-
  WasmScript/Host/NodeBuilder.lean
  ================================
  **The state of a build from objects** — pending operands, open blocks and temporaries
  while a body is built that a host has as an object.

  Operands, blocks and temporaries are kept as they are for any body.  What differs is
  that types and indices are whatever the host has in their place: a type is only ever
  compared, an index only looked up, and both appear again in the nodes that are built.
  An operand therefore remembers its type and its effects beside its node.
-/
import WasmScript.Host.Body
import WasmScript.Host.ModuleQuery
import WasmScript.IR.BuildError

namespace WasmScript

namespace HostBuild

open HostNode (node)
open IR (BuildCause FrameKind TempKind)

structure Operand where
  node : HostValue
  type : HostValue
  /-- Whether evaluating it may trap or change state. -/
  effects : Bool := false
  /-- Whether it denotes the same value wherever it is evaluated. -/
  stable : Bool := false
deriving Inhabited

structure Frame where
  kind : FrameKind
  /-- The label; that of the function is -1. -/
  label : Int
  params : List HostValue
  results : List HostValue
  /-- The height of the operand stack below the parameters. -/
  height : Nat
  /-- The slots that hold the results once the block ends. -/
  resultSlots : List Nat
  /-- The slots that hold the parameters of a loop between turns. -/
  paramSlots : List Nat
  /-- The statements of the body, or of the current arm, built so far. -/
  body : Array HostValue := #[]
  /-- Set after an instruction that never falls through. -/
  unreachable : Bool := false
  /-- Whether some branch targets this block. -/
  targeted : Bool := false
  condition : HostValue := .undefined
  /-- The first arm, once the second has started. -/
  firstArm : Option (Array HostValue) := none
  /-- Whether the end of the first arm is reached. -/
  firstFallsThrough : Bool := false
  /-- The parameters, which the second arm starts with again. -/
  paramValues : List Operand := []
deriving Inhabited

namespace Frame

/-- The types that a branch to a block carries: a loop's parameters, else the results. -/
def labelTypes (f : Frame) : List HostValue :=
  match f.kind with
  | .loop => f.params
  | _ => f.results

/-- The statement that a finished block becomes. -/
def toNode (f : Frame) : HostValue :=
  let labelled (kind : String) := IR.Statement.labelled kind f.label f.targeted
  let body : HostValue := .array f.body.toList
  match f.kind, f.firstArm with
  | .loop, _ => labelled "Loop" [("body", body)]
  | .conditional, some yes =>
    labelled "If" [("condition", f.condition), ("then", .array yes.toList), ("else", body)]
  | .conditional, none =>
    labelled "If" [("condition", f.condition), ("then", body), ("else", .array [])]
  | _, _ => labelled "Block" [("body", body)]

end Frame

/-- What a body refers to while it is built. -/
structure Context where
  module : HostValue
  index : HostValue
  name : HostValue
  /-- The types of the results of the function. -/
  results : List HostValue
  /-- The types of the parameters and of the declared locals. -/
  localTypes : List HostValue

structure State where
  /-- The pending operands, the newest first. -/
  stack : List Operand := []
  /-- The open blocks, the innermost first. -/
  frames : List Frame := []
  temps : Array (HostValue × TempKind) := #[]
  nextLabel : Nat := 0
  /-- The offset of the instruction being built. -/
  pos : HostValue
deriving Inhabited

/-- A body that is not valid, by the index and the name that a host has for its function. -/
structure Fault where
  cause : BuildCause HostValue HostValue
  index : HostValue
  name : HostValue
  offset : HostValue

namespace Fault

def worded : BuildCause HostValue HostValue → Except Failure (BuildCause String String)
  | .stackUnderflow (some expected) => do pure (.stackUnderflow (some (← expected.toText)))
  | .stackUnderflow none => .ok (.stackUnderflow none)
  | .operandType expected found => do
    let expected ← expected.toText
    pure (.operandType expected (← found.toText))
  | .arity kind expected found => .ok (.arity kind expected found)
  | .branchTypes depth found expected => do
    let depth ← depth.toText
    let found ← HostValue.toItemTexts found
    pure (.branchTypes depth found (← HostValue.toItemTexts expected))
  | .label depth frames => do pure (.label (← depth.toText) frames)
  | .unknownLocal index count => do pure (.unknownLocal (← index.toText) count)
  | .unterminated => .ok .unterminated
  | .missingMemory => .ok .missingMemory
  | .ifWithoutElse => .ok .ifWithoutElse
  | .noBody function => do pure (.noBody (← function.toText))
  | .unknownFunction function => do pure (.unknownFunction (← function.toText))
  | .unknownGlobal index => do pure (.unknownGlobal (← index.toText))
  | .immutableGlobal index => do pure (.immutableGlobal (← index.toText))
  | .trailing => .ok .trailing
  | .unexpectedElse => .ok .unexpectedElse
  | .noOperator opcode => .ok (.noOperator opcode)

/-- The cause and its place; there is no wording if something in it has no text. -/
def message (f : Fault) : Except Failure String := do
  let cause ← worded f.cause
  let index ← f.index.toText
  let name ← if f.name.truthy then (fun name => " \"" ++ name ++ "\"") <$> f.name.toText
    else pure ""
  let offset ← f.offset.hexText "offset"
  pure (cause.detail ++ " (function " ++ index ++ name ++ ", offset 0x" ++ offset ++ ")")

end Fault

/-- Why a build ends without a function. -/
inductive Stop where
  | invalid (fault : Fault) (message : String)
  | failure (failure : Failure)

def Stop.ofFault (f : Fault) : Stop :=
  match f.message with
  | .ok message => .invalid f message
  | .error e => .failure e

abbrev Step := StateT State (Except Stop)

def fail {α : Type} (ctx : Context) (cause : BuildCause HostValue HostValue) : Step α :=
  fun b => .error (.ofFault ⟨cause, ctx.index, ctx.name, b.pos⟩)

/-- What was found, unless it cannot be used. -/
def accept {α : Type} (r : Except Failure α) : Step α :=
  fun b =>
    match r with
    | .ok a => .ok (a, b)
    | .error e => .error (.failure e)

def i32 : HostValue := ValueType.i32.toHost

/-! ### Frames -/

def frame (ctx : Context) : Step Frame := do
  match (← get).frames with
  | f :: _ => pure f
  | [] => fail ctx .trailing

def modifyFrame (change : Frame → Frame) : Step Unit :=
  modify fun b => { b with frames := b.frames.modifyHead change }

/-- Adds a statement to the innermost open block. -/
def emit (ctx : Context) (s : HostValue) : Step Unit := do
  let _ ← frame ctx
  modifyFrame fun f => { f with body := f.body.push s }

/-- The place of the open block at a relative depth, counted from the innermost. -/
def place (ctx : Context) (depth : HostValue) : Step Nat := do
  let count := (← get).frames.length
  match (← accept depth.toOperand).toInteger? with
  | some (.ofNat n) => if n < count then pure n else fail ctx (.label depth count)
  | _ => fail ctx (.label depth count)

def target (ctx : Context) (depth : HostValue) : Step Frame := do
  let n ← place ctx depth
  pure ((← get).frames[n]?.getD default)

/-- Drops operands until the stack has a given height. -/
def cut (height : Nat) : Step Unit :=
  modify fun b => { b with stack := b.stack.drop (b.stack.length - height) }

/-- Marks the rest of the innermost open block as never reached. -/
def markUnreachable (ctx : Context) : Step Unit := do
  let f ← frame ctx
  modifyFrame fun f => { f with unreachable := true }
  cut f.height

/-- A branch to an open block, which is targeted from then on. -/
def branch (ctx : Context) (depth : HostValue) (values : List Operand) : Step HostValue := do
  let n ← place ctx depth
  let f ← target ctx depth
  modify fun b => { b with frames := b.frames.modify n fun f => { f with targeted := true } }
  let made (mode : IR.BranchMode) (slots : List Nat) : HostValue :=
    node "Branch" [("depth", depth), ("label", .ofInt f.label), ("mode", .string mode.name),
      ("slots", .ofList .ofNat slots), ("values", .ofList Operand.node values)]
  pure <| match f.kind with
    | .function => made .leave []
    | .loop => made .restart f.paramSlots
    | _ => made .exit f.resultSlots

/-! ### Temporaries -/

def newTemp (kind : TempKind) (type : HostValue) : Step Nat := do
  let b ← get
  let id := b.temps.size
  set { b with temps := b.temps.push (type, kind) }
  pure id

def tempRef (type : HostValue) (id : Nat) : Operand :=
  ⟨node "TempRef" [("type", type), ("id", .ofNat id)], type, false, true⟩

def refs (ids : List Nat) (types : List HostValue) : List Operand :=
  List.zipWith (fun id type => tempRef type id) ids types

/-! ### Operands -/

def push (e : Operand) : Step Unit := modify fun b => { b with stack := e :: b.stack }

/-- Pushes operands, the first one first. -/
def pushAll (es : List Operand) : Step Unit :=
  modify fun b => { b with stack := es.reverse ++ b.stack }

/-- Pops an operand of a type, or of any if the type does not count as true. -/
def pop (ctx : Context) (expected : HostValue) : Step Operand := do
  let f ← frame ctx
  let b ← get
  let wanted := if expected.truthy then some expected else none
  if b.stack.length ≤ f.height then fail ctx (.stackUnderflow wanted)
  else
    match b.stack with
    | [] => fail ctx (.stackUnderflow none)
    | e :: rest =>
      set { b with stack := rest }
      match wanted with
      | some type => if e.type.same type then pure e else fail ctx (.operandType type e.type)
      | none => pure e

/-- Pops operands of the given types, the last one first, before those already popped. -/
def popInto (ctx : Context) : (reversed : List HostValue) → List Operand → Step (List Operand)
  | [], popped => pure popped
  | type :: types, popped => do popInto ctx types ((← pop ctx type) :: popped)

/-- Pops operands of the given types; the result is in stack order. -/
def popValues (ctx : Context) (types : List HostValue) : Step (List Operand) :=
  popInto ctx types.reverse []

/-- The types that a host has in a list, as many as it says. -/
def typesIn (v : HostValue) : Step (List HostValue) := do
  let _ ← accept (v.memberNamed "length")
  pure v.listItems

/-- Checks that operands of the given types are on top of the stack. -/
def peekValues (ctx : Context) (types : List HostValue) : Step (List Operand) := do
  let values ← popValues ctx types
  pushAll values
  pure values

/-- Binds an operand to a temporary, unless it is stable. -/
def settle (ctx : Context) (e : Operand) : Step Operand := do
  if e.stable then pure e
  else
    let id ← newTemp .value e.type
    emit ctx (node "TempDef" [("ids", .ofList .ofNat [id]), ("value", e.node)])
    pure (tempRef e.type id)

/-- Binds every pending operand to a temporary, oldest first, so that a statement emitted next
runs after all of them. -/
def flush (ctx : Context) : Step Unit := do
  let settled ← (← get).stack.reverse.mapM (settle ctx)
  modify fun b => { b with stack := settled.reverse }

/-- Emits an operand or a call for its effects. -/
def evaluate (ctx : Context) (expression : HostValue) : Step Unit :=
  emit ctx (node "ExpressionStatement" [("expression", expression)])

/-- Drops the operands of the innermost open block before control leaves it.  Those with effects
still run, in order. -/
def discard (ctx : Context) : Step Unit := do
  let f ← frame ctx
  let stack := (← get).stack
  let dropped := (stack.take (stack.length - f.height)).reverse
  (dropped.filter Operand.effects).forM fun e => evaluate ctx e.node
  cut f.height

/-! ### What instructions refer to -/

def localType (ctx : Context) (index : HostValue) : Step HostValue := do
  match ← accept ((HostValue.array ctx.localTypes).member index) with
  | .undefined => fail ctx (.unknownLocal index ctx.localTypes.length)
  | type => pure type

def globalAt (ctx : Context) (index : HostValue) : Step HostValue := do
  let g ← accept (do (← ctx.module.memberNamed "globals").member index)
  if g.truthy then pure g else fail ctx (.unknownGlobal index)

def calleeType (ctx : Context) (index : HostValue) : Step HostValue := do
  let type ← accept (HostModule.functionType ctx.module index)
  if type.truthy then pure type else fail ctx (.unknownFunction index)

def requireMemory (ctx : Context) : Step Unit := do
  if !(← accept (ctx.module.memberNamed "memory")).truthy then fail ctx .missingMemory

end HostBuild

end WasmScript
