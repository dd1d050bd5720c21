/-
  WasmScript/IR/Build.lean
  ========================
  **Building bodies** — from a flat list of instructions to structured statements.

  `Build.instruction` takes one instruction that can be reached.  Instructions that cannot
  be reached are skipped up to the `else` or `end` of the block they stand in.
  `buildFunction` builds one defined function, and `buildModule` all of them, reporting
  each fault and leaving the function out.
-/
import WasmScript.IR.Builder

namespace WasmScript.IR

namespace Build

/-! ### Blocks -/

/-- Writes values to slots, if there are any. -/
def assign (ctx : Context) (slots : List Nat) (values : List Expression) : Build Unit :=
  if values = [] then pure () else emit ctx (.assign slots values)

/-- Opens a block of a type; an `if` has a condition.  The parameters of a loop live in slots that
branches back to it assign again. -/
def openFrame (ctx : Context) (kind : FrameKind) (type : BlockType)
    (condition : Option Expression) : Build Unit := do
  flush ctx
  let params ← popValues ctx type.params
  let b ← get
  let height := b.stack.length
  let label := b.nextLabel
  set { b with nextLabel := label + 1 }
  let resultSlots ← type.results.mapM (newTemp .slot)
  let paramSlots ← (if kind = .loop then type.params else []).mapM (newTemp .slot)
  assign ctx paramSlots (if kind = .loop then params else [])
  let opened : Frame :=
    { kind, label, height, resultSlots, paramSlots, condition
      params := type.params
      results := type.results
      paramValues := params }
  modify fun b => { b with frames := opened :: b.frames }
  pushAll (if kind = .loop then refs paramSlots type.params else params)

/-- The results of a block, which must be exactly what is left above its height. -/
def popResults (ctx : Context) (f : Frame) : Build (List Expression) := do
  let values ← popValues ctx f.results
  let left := (← get).stack.length
  require ctx (left = f.height)
    (.arity f.kind f.results.length (f.results.length + left - f.height))
  pure values

/-- Does something if the end of a block is reached. -/
def ifReached (f : Frame) (x : Build Unit) : Build Unit := if f.unreachable then pure () else x

def assignResults (ctx : Context) (f : Frame) : Build Unit := do
  assign ctx f.resultSlots (← popResults ctx f)

/-- Starts the second arm of an `if`. -/
def startElse (ctx : Context) : Build Unit := do
  let f ← frame ctx
  require ctx (f.kind = .conditional ∧ f.firstArm.isNone) .unexpectedElse
  ifReached f (assignResults ctx f)
  cut f.height
  pushAll f.paramValues
  modifyFrame fun f =>
    { f with
      firstArm := some f.body.toList
      firstFallsThrough := ¬ f.unreachable
      unreachable := false
      body := #[] }

/-- Removes and gives the innermost open block. -/
def popFrame (ctx : Context) : Build Frame := do
  let f ← frame ctx
  modify fun b => { b with frames := b.frames.tail }
  pure f

/-- Leaves the function with its results, if there are any. -/
def leaveResults (ctx : Context) (f : Frame) : Build Unit := do
  let values ← popResults ctx f
  if values = [] then pure () else emit ctx (.leave values)

def closeFunction (ctx : Context) (f : Frame) : Build (List Statement) := do
  ifReached f (leaveResults ctx f)
  pure (← popFrame ctx).body.toList

def closeBlock (ctx : Context) (f : Frame) : Build Unit := do
  require ctx (f.kind = .conditional ∧ f.firstArm.isNone → f.params = [] ∧ f.results = [])
    .ifWithoutElse
  ifReached f (assignResults ctx f)
  let closed ← popFrame ctx
  cut f.height
  emit ctx closed.toStatement
  if f.leaves then pushAll (refs f.resultSlots f.results) else markUnreachable ctx

/-- Closes the innermost open block; gives the body of the function if it is closed. -/
def close (ctx : Context) : Build (Option (List Statement)) := do
  let f ← frame ctx
  if f.kind = .function then some <$> closeFunction ctx f
  else
    closeBlock ctx f
    pure none

/-! ### Instructions -/

/-- A numeric operator.  A test is a comparison with zero. -/
def numeric (ctx : Context) (opcode : Nat) : Build Unit := do
  match NumericOp.ofOpcode? opcode with
  | none => fail ctx (.noOperator (Hex.ofNat opcode))
  | some op =>
    match op.category with
    | .test =>
      let operand ← pop ctx (some op.operand)
      push (.compare op operand (.constant op.operand 0))
    | .compare =>
      let right ← pop ctx (some op.operand)
      let left ← pop ctx (some op.operand)
      push (.compare op left right)
    | .unary | .convert =>
      let operand ← pop ctx (some op.operand)
      push (.unary op.result op operand)
    | .binary =>
      let right ← pop ctx (some op.operand)
      let left ← pop ctx (some op.operand)
      push (.binary op.result op left right)

/-- Chooses between two operands.  Both run, before the condition, though only one is chosen. -/
def select (ctx : Context) : Build Unit := do
  let condition ← pop ctx (some .i32)
  let pending := (← get).stack.take 2
  flushIf ctx (condition.hasEffects || pending.any Expression.hasEffects)
  let ifFalse ← pop ctx none
  let ifTrue ← pop ctx (some ifFalse.type)
  push (.select ifFalse.type condition ifTrue ifFalse)

/-- A call.  Unless it gives exactly one value, it becomes a statement. -/
def call (ctx : Context) (index : Nat) : Build Unit := do
  let type ← calleeType ctx index
  let args ← popValues ctx type.params
  match type.results with
  | [result] => push (.call result index args)
  | [] =>
    flush ctx
    emit ctx (.evaluate (.multi index args []))
  | results =>
    flush ctx
    let ids ← results.mapM (newTemp .value)
    emit ctx (.define ids (.multi index args results))
    pushAll (refs ids results)

/-- Checks that a branch by index carries the types of its default to a target as well. -/
def checkTarget (ctx : Context) (types : List ValueType) (depth : Nat) : Build Unit := do
  let found := (← target ctx depth).labelTypes
  require ctx (found = types) (.branchTypes depth found types)

/-- A branch by index.  All targets must carry the types of the default. -/
def branchTable (ctx : Context) (depths : List Nat) (defaultDepth : Nat) : Build Unit := do
  let index ← pop ctx (some .i32)
  flush ctx
  let types := (← target ctx defaultDepth).labelTypes
  depths.forM (checkTarget ctx types)
  let values ← popValues ctx types
  let targets ← depths.mapM fun depth => branch ctx depth values
  let default ← branch ctx defaultDepth values
  emit ctx (.branchTable index targets default)
  markUnreachable ctx

/-- One instruction that can be reached, other than an `end`, which `close` takes care of. -/
def step (ctx : Context) : Instruction → Build Unit
  | .nop | .endMark => pure ()
  | .unreachable => do
    discard ctx
    emit ctx .unreachable
    markUnreachable ctx
  | .block type => openFrame ctx .block type none
  | .loop type => openFrame ctx .loop type none
  | .ifBlock type => do
    let condition ← pop ctx (some .i32)
    openFrame ctx .conditional type (some condition)
  | .elseMark => startElse ctx
  | .br depth => do
    let values ← popValues ctx (← target ctx depth).labelTypes
    discard ctx
    emit ctx (.branch (← branch ctx depth values))
    markUnreachable ctx
  | .brIf depth => do
    let condition ← pop ctx (some .i32)
    flush ctx
    let values ← peekValues ctx (← target ctx depth).labelTypes
    emit ctx (.branchIf condition (← branch ctx depth values))
  | .brTable depths defaultDepth => branchTable ctx depths defaultDepth
  | .ret => do
    let values ← popValues ctx ctx.type.results
    discard ctx
    emit ctx (.leave values)
    markUnreachable ctx
  | .call index => call ctx index
  | .drop => do
    let value ← pop ctx none
    if value.hasEffects then
      flush ctx
      emit ctx (.evaluate (.single value))
  | .select => select ctx
  | .localGet index => do
    let type ← localType ctx index
    push (.localRef type index)
  | .localSet index => do
    let type ← localType ctx index
    let value ← pop ctx (some type)
    flush ctx
    emit ctx (.localSet index value)
  | .localTee index => do
    let type ← localType ctx index
    push (.tee type index (← pop ctx (some type)))
  | .globalGet index => do
    let g ← globalAt ctx index
    push (.globalRef g.type index)
  | .globalSet index => do
    let g ← globalAt ctx index
    require ctx g.isMutable (.immutableGlobal index)
    let value ← pop ctx (some g.type)
    flush ctx
    emit ctx (.globalSet index value)
  | .const value => push (.constant value.type value.toInt)
  | .numeric opcode => numeric ctx opcode
  | .load opcode arg => do
    requireMemory ctx
    let base ← pop ctx (some .i32)
    let access ← ofAccess (describeAccess opcode)
    push (← ofAccess (loadOf access arg base))
  | .store opcode arg => do
    requireMemory ctx
    let access ← ofAccess (describeAccess opcode)
    let value ← pop ctx (some access.type)
    let base ← pop ctx (some .i32)
    flush ctx
    emit ctx (← ofAccess (storeOf access arg base value))
  | .memorySize => do
    requireMemory ctx
    push .memorySize
  | .memoryGrow => do
    requireMemory ctx
    push (.memoryGrow (← pop ctx (some .i32)))
  | .memoryCopy => do
    requireMemory ctx
    let length ← pop ctx (some .i32)
    let source ← pop ctx (some .i32)
    let destination ← pop ctx (some .i32)
    flush ctx
    emit ctx (.memoryCopy destination source length)
  | .memoryFill => do
    requireMemory ctx
    let length ← pop ctx (some .i32)
    let value ← pop ctx (some .i32)
    let destination ← pop ctx (some .i32)
    flush ctx
    emit ctx (.memoryFill destination value length)

/-- One instruction that can be reached; gives the body of the function if it is closed. -/
def instruction (ctx : Context) (next : Located) : Build (Option (List Statement)) := do
  modify fun b => { b with pos := next.pos }
  if next.instruction = .endMark then close ctx
  else
    step ctx next.instruction
    pure none

/-- Gives a body once it is closed, which must be where its instructions end. -/
def ended (ctx : Context) (body : List Statement) : List Located → Build (List Statement)
  | [] => pure body
  | after :: _ => do
    modify fun b => { b with pos := after.pos }
    fail ctx .trailing

/-- The instructions of a body, `skipped` blocks that cannot be reached being open. -/
def instructions (ctx : Context) : List Located → (skipped : Nat) → Build (List Statement)
  | [], _ => fail ctx .unterminated
  | next :: rest, skipped => do
    let dead := (← frame ctx).unreachable
    if dead ∧ next.instruction.opensBlock then instructions ctx rest (skipped + 1)
    else if dead ∧ next.instruction = .endMark ∧ 0 < skipped then
      instructions ctx rest (skipped - 1)
    else if dead ∧ (0 < skipped ∨ ¬ next.instruction.closesBlock) then
      instructions ctx rest skipped
    else
      match ← instruction ctx next with
      | none => instructions ctx rest skipped
      | some body => ended ctx body rest

end Build

/-! ### Functions and modules -/

/-- The structured form of a body, as the function with an index, a name and a type. -/
def buildBody (m : Module) (index : Nat) (name : Option String) (type : FunctionType)
    (body : Body) : Except BuildFailure Function := do
  let ctx : Context := ⟨m, index, name, type, type.params.toArray ++ body.locals⟩
  let root : Frame :=
    { kind := .function, label := -1, params := type.params, results := type.results
      height := 0, resultSlots := [], paramSlots := [] }
  let (statements, b) ←
    (Build.instructions ctx body.instructions.toList 0).run { frames := [root], pos := body.pos }
  pure
    { index, name
      params := type.params
      results := type.results
      locals := body.locals.toList
      temps := b.temps.toList
      body := statements }

/-- The structured form of a defined function, by its index among all functions. -/
def buildFunction (m : Module) (index : Nat) : Except BuildFailure Function := do
  let name := (m.exportNames index).head?
  let body := if index < m.imports.size then none else m.bodies[index - m.imports.size]?
  match body, m.functionType? index with
  | some body, some type => buildBody m index name type body
  | _, _ =>
    throw (.invalid ⟨.noBody index, index, name, (body.map Body.pos).getD 0⟩)

/-- The functions of a module that are valid, and a finding for each of the others. -/
structure BuildResult where
  functions : List Function := []
  diagnostics : List Diagnostic := []
deriving Inhabited

def buildAll (m : Module) : List Nat → Except AccessError BuildResult
  | [] => .ok {}
  | index :: rest =>
    match buildFunction m index with
    | .error (.access e) => .error e
    | .ok f => do
      let result ← buildAll m rest
      pure { result with functions := f :: result.functions }
    | .error (.invalid e) => do
      let result ← buildAll m rest
      pure { result with diagnostics := e.toDiagnostic :: result.diagnostics }

def buildModule (m : Module) : Except AccessError BuildResult :=
  buildAll m ((List.range m.bodies.size).map (m.imports.size + ·))

end WasmScript.IR
