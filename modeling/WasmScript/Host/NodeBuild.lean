/-
  WasmScript/Host/NodeBuild.lean
  ==============================
  **Building bodies from objects** — from the instructions that a host has as objects to
  the nodes of a structured body.

  `HostModule.build` builds the function that a host names by any value, and
  `HostModule.buildAll` those of all bodies, each of which is either a function or a
  finding.  An instruction of a kind that there is not does nothing.  Whatever else cannot
  be used ends the build when it is come to, and that is no finding about the body.
-/
import WasmScript.Host.Finding
import WasmScript.Host.NodeBuilder

namespace WasmScript

namespace HostBuild

open HostNode (node)
open IR (FrameKind)

/-! ### Blocks -/

def openFrame (ctx : Context) (kind : FrameKind) (type : HostValue) : Step Unit := do
  let condition ← if kind = .conditional then Operand.node <$> pop ctx i32 else pure .undefined
  flush ctx
  let values ← popValues ctx (← typesIn (← accept (type.memberNamed "params")))
  let b ← get
  let label := b.nextLabel
  let params ← accept (do (← type.memberNamed "params").itemsOf "blockType.params")
  let results ← accept (do (← type.memberNamed "results").itemsOf "blockType.results")
  set { b with nextLabel := label + 1 }
  let resultSlots ← results.mapM (newTemp .slot)
  let paramSlots ← if kind = .loop then params.mapM (newTemp .slot) else pure []
  if kind = .loop ∧ values.length ≠ 0 then
    emit ctx (node "SlotAssign" [("ids", .ofList .ofNat paramSlots),
      ("values", .ofList Operand.node values)])
  let opened : Frame :=
    { kind, label, params, results, resultSlots, paramSlots, condition
      height := b.stack.length
      paramValues := values }
  modify fun b => { b with frames := opened :: b.frames }
  pushAll (if kind = .loop then refs paramSlots params else values)

/-- The results of a block, which must be exactly what is left above its height. -/
def popResults (ctx : Context) (f : Frame) : Step (List Operand) := do
  let values ← popValues ctx f.results
  let left := (← get).stack.length
  if left ≠ f.height then
    fail ctx (.arity f.kind f.results.length (f.results.length + left - f.height))
  else pure values

def assignResults (ctx : Context) (f : Frame) : Step Unit := do
  let values ← popResults ctx f
  if values.length ≠ 0 then
    emit ctx (node "SlotAssign" [("ids", .ofList .ofNat f.resultSlots),
      ("values", .ofList Operand.node values)])

/-- Starts the second arm of an `if`. -/
def startElse (ctx : Context) : Step Unit := do
  let f ← frame ctx
  if f.kind ≠ .conditional ∨ f.firstArm.isSome then fail ctx .unexpectedElse
  if ¬ f.unreachable then assignResults ctx f
  cut f.height
  pushAll f.paramValues
  modifyFrame fun f =>
    { f with
      firstArm := some f.body
      firstFallsThrough := ¬ f.unreachable
      unreachable := false
      body := #[] }

/-- Removes and gives the innermost open block. -/
def popFrame (ctx : Context) : Step Frame := do
  let f ← frame ctx
  modify fun b => { b with frames := b.frames.tail }
  pure f

def leave (ctx : Context) (values : List Operand) : Step Unit :=
  emit ctx (node "Return" [("values", .ofList Operand.node values)])

def closeFunction (ctx : Context) (f : Frame) : Step (List HostValue) := do
  if ¬ f.unreachable then
    let values ← popResults ctx f
    if values.length ≠ 0 then leave ctx values
  pure (← popFrame ctx).body.toList

/-- Closes a block.  What follows it is reached if its end is, if a branch leaves it, or if one
of its arms lets control through. -/
def closeBlock (ctx : Context) (f : Frame) : Step Unit := do
  if f.kind = .conditional ∧ f.firstArm.isNone ∧ ¬ (f.params.isEmpty ∧ f.results.isEmpty) then
    fail ctx .ifWithoutElse
  if ¬ f.unreachable then assignResults ctx f
  let closed ← popFrame ctx
  cut f.height
  emit ctx closed.toNode
  let reachable :=
    ¬ f.unreachable ∨ (f.kind ≠ .loop ∧ f.targeted)
      ∨ (f.kind = .conditional ∧ (f.firstFallsThrough ∨ f.firstArm.isNone))
  if reachable then pushAll (refs f.resultSlots f.results) else markUnreachable ctx

/-- Closes the innermost open block; gives the body of the function if it is closed. -/
def close (ctx : Context) : Step (Option (List HostValue)) := do
  let f ← frame ctx
  if f.kind = .function then some <$> closeFunction ctx f
  else
    closeBlock ctx f
    pure none

/-! ### Instructions -/

def compound (kind : String) (type : HostValue) (effects : Bool)
    (fields : List (String × HostValue)) : Operand :=
  { node := node kind (("type", type) :: fields), type, effects }

def constant (type : ValueType) (v : HostValue) : Step Operand := do
  let literal ← accept (HostNode.literal type.toHost v)
  pure { node := literal, type := type.toHost, stable := true }

/-- A numeric operator.  A test is a comparison with zero. -/
def numeric (ctx : Context) (opcode : HostValue) : Step Unit := do
  let op? := match opcode.integer? with
    | some (.ofNat n) => NumericOp.ofOpcode? n
    | _ => none
  match op? with
  | none => fail ctx (.noOperator (← accept (opcode.hexText "opcode")))
  | some op =>
    let operand := op.operand.toHost
    let named : String × HostValue := ("op", .string op.name)
    let compare (left right : Operand) : Operand :=
      compound "Compare" i32 (left.effects || right.effects)
        [named, ("left", left.node), ("right", right.node)]
    match op.category with
    | .test =>
      let left ← pop ctx operand
      push (compare left (← constant op.operand (.ofNat 0)))
    | .compare =>
      let right ← pop ctx operand
      push (compare (← pop ctx operand) right)
    | .unary | .convert =>
      let a ← pop ctx operand
      push (compound "UnaryOp" op.result.toHost a.effects [named, ("operand", a.node)])
    | .binary =>
      let right ← pop ctx operand
      let left ← pop ctx operand
      push (compound "BinaryOp" op.result.toHost
        (op.operator.traps || left.effects || right.effects)
        [named, ("left", left.node), ("right", right.node)])

/-- Chooses between two operands.  Both run, before the condition, though only one is chosen. -/
def select (ctx : Context) : Step Unit := do
  let condition ← pop ctx i32
  let pending := (← get).stack.take 2
  if condition.effects || pending.any Operand.effects then flush ctx
  let ifFalse ← pop ctx .undefined
  let ifTrue ← pop ctx ifFalse.type
  push (compound "Select" ifFalse.type
    (condition.effects || ifTrue.effects || ifFalse.effects)
    [("condition", condition.node), ("ifTrue", ifTrue.node), ("ifFalse", ifFalse.node)])

/-- A call.  Unless it gives exactly one value, it becomes a statement. -/
def call (ctx : Context) (index : HostValue) : Step Unit := do
  let type ← calleeType ctx index
  let args ← popValues ctx (← typesIn (← accept (type.memberNamed "params")))
  let results ← accept (type.memberNamed "results")
  let fields := [("funcIndex", index), ("args", .ofList Operand.node args)]
  if (← accept (results.memberNamed "length")).isNumber (.ofInt 1) then
    push (compound "Call" (← accept (results.memberNamed "0")) true fields)
  else
    flush ctx
    let types ← accept (results.itemsOf "type.results")
    let made := node "MultiCall" (fields ++ [("types", .array types)])
    if types.isEmpty then evaluate ctx made
    else
      let ids ← types.mapM (newTemp .value)
      emit ctx (node "TempDef" [("ids", .ofList .ofNat ids), ("value", made)])
      pushAll (refs ids types)

def sameTypes : List HostValue → List HostValue → Bool
  | [], [] => true
  | a :: as, b :: bs => a.same b && sameTypes as bs
  | _, _ => false

/-- A branch by index.  All targets must carry the types of the default. -/
def branchTable (ctx : Context) (depths defaultDepth : HostValue) : Step Unit := do
  let index ← pop ctx i32
  flush ctx
  let types := (← target ctx defaultDepth).labelTypes
  let items ← accept (depths.itemsOf "depths")
  items.forM fun depth => do
    let found := (← target ctx depth).labelTypes
    if !sameTypes found types then fail ctx (.branchTypes depth found types)
  let values ← popValues ctx types
  let targets ← items.mapM fun depth => branch ctx depth values
  let default ← branch ctx defaultDepth values
  emit ctx (node "BranchTable" [("index", index.node), ("targets", .array targets),
    ("defaultTarget", default)])
  markUnreachable ctx

/-- A statement about the memory with three operands, by their names in the order of the stack. -/
def memoryStatement (ctx : Context) (kind : String) (names : List String) : Step Unit := do
  requireMemory ctx
  let values ← popValues ctx [i32, i32, i32]
  flush ctx
  emit ctx (node kind (names.zip (values.map Operand.node)))

/-- One instruction that can be reached; gives the body of the function if it is closed. -/
def instruction (ctx : Context) (next : HostValue) : Step (Option (List HostValue)) := do
  let part (key : String) : Step HostValue := accept (next.memberNamed key)
  let pos ← part "pos"
  modify fun b => { b with pos }
  let kind ← match ← part "kind" with
    | .string kind => pure kind
    | _ => pure ""
  match kind with
  | "end" => return ← close ctx
  | "unreachable" =>
    discard ctx
    emit ctx (node "Unreachable" [])
    markUnreachable ctx
  | "block" => openFrame ctx .block (← part "blockType")
  | "loop" => openFrame ctx .loop (← part "blockType")
  | "if" => openFrame ctx .conditional (← part "blockType")
  | "else" => startElse ctx
  | "br" =>
    let depth ← part "depth"
    let values ← popValues ctx (← target ctx depth).labelTypes
    discard ctx
    emit ctx (← branch ctx depth values)
    markUnreachable ctx
  | "br_if" =>
    let condition ← pop ctx i32
    flush ctx
    let depth ← part "depth"
    let values ← peekValues ctx (← target ctx depth).labelTypes
    let branch ← branch ctx depth values
    emit ctx (node "BranchIf" [("condition", condition.node), ("branch", branch)])
  | "br_table" => branchTable ctx (← part "depths") (← part "defaultDepth")
  | "return" =>
    let values ← popValues ctx ctx.results
    discard ctx
    leave ctx values
    markUnreachable ctx
  | "call" => call ctx (← part "funcIndex")
  | "drop" =>
    let value ← pop ctx .undefined
    if value.effects then
      flush ctx
      evaluate ctx value.node
  | "select" => select ctx
  | "local.get" =>
    let index ← part "index"
    push (compound "LocalRef" (← localType ctx index) false [("index", index)])
  | "local.set" =>
    let index ← part "index"
    let value ← pop ctx (← localType ctx index)
    flush ctx
    emit ctx (node "LocalSet" [("index", index), ("value", value.node)])
  | "local.tee" =>
    let index ← part "index"
    let type ← localType ctx index
    let value ← pop ctx type
    push (compound "LocalTee" type true [("index", index), ("value", value.node)])
  | "global.get" =>
    let index ← part "index"
    let type ← accept ((← globalAt ctx index).memberNamed "type")
    push (compound "GlobalRef" type false [("index", index)])
  | "global.set" =>
    let index ← part "index"
    let g ← globalAt ctx index
    if !(← accept (g.memberNamed "mutable")).truthy then fail ctx (.immutableGlobal index)
    let value ← pop ctx (← accept (g.memberNamed "type"))
    flush ctx
    emit ctx (node "GlobalSet" [("index", index), ("value", value.node)])
  | "i32.const" => push (← constant .i32 (← part "value"))
  | "i64.const" => push (← constant .i64 (← part "value"))
  | "numeric" => numeric ctx (← part "opcode")
  | "load" =>
    requireMemory ctx
    let base ← pop ctx i32
    let load ← accept (HostNode.loadOf (← part "opcode") (← part "memarg") base.node)
    push { node := load, type := ← accept (load.memberNamed "type"), effects := true }
  | "store" =>
    requireMemory ctx
    let opcode ← part "opcode"
    let access ← accept (IR.accessOf opcode)
    let value ← pop ctx access.type.toHost
    let base ← pop ctx i32
    flush ctx
    emit ctx (← accept (HostNode.storeOf opcode (← part "memarg") base.node value.node))
  | "memory.size" =>
    requireMemory ctx
    push (compound "MemorySize" i32 false [])
  | "memory.grow" =>
    requireMemory ctx
    let delta ← pop ctx i32
    push (compound "MemoryGrow" i32 true [("delta", delta.node)])
  | "memory.copy" => memoryStatement ctx "MemoryCopy" ["destination", "source", "length"]
  | "memory.fill" => memoryStatement ctx "MemoryFill" ["destination", "value", "length"]
  | _ => pure ()
  return none

def isOf (kinds : List String) (next : HostValue) : Step Bool := do
  match ← accept (next.memberNamed "kind") with
  | .string kind => pure (kinds.contains kind)
  | _ => pure false

/-- The instructions of a body, `skipped` blocks that cannot be reached being open. -/
def instructions (ctx : Context) : List HostValue → (skipped : Nat) → Step (List HostValue)
  | [], _ => fail ctx .unterminated
  | next :: rest, skipped => do
    if (← frame ctx).unreachable then
      if ← isOf ["block", "loop", "if"] next then return ← instructions ctx rest (skipped + 1)
      if 0 < skipped then
        if ← isOf ["end"] next then return ← instructions ctx rest (skipped - 1)
        return ← instructions ctx rest skipped
      if !(← isOf ["end", "else"] next) then return ← instructions ctx rest skipped
    match ← instruction ctx next with
    | none => instructions ctx rest skipped
    | some body =>
      match rest with
      | [] => pure body
      | after :: _ =>
        let pos ← accept (after.memberNamed "pos")
        modify fun b => { b with pos }
        fail ctx .trailing

def functionNode (ctx : Context) (params locals body : List HostValue)
    (temps : List (HostValue × IR.TempKind)) : HostValue :=
  .record
    [("index", ctx.index), ("name", ctx.name), ("params", .array params),
     ("results", .array ctx.results), ("locals", .array locals),
     ("temps", .array (temps.zipIdx.map fun ((type, kind), id) =>
       .record [("id", .ofNat id), ("type", type), ("kind", .string kind.name)])),
     ("body", HostNode.abbreviate (.array body))]

end HostBuild

/-! ### Functions and modules -/

namespace HostModule

open HostBuild (Stop)

/-- The structured form of the function that a host names by any value. -/
def build (module index : HostValue) : Except Stop HostValue := do
  let found {α : Type} (r : Except Failure α) : Except Stop α := r.mapError .failure
  let defined ← found (do index.minus (← count module "imports"))
  let body ← found (do (← module.memberNamed "bodies").member defined)
  let type ← found (functionType module index)
  let name := ((← found (exportNames module index)).head?).getD .undefined
  let pos ← match body with
    | .undefined | .null => pure .undefined
    | body => found (body.memberNamed "pos")
  let pos := match pos with
    | .undefined | .null => HostValue.ofNat 0
    | pos => pos
  if !body.truthy || !type.truthy then throw (.ofFault ⟨.noBody index, index, name, pos⟩)
  let params ← found (do (← type.memberNamed "params").itemsOf "type.params")
  let locals ← found (do (← body.memberNamed "locals").itemsOf "body.locals")
  let results ← found (do (← type.memberNamed "results").itemsOf "ctx.type.results")
  let ctx : HostBuild.Context :=
    { module, index, name, results, localTypes := params ++ locals }
  let root : HostBuild.Frame :=
    { kind := .function, label := -1, params, results, height := 0, resultSlots := []
      paramSlots := [] }
  let instructions ← found (do (← body.memberNamed "instructions").itemsOf "body.instructions")
  let (statements, s) ←
    (HostBuild.instructions ctx instructions 0).run { frames := [root], pos }
  pure (HostBuild.functionNode ctx params locals statements s.temps.toList)

def finding (f : HostBuild.Fault) (message : String) : HostValue :=
  Finding.diagnostic (.ofNat f.cause.code) message
    [("section", .string "code"), ("offset", f.offset), ("functionIndex", f.index),
     ("functionName", f.name)]

/-- The functions and the findings of the bodies at some places. -/
def buildEach (module : HostValue) :
    List Nat → Except Failure (List HostValue × List HostValue)
  | [] => pure ([], [])
  | place :: rest => do
    let index ← (← count module "imports").plus (.ofNat place)
    match build module index with
    | .ok f => do
      let (functions, findings) ← buildEach module rest
      pure (f :: functions, findings)
    | .error (.invalid fault message) => do
      let (functions, findings) ← buildEach module rest
      pure (functions, finding fault message :: findings)
    | .error (.failure e) => throw e

/-- The structured form of every body, and a finding for each that is not valid. -/
def buildAll (module : HostValue) : Except Failure HostValue := do
  let length ← (← count module "bodies").toScalar
  let (functions, findings) ← buildEach module (List.range length.exact.truncated.toNat)
  pure (.record [("functions", .array functions), ("diagnostics", .array findings)])

end HostModule

end WasmScript
