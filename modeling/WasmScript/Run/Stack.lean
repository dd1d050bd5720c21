/-
  WasmScript/Run/Stack.lean
  =========================
  **The stack machine** — what WebAssembly says a module computes.

  Instructions take their operands from a stack and leave their results on it.  A block
  starts with its parameters on a stack of its own and hands on its results; a branch
  hands on as many values from the top as its target takes, and what lies below is lost.
  The machine does not check types: it is stuck where an accepted module never gets.

  `Addressing` says what happens to an address that leaves the 32-bit range: it wraps in
  the scripts that are generated, and it is out of bounds in an engine.
-/
import WasmScript.Run.Machine
import WasmScript.Run.Operation
import WasmScript.Module.Code

namespace WasmScript.Stack

/-- What happens to an address that leaves the 32-bit range. -/
inductive Addressing where
  | wrapped
  | exact
deriving DecidableEq, Repr, Inhabited

namespace Addressing

def address (a : Addressing) (base : Int) (offset : Nat) : Nat :=
  match a with
  | .wrapped => Bits.unsigned32 (base + offset)
  | .exact => Bits.unsigned32 base + offset

end Addressing

/-- The operands and locals of a running function, and the store. -/
structure State (σ : Type) where
  /-- The operands, the topmost first. -/
  operands : List Cell
  locals : Array Cell
  store : Store σ

/-- A change of operands, locals and store that gives a value or fails. -/
abbrev Run (σ : Type) := EStateM Failure (State σ)

inductive Ending where
  | next
  /-- A branch to the block that is so many blocks further out. -/
  | branch (depth : Nat)
  | leave
deriving DecidableEq, Repr, Inhabited

/-- What a running function has around it. -/
structure Surroundings (σ : Type) where
  module : Module
  /-- The place of its instance. -/
  place : Nat
  call : Nat → List Cell → Action σ (List Cell)
  addressing : Addressing
  /-- The most turns of a loop. -/
  turns : Nat

namespace Run

variable {σ : Type}

def act {α : Type} (a : Action σ α) : Run σ α := fun ⟨operands, locals, store⟩ =>
  match a store with
  | .ok v store => .ok v ⟨operands, locals, store⟩
  | .error e store => .error e ⟨operands, locals, store⟩

def result {α : Type} : Except Failure α → Run σ α
  | .ok a => pure a
  | .error e => throw e

/-- What is there; accepted code never asks for anything else. -/
def present {α : Type} : Option α → Run σ α
  | some a => pure a
  | none => throw .stuck

/-! ### The operand stack -/

def push (v : Cell) : Run σ Unit := modify fun ⟨operands, locals, store⟩ =>
  ⟨v :: operands, locals, store⟩

def pop : Run σ Cell := fun ⟨operands, locals, store⟩ =>
  match operands with
  | v :: operands => .ok v ⟨operands, locals, store⟩
  | [] => .error .stuck ⟨[], locals, store⟩

/-- Takes an operand that is an `i32`. -/
def popI32 : Run σ Int := do
  match (← pop).toValue with
  | .i32 n => pure n
  | .i64 _ => throw .stuck

def popUnsigned : Run σ Nat := do pure (Bits.unsigned32 (← popI32))

/-- Takes the topmost operands; gives them the deepest first. -/
def popMany (count : Nat) : Run σ (List Cell) := fun ⟨operands, locals, store⟩ =>
  if count ≤ operands.length then
    .ok (operands.take count).reverse ⟨operands.drop count, locals, store⟩
  else .error .stuck ⟨operands, locals, store⟩

/-- Adds operands, the last one topmost. -/
def pushMany (vs : List Cell) : Run σ Unit := modify fun ⟨operands, locals, store⟩ =>
  ⟨vs.reverse ++ operands, locals, store⟩

/-- Replaces all operands; gives those that were there. -/
def exchange (operands : List Cell) : Run σ (List Cell) := fun ⟨before, locals, store⟩ =>
  .ok before ⟨operands, locals, store⟩

/-! ### Variables -/

def getLocal (index : Nat) : Run σ Cell := do present (← get).locals[index]?

def setLocal (index : Nat) (v : Cell) : Run σ Unit := fun ⟨operands, locals, store⟩ =>
  if index < locals.size then .ok () ⟨operands, locals.setIfInBounds index v, store⟩
  else .error .stuck ⟨operands, locals, store⟩

/-! ### Instructions -/

def numeric (opcode : Nat) : Run σ Unit := do
  let op ← present (NumericOp.ofOpcode? opcode)
  match op.category with
  | .test =>
    let a ← pop
    push (← result (Operation.applyComparison op a.toValue (.ofInt op.operand 0)))
  | .compare =>
    let b ← pop
    let a ← pop
    push (← result (Operation.applyComparison op a.toValue b.toValue))
  | .unary | .convert =>
    let a ← pop
    push (← result (Operation.applyUnary op a.toValue))
  | .binary =>
    let b ← pop
    let a ← pop
    push (← result (Operation.applyBinary op a.toValue b.toValue))

def step (around : Surroundings σ) : Instruction → Run σ Ending
  | .nop => pure .next
  | .unreachable => throw (.trap .unreachable)
  | .br depth => pure (.branch depth)
  | .brIf depth => do
    let c ← popI32
    pure (if c ≠ 0 then .branch depth else .next)
  | .brTable depths defaultDepth => do
    let i ← popUnsigned
    pure (.branch (depths[i]?.getD defaultDepth))
  | .ret => pure .leave
  | .call function => do
    let type ← present (around.module.functionType? function)
    let args ← popMany type.params.length
    pushMany (← act (around.call function args))
    pure .next
  | .drop => do
    let _ ← pop
    pure .next
  | .select => do
    let c ← popI32
    let b ← pop
    let a ← pop
    push (if c ≠ 0 then a else b)
    pure .next
  | .localGet index => do
    push (← getLocal index)
    pure .next
  | .localSet index => do
    setLocal index (← pop)
    pure .next
  | .localTee index => do
    let v ← pop
    setLocal index v
    push v
    pure .next
  | .globalGet index => do
    push (← act (.getGlobal around.place index))
    pure .next
  | .globalSet index => do
    let v ← pop
    act (.setGlobal around.place index v)
    pure .next
  | .const v => do
    push v
    pure .next
  | .numeric opcode => do
    numeric opcode
    pure .next
  | .load opcode arg => do
    let access ← present (Access.ofOpcode? opcode)
    let address := around.addressing.address (← popI32) arg.offset
    let n ← act (.onOwnMemory around.place (LinearMemory.load access.accessor address))
    push (Operation.loaded access n)
    pure .next
  | .store opcode arg => do
    let access ← present (Access.ofOpcode? opcode)
    let n ← result (Operation.stored access (← pop).toValue)
    let address := around.addressing.address (← popI32) arg.offset
    act (.onOwnMemory around.place (LinearMemory.store access.accessor address n))
    pure .next
  | .memorySize => do
    push (← act (.memorySize around.place))
    pure .next
  | .memoryGrow => do
    let delta ← popUnsigned
    push (← act (.memoryGrow around.place delta))
    pure .next
  | .memoryCopy => do
    let length ← popUnsigned
    let source ← popUnsigned
    let destination ← popUnsigned
    act (.onOwnMemory around.place (LinearMemory.copy destination source length))
    pure .next
  | .memoryFill => do
    let length ← popUnsigned
    let value ← popI32
    let destination ← popUnsigned
    act (.onOwnMemory around.place (LinearMemory.fill destination value length))
    pure .next
  | .block _ | .loop _ | .ifBlock _ | .elseMark | .endMark => throw .stuck

/-! ### Blocks -/

/-- Runs the body of a block on operands of its own.  A branch to the block hands on as many
values as it has results, and so does its end. -/
def enclose (type : BlockType) (body : Run σ Ending) : Run σ Ending := do
  let args ← popMany type.params.length
  let below ← exchange args.reverse
  let ending ← body
  match ending with
  | .next | .branch 0 =>
    let results ← popMany type.results.length
    let _ ← exchange (results.reverse ++ below)
    pure .next
  | .branch (depth + 1) => pure (.branch depth)
  | .leave => pure .leave

/-- Repeats the body of a loop for as long as it branches to the loop, with the parameters that
the branch hands on. -/
def repeatBody (type : BlockType) (body : Run σ Ending) : (turns : Nat) → Run σ Ending
  | 0 => throw .tooLong
  | turns + 1 => do
    match ← body with
    | .branch 0 =>
      let args ← popMany type.params.length
      let _ ← exchange args.reverse
      repeatBody type body turns
    | .branch (depth + 1) => pure (.branch (depth + 1))
    | other => pure other

mutual
def execute (around : Surroundings σ) : Code → Run σ Ending
  | .plain i => step around i
  | .block type body => enclose type (executeAll around body)
  | .loop type body =>
    enclose type (repeatBody type (executeAll around body) around.turns)
  | .conditional type yes no => do
    let c ← popI32
    enclose type (if c ≠ 0 then executeAll around yes else executeAll around no)

/-- Runs code in order, up to a piece that does not go on to the next. -/
def executeAll (around : Surroundings σ) : List Code → Run σ Ending
  | [] => pure .next
  | c :: rest => do
    match ← execute around c with
    | .next => executeAll around rest
    | other => pure other
end

end Run

/-! ### Functions -/

/-- Runs the code of a function on arguments.  Declared locals start at zero.  A branch past the
outermost block leaves the function. -/
def runCode {σ : Type} (around : Surroundings σ) (type : FunctionType)
    (declared : Array ValueType) (code : List Code) (args : List Cell) :
    Action σ (List Cell) := fun store =>
  let locals := args.toArray ++ declared.map Cell.zero
  match (do let _ ← Run.executeAll around code; Run.popMany type.results.length)
      ⟨[], locals, store⟩ with
  | .ok results after => .ok results after.store
  | .error e after => .error e after.store

def machine {σ : Type} (m : Module) (host : Host σ) (boundary : Boundary)
    (addressing : Addressing) (maxPages turns : Nat) : Machine σ :=
  let codes := m.bodies.map Code.ofBody?
  { module := m
    host
    boundary
    maxPages
    body := fun place call function args => do
      let b ← Action.ofOption m.bodies[function - m.imports.size]?
      let code ← Action.ofOption (codes[function - m.imports.size]?.join)
      let type ← Action.ofOption (m.functionType? function)
      runCode ⟨m, place, call, addressing, turns⟩ type b.locals code args }

end WasmScript.Stack
