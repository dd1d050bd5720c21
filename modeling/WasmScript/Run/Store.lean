/-
  WasmScript/Run/Store.lean
  =========================
  **The store** — all that changes while modules run.

  A `Store` holds the memories, the instances with their globals, and the world of the
  host.  Memories have places of their own, because a host may lend one memory to several
  instances and operate on it between calls.  An `Action` changes the store and gives a
  value or fails; what it changed before it failed stays changed.
-/
import WasmScript.Host.Program
import WasmScript.Run.Cell

namespace WasmScript

structure Instance where
  /-- For each imported function its place among the functions of the host. -/
  imports : Array Nat
  /-- The place of the memory in the store. -/
  memory : Option Nat
  globals : Array Cell
deriving DecidableEq, Repr, Inhabited

/-- All that changes while modules run. -/
structure Store (σ : Type) where
  memories : Array LinearMemory := #[]
  instances : Array Instance := #[]
  world : σ

/-- A change of the store that gives a value or fails. -/
abbrev Action (σ : Type) := EStateM Failure (Store σ)

namespace Action

variable {σ : Type}

/-- Gives what was found, or stops. -/
def ofExcept {α ε : Type} (failure : ε → Failure) : Except ε α → Action σ α
  | .ok a => pure a
  | .error e => throw (failure e)

/-- Gives what is there; code of an accepted module never asks for anything else. -/
def ofOption {α : Type} : Option α → Action σ α
  | some a => pure a
  | none => throw .stuck

def outcome {α : Type} (a : Action σ α) : Action σ (Except Failure α) := fun s =>
  match a s with
  | .ok v s => .ok (.ok v) s
  | .error e s => .ok (.error e) s

/-! ### Memories -/

def requireMemory (place : Nat) : Action σ Unit := do
  if (← get).memories.size ≤ place then throw .noMemory

def onMemory {α : Type} (place : Nat) (op : EStateM Failure LinearMemory α) : Action σ α :=
  fun ⟨memories, instances, world⟩ =>
    match memories[place]? with
    | none => .error .stuck ⟨memories, instances, world⟩
    | some m =>
      let memories := memories.setIfInBounds place default
      match op m with
      | .ok a m => .ok a ⟨memories.setIfInBounds place m, instances, world⟩
      | .error e m => .error e ⟨memories.setIfInBounds place m, instances, world⟩

def addMemory (m : LinearMemory) : Action σ Nat := fun s =>
  .ok s.memories.size { s with memories := s.memories.push m }

def memoryValue (place : Nat) : Action σ HostValue := do
  let m ← ofOption (← get).memories[place]?
  pure (.memory place m.pagesNumber m.maximumNumber)

/-! ### Instances -/

def addInstance (i : Instance) : Action σ Nat := fun s =>
  .ok s.instances.size { s with instances := s.instances.push i }

def requireInstance (place : Nat) : Action σ Unit := do
  if (← get).instances.size ≤ place then throw .noInstance

def instanceAt (place : Nat) : Action σ Instance := do ofOption (← get).instances[place]?

def getGlobal (place index : Nat) : Action σ Cell := do
  ofOption (← instanceAt place).globals[index]?

def setGlobal (place index : Nat) (v : Cell) : Action σ Unit := do
  let _ ← getGlobal place index
  modify fun s =>
    { s with
      instances := s.instances.modify place fun i =>
        { i with globals := i.globals.setIfInBounds index v } }

def onOwnMemory {α : Type} (place : Nat) (op : LinearMemory.Op α) : Action σ α := do
  let memory ← ofOption (← instanceAt place).memory
  onMemory memory (MemoryCall.lift op)

def memorySize (place : Nat) : Action σ Cell := do
  onOwnMemory place (do
    let m ← get
    pure (.ofPages m m.pages))

/-- Grows the memory of an instance; gives the size before, or that it cannot grow. -/
def memoryGrow (place delta : Nat) : Action σ Cell := do
  onOwnMemory place (do
    let before ← LinearMemory.grow delta
    pure (.ofPages (← get) before))

/-! ### The host -/

/-- Changes the world of the host; gives the world as it was. -/
def changeWorld (change : σ → σ) : Action σ σ := fun s =>
  .ok s.world { s with world := change s.world }

/-- How instances are called: by place and name of an export. -/
abbrev Exports (σ : Type) := Nat → String → List HostValue → Action σ HostValue

/-- Whether a failure ends everything, so that no host function sees it. -/
def isFinal : Failure → Bool
  | .tooDeep | .tooLong | .stuck => true
  | _ => false

/-- The outcome of an action, as a value, unless it ends everything. -/
def attempt {α : Type} (a : Action σ α) : Action σ (Except Failure α) := do
  match ← outcome a with
  | .ok v => pure (.ok v)
  | .error e => if isFinal e then throw e else pure (.error e)

/-- Runs a host function.  What it asks of memories and instances that do not exist fails. -/
def runHost (exports : Exports σ) : HostProgram σ → Action σ HostValue
  | .finish (.ok v) => pure v
  | .finish (.error e) => throw e
  | .world change next => do
    let before ← changeWorld change
    runHost exports (next before)
  | .memory place call next => do
    let result ← attempt do
      requireMemory place
      onMemory place call.perform
    runHost exports (next result)
  | .call place name args next => do
    let result ← attempt (exports place name args)
    runHost exports (next result)

end Action

end WasmScript
