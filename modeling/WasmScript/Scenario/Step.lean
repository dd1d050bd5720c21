/-
  WasmScript/Scenario/Step.lean
  =============================
  **Scenarios** — a host that makes memories, creates instances of one module, calls them
  and looks at what they hand out.

  Each `Step` gives an answer of its own, a failure included, and the steps after it run
  all the same.  A step that fails to create an instance leaves an earlier instance of
  that name in place.
-/
import WasmScript.Scenario.World
import WasmScript.Text.Units

namespace WasmScript.Scenario

/-- A memory that a host can reach. -/
inductive MemoryName where
  /-- One of its own. -/
  | own (name : String)
  /-- One that an instance hands out. -/
  | exported (target name : String)
deriving DecidableEq, Repr, Inhabited

inductive Step where
  | memory (name : String) (initial maximum : HostValue)
  | instantiate (target : String) (imports : Template)
  | call (target name : String) (args : List Template)
  | read (target name : String)
  | onMemory (source : MemoryName) (method : String) (args : List Template)
deriving Inhabited

inductive Answer where
  | value (v : HostValue)
  /-- A function that an instance hands out. -/
  | function
  /-- What an instance hands out, by name and kind. -/
  | members (list : List (String × String))
deriving Inhabited

namespace Step

def kindOf : Machine.Exported → String
  | .function => "function"
  | .value (.memory ..) => "memory"
  | .value v => v.typeName

def instanceNamed (target : String) : Action World Nat := do
  match (← get).world.instances.lookup target with
  | some place => pure place
  | none => throw .noInstance

/-- What an instance hands out, by name and kind, in the order of the names. -/
def members (m : Machine World) (place : Nat) : Action World (List (String × String)) := do
  let all ← m.exportedAll place m.module.exports
  let kinds := all.map fun (name, x) => (name, kindOf x)
  pure (kinds.mergeSort fun a b => Units.le a.1 b.1)

def memoryNamed (m : Machine World) : MemoryName → Action World Nat
  | .own name => do
    match (← get).world.memories.lookup name with
    | some place => pure place
    | none => throw .noMemory
  | .exported target name => do
    let place ← instanceNamed target
    match ← m.exportNamed place name with
    | some (.value (.memory found ..)) => pure found
    | _ => throw .noMemory

def perform (m : Machine World) (depth : Nat) : Step → Action World Answer
  | .memory name initial maximum => do
    let place ← Template.addMemory initial maximum
    let _ ← Action.changeWorld fun w => { w with memories := (name, place) :: w.memories }
    let v ← Action.memoryValue place
    pure (.value v)
  | .instantiate target imports => do
    let imports ← imports.realise
    let place ← m.instantiate depth imports
    let _ ← Action.changeWorld fun w => { w with instances := (target, place) :: w.instances }
    let list ← members m place
    pure (.members list)
  | .call target name args => do
    let place ← instanceNamed target
    let args ← Template.realiseAll args
    let v ← m.callExport depth place name args
    pure (.value v)
  | .read target name => do
    let place ← instanceNamed target
    match ← m.exportNamed place name with
    | some .function => pure .function
    | some (.value v) => pure (.value v)
    | none => pure (.value .undefined)
  | .onMemory source method args => do
    let place ← memoryNamed m source
    let args ← Template.realiseAll args
    let call ← Action.ofOption (MemoryCall.ofName? method args)
    let v ← Action.onMemory place call.perform
    pure (.value v)

/-- The outcome of a step, and the calls of host functions during it. -/
def record (m : Machine World) (depth : Nat) (step : Step) :
    Action World (Except Failure Answer × List LogEntry) :=
  World.recorded (perform m depth step)

end Step

end WasmScript.Scenario
