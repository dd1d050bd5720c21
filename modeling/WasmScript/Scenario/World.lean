/-
  WasmScript/Scenario/World.lean
  ==============================
  **Hosts made for a scenario** — a host whose functions each do one simple thing.

  A scenario says which host functions there are and what each one does: a `Behaviour`.
  The `World` of such a host counts the calls of each function, knows memories and
  instances by name, and keeps a log of the calls.  A `Template` describes a host value
  that may hold new functions and memories; `realise` makes them.
-/
import WasmScript.Run.Machine

namespace WasmScript.Scenario

/-- What a host function does when it is called. -/
inductive Behaviour where
  | const (v : HostValue)
  /-- Returns the argument with an index. -/
  | arg (index : String)
  /-- Returns its arguments as an array. -/
  | args
  /-- Returns the sum of its first two arguments. -/
  | add
  /-- Returns how often it was called. -/
  | count
  /-- Traps, as of a kind. -/
  | trap (kind : HostValue)
  | throw (message : String)
  /-- Exhausts the call stack of the host. -/
  | overflow
  /-- Calls an export of an instance with its arguments. -/
  | call (target name : String)
  | grow (memory : String) (pages : HostValue)
  | write (memory : String) (address : HostValue) (data : List UInt8)
deriving Inhabited

/-- A host function: its name in the log, what it does, and how often it was called. -/
structure HostFunction where
  label : String
  behaviour : Behaviour
  calls : Nat := 0
deriving Inhabited

/-- A call of a host function, by its name in the log. -/
structure LogEntry where
  label : String
  args : List HostValue
deriving Inhabited

structure World where
  functions : Array HostFunction := #[]
  /-- The memories with a name, the latest first. -/
  memories : List (String × Nat) := []
  /-- The instances with a name, the latest first. -/
  instances : List (String × Nat) := []
  /-- The calls of host functions, the latest first. -/
  log : List LogEntry := []
deriving Inhabited

namespace Behaviour

/-- What a first call with no arguments does, in a world without memories and instances. -/
def reply : Behaviour → Reply HostValue
  | .const v => .returns v
  | .arg i => .returns ((HostValue.array []).field i)
  | .args => .returns (.array [])
  | .add => .returns (.number .nan)
  | .count => .returns (.ofNat 1)
  | .trap kind => .traps kind
  | .throw message => .throws message
  | .overflow => .exhausts
  | .call .. => .throws Failure.noInstance.message
  | .grow .. => .misses "grow"
  | .write .. => .misses "write"

/-- What a call does, from the world as it was before the call. -/
def program (b : Behaviour) (calls : Nat) (before : World) (args : List HostValue) :
    HostProgram World :=
  let arg (i : Nat) : HostValue := args[i]?.getD .undefined
  let onMemory (name method : String) (call : MemoryCall) : HostProgram World :=
    match before.memories.lookup name with
    | some place => .memory place call .finish
    | none => .finish (.error (.type (.noMembers "undefined" method)))
  match b with
  | .const v => .finish (.ok v)
  | .arg i => .finish (.ok ((HostValue.array args).field i))
  | .args => .finish (.ok (.array args))
  | .add => .finish ((arg 0).plus (arg 1))
  | .count => .finish (.ok (.number (.ofInt calls)))
  | .trap kind => .finish (.error (.ofTrap kind))
  | .throw message => .finish (.error (.thrown message))
  | .overflow => .finish (.error .stackOverflow)
  | .call target name =>
    match before.instances.lookup target with
    | some place => .call place name args .finish
    | none => .finish (.error .noInstance)
  | .grow memory pages => onMemory memory "grow" (.grow pages)
  | .write memory address data => onMemory memory "write" (.write address (.bytes ⟨data.toArray⟩))

end Behaviour

namespace World

def note (place : Nat) (args : List HostValue) (w : World) : World :=
  match w.functions[place]? with
  | some f =>
    { w with
      functions := w.functions.setIfInBounds place { f with calls := f.calls + 1 }
      log := ⟨f.label, args⟩ :: w.log }
  | none => w

def host : Host World := fun place args =>
  .world (note place args) fun before =>
    match before.functions[place]? with
    | some f => f.behaviour.program (f.calls + 1) before args
    | none => .finish (.error .stuck)

/-- Calls a function of the host, which calls no exports. -/
def call (place : Nat) (args : List HostValue) : Action World HostValue :=
  Action.runHost (fun _ _ _ => throw .noInstance) (host place args)

/-- The outcome of an action, and the calls of host functions during it. -/
def recorded {α : Type} (a : Action World α) : Action World (Except Failure α × List LogEntry) := do
  let _ ← Action.changeWorld fun w => { w with log := [] }
  let outcome ← Action.outcome a
  let w ← Action.changeWorld fun w => { w with log := [] }
  pure (outcome, w.log.reverse)

end World

/-! ### Values -/

/-- A description of a host value, which may hold new functions and memories. -/
inductive Template where
  | value (v : HostValue)
  | array (items : List Template)
  | record (fields : List (String × Template))
  | function (label : String) (behaviour : Behaviour)
  | newMemory (initial maximum : HostValue)
  | namedMemory (name : String)
deriving Inhabited

namespace Template

def addFunction (f : HostFunction) : Action World Nat := do
  let before ← Action.changeWorld fun w => { w with functions := w.functions.push f }
  pure before.functions.size

def addMemory (initial maximum : HostValue) : Action World Nat := do
  let m ← Action.ofExcept id (LinearMemory.make initial maximum)
  Action.addMemory m

mutual
/-- The value that a template describes, with its functions and memories made. -/
def realise : Template → Action World HostValue
  | .value v => pure v
  | .array items => do
    let vs ← realiseAll items
    pure (.array vs)
  | .record fields => do
    let fs ← realiseFields fields
    pure (.record fs)
  | .function label behaviour => do
    let place ← addFunction { label, behaviour }
    pure (.function place behaviour.reply)
  | .newMemory initial maximum => do
    let place ← addMemory initial maximum
    Action.memoryValue place
  | .namedMemory name => do
    match (← get).world.memories.lookup name with
    | some place => Action.memoryValue place
    | none => pure .undefined

def realiseAll : List Template → Action World (List HostValue)
  | [] => pure []
  | t :: ts => do
    let v ← realise t
    let vs ← realiseAll ts
    pure (v :: vs)

def realiseFields : List (String × Template) → Action World (List (String × HostValue))
  | [] => pure []
  | (key, t) :: ts => do
    let v ← realise t
    let vs ← realiseFields ts
    pure ((key, v) :: vs)
end

end Template

end WasmScript.Scenario
