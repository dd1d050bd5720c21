/-
  WasmScript/Fixture/Run.lean
  ===========================
  **Running fixtures** — checking an instance against what is expected of it.

  A `Subject` is what a fixture needs from an instance: ways to call its exports and to
  write and read its memory.  `Fixture.run` creates one, runs the fixture and reports every
  expectation that is not met; a failure to create one is an outcome as well.
  `Fixture.reference` gives the outcome alone, as an engine has it.
-/
import WasmScript.Fixture.Basic
import WasmScript.Run.Machine

namespace WasmScript

/-- What a fixture needs from an instance. -/
structure Subject (σ : Type) where
  call : String → List HostValue → Action σ HostValue
  /-- Writes bytes to the memory. -/
  write : MemoryBytes → Action σ Unit
  /-- As many bytes of the memory as are expected at some place. -/
  read : MemoryBytes → Action σ (List UInt8)

namespace Subject

variable {σ : Type}

/-- The place of a memory, if there is one. -/
def requireMemory : Option Nat → Action σ Nat
  | some place => pure place
  | none => throw .noMemory

def writeTo (memory : Option Nat) (b : MemoryBytes) : Action σ Unit := do
  let place ← requireMemory memory
  let _ ← Action.onMemory place (MemoryCall.perform (.write b.address (.bytes ⟨b.bytes.toArray⟩)))

/-- Writes bytes to a memory, at the number without its fraction that an address is used as. -/
def copyTo (memory : Option Nat) (b : MemoryBytes) : Action σ Unit := do
  let place ← requireMemory memory
  let m ← Action.ofOption (← get).memories[place]?
  let stop ← Action.ofExcept id (b.address.plus (.number (.ofInt b.bytes.length)))
  if ← Action.ofExcept id ((HostValue.number (.ofInt m.size)).lt stop) then
    throw (.trap .outOfBounds)
  match ← Action.ofExcept id b.address.toNumber with
  | .infinite _ => throw (.range .offset)
  | address => do
    let start := address.truncated
    if start < 0 ∨ (m.size : Int) < start + b.bytes.length then throw (.range .offset)
    Action.onMemory place (MemoryCall.lift (LinearMemory.write start ⟨b.bytes.toArray⟩))

def readFrom (memory : Option Nat) (b : MemoryBytes) : Action σ (List UInt8) := do
  let place ← requireMemory memory
  let length : Number := .ofInt b.bytes.length
  match ← Action.onMemory place (MemoryCall.perform (.read b.address (.number length))) with
  | .bytes found => pure found.data.toList
  | _ => pure []

def ofMemory (memory : Option Nat) (call : String → List HostValue → Action σ HostValue) :
    Subject σ :=
  ⟨call, writeTo memory, readFrom memory⟩

def ofInstance (m : Machine σ) (depth place : Nat) : Action σ (Subject σ) := do
  let memory ← m.exportedMemory place
  pure <| ofMemory memory fun name args =>
    match m.module.exports.find? fun e => e.name == name with
    | some ⟨_, .function, _⟩ => m.callExport depth place name args
    | _ => throw (.noExportedFunction name)

def ofEngine (m : Machine σ) (depth place : Nat) : Action σ (Subject σ) := do
  let memory ← m.exportedMemory place
  let s ← ofInstance m depth place
  pure { s with write := copyTo memory }

end Subject

namespace Fixture

variable {σ : Type}

def prepare (s : Subject σ) : List MemoryBytes → Action σ Unit
  | [] => pure ()
  | b :: rest => do
    s.write b
    prepare s rest

def execute (f : Fixture) (s : Subject σ) : Action σ Outcome := do
  let result ← Action.outcome (do
    prepare s f.memory
    s.call f.exportName.text f.args)
  pure (.ofResult result)

def checkOutcome (f : Fixture) (o : Outcome) : List String :=
  if o.matches f.expect then [] else ["expected " ++ f.expect.text ++ ", got " ++ o.text]

/-- What is wrong with some bytes of the memory, which are compared as they are shown. -/
def checkBytes (s : Subject σ) (b : MemoryBytes) : Action σ (List String) := do
  let place := "memory at " ++ b.address.text
  match ← Action.outcome (s.read b) with
  | .error e => pure [place ++ " unreadable: " ++ e.message]
  | .ok found =>
    let got := Hex.ofBytesSpaced found
    let wanted := Hex.ofBytesSpaced b.bytes
    if got = wanted then pure []
    else pure [place ++ ": expected " ++ wanted ++ ", got " ++ got]

def checkMemory (s : Subject σ) : List MemoryBytes → Action σ (List String)
  | [] => pure []
  | b :: rest => do
    let here ← checkBytes s b
    let there ← checkMemory s rest
    pure (here ++ there)

/-- The report on a fixture whose instance could not be created. -/
def reportUncreated (f : Fixture) (e : Failure) : FixtureResult :=
  let outcome := Outcome.ofUncreated e
  let passed := outcome.matches f.expect
  { name := f.title
    outcome
    passed
    failures := if passed then [] else ["instantiation failed: " ++ outcome.text] }

/-- The report on a fixture that is run against an instance. -/
def check (f : Fixture) (s : Subject σ) : Action σ FixtureResult := do
  let outcome ← f.execute s
  let wrongMemory ← checkMemory s f.memoryAfter
  let failures := f.checkOutcome outcome ++ wrongMemory
  pure { name := f.title, outcome, passed := failures.isEmpty, failures }

def run (create : Action σ (Subject σ)) (f : Fixture) : Action σ FixtureResult := do
  match ← Action.outcome create with
  | .error e => pure (f.reportUncreated e)
  | .ok s => f.check s

def reference (create : Action σ (Subject σ)) (f : Fixture) : Action σ Outcome := do
  match ← Action.outcome create with
  | .error e => pure (.ofFailure e)
  | .ok s => f.execute s

end Fixture

/-- The results of some fixtures, and how many passed. -/
structure Report where
  results : List FixtureResult
deriving Inhabited

namespace Report

def passed (r : Report) : Nat := r.results.countP FixtureResult.passed

def failed (r : Report) : Nat := r.results.length - r.passed

end Report

end WasmScript
