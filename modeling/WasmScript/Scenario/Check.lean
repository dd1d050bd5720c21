/-
  WasmScript/Scenario/Check.lean
  ==============================
  **Checking a module** — fixtures with hosts of their own, run against new instances.

  Each `Case` is a fixture and the imports that its instance is given; it starts from an
  empty store.  The instances come from generated scripts, from an engine, or are objects
  made up by the host, which `Members` describes.
-/
import WasmScript.Fixture.Expected
import WasmScript.Host.Convert
import WasmScript.Fixture.Run
import WasmScript.Scenario.World
import WasmScript.Run.Structured
import WasmScript.Run.Stack

namespace WasmScript.Scenario

/-- A fixture with what the host expects of it, and the imports of its instance. -/
structure Case where
  fixture : Fixture
  expect : HostValue := .undefined
  imports : Template := .record []
deriving Inhabited

/-- The bounds of a run: how deep calls may be nested, and how many turns a loop may make. -/
structure Bounds where
  depth : Nat := 2500
  turns : Nat := 1000000000000
deriving DecidableEq, Repr, Inhabited

def emptyStore : Store World := { world := {} }

/-- The result of an action that starts from the empty store. -/
def fromNothing {α : Type} (a : Action World α) : Except Failure α :=
  match a emptyStore with
  | .ok v _ => .ok v
  | .error e _ => .error e

/-! ### Instances -/

def createInstance (m : Machine World) (depth : Nat) (imports : Template) :
    Action World (Subject World) := do
  let imports ← imports.realise
  let place ← m.instantiate depth imports
  Subject.ofInstance m depth place

/-- Forgets with which signs the sizes of the memories were asked for. -/
def forgetSigns : Action World Unit := modify fun s =>
  { s with memories := s.memories.map fun m =>
      { m with negativePages := false, negativeMaximum := false } }

/-- A new instance in an engine, which is lent copies of the memories of the host. -/
def createInEngine (m : Machine World) (depth : Nat) (imports : Template) :
    Action World (Subject World) := do
  let imports ← imports.realise
  forgetSigns
  let place ← m.instantiate depth imports
  Subject.ofEngine m depth place

/-! ### Made-up instances -/

/-- How an instance is made up: some members, or a function that fails instead. -/
inductive Members where
  | throws (behaviour : Behaviour)
  | fields (list : List (String × Template))
deriving Inhabited

def firstMemory : List HostValue → Option Nat
  | [] => none
  | .memory place .. :: _ => some place
  | _ :: rest => firstMemory rest

/-- Calls what a made-up instance has under a name, if that is a function; like every object it has
some functions anyway. -/
def callMember (fields : List (String × HostValue)) (name : String) (args : List HostValue) :
    Action World HostValue :=
  match fields.lookup name, HostValue.inheritedByAll name with
  | some (.function place _), _ => World.call place args
  | none, some (.builtin function) => Action.ofExcept id (HostValue.callBuiltin function args)
  | _, _ => throw (.noExportedFunction name)

/-- A made-up instance.  Its functions take their arguments as they are. -/
def makeUp : Members → Action World (Subject World)
  | .throws behaviour => do
    let place ← Template.addFunction { label := "", behaviour }
    let _ ← World.call place []
    throw .stuck
  | .fields list => do
    let fields ← Template.realiseFields list
    let memory := firstMemory (fields.map Prod.snd)
    pure (Subject.ofMemory memory (callMember fields))

/-! ### Reports -/

/-- The report on a case.  Comparing an outcome with what is no expectation fails. -/
def runCase (create : Action World (Subject World)) (c : Case) : Action World FixtureResult := do
  match Expectation.ofHost c.expect with
  | .ok e => Fixture.run create { c.fixture with expect := e }
  | .error flaw => do
    match ← Action.outcome create with
    | .error e =>
      if flaw.isEarly then throw flaw.onValue
      else pure ({ c.fixture with expect := .never "" }.reportUncreated e)
    | .ok s => do
      let o ← c.fixture.execute s
      throw (flaw.failure o)

/-- Makes sure that the imports of all cases can be made. -/
def checkImports (cases : List Case) : Except Failure Unit :=
  cases.forM fun c => (fun _ => ()) <$> fromNothing c.imports.realise

/-- The report on some cases whose instances are made by generated scripts. -/
def verify (m : Module) (functions : Array IR.Function) (maxPages : Nat) (bounds : Bounds)
    (cases : List Case) : Except Failure Report := do
  checkImports cases
  let machine := IR.machine m functions World.host maxPages bounds.turns
  let results ← cases.mapM fun c =>
    fromNothing (runCase (createInstance machine bounds.depth c.imports) c)
  pure ⟨results⟩

def verifyMadeUp (members : Members) (cases : List Case) : Except Failure Report := do
  let results ← cases.mapM fun c => fromNothing (runCase (makeUp members) c)
  pure ⟨results⟩

def reference (m : Module) (bounds : Bounds) (cases : List Case) :
    Except Failure (List Outcome) := do
  checkImports cases
  let machine := Stack.machine m World.host .engine .exact LinearMemory.maxPages bounds.turns
  cases.mapM fun c =>
    fromNothing (c.fixture.reference (createInEngine machine bounds.depth c.imports))

end WasmScript.Scenario
