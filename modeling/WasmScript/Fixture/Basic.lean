/-
  WasmScript/Fixture/Basic.lean
  =============================
  **Fixtures** — one call of an exported function with what is expected of it.

  A `Fixture` says which bytes are written first, which export is called with which
  arguments, what outcome is expected, and which bytes are expected in memory afterwards.
  `Outcome.matches` compares an outcome with an expectation: values are equal if they are
  of one kind and equal as numbers; a lone value and a list of one value are not told
  apart.
-/
import WasmScript.Host.Convert
import WasmScript.Text.Hex

namespace WasmScript

/-- What a call gives: one value, or a list of values. -/
inductive Payload where
  | single (v : Scalar)
  | several (vs : List Scalar)
deriving DecidableEq, Repr, Inhabited

namespace Payload

def toList : Payload → List Scalar
  | .single v => [v]
  | .several vs => vs

def text : Payload → String
  | .single v => v.text
  | .several vs => "[" ++ ", ".intercalate (vs.map Scalar.text) ++ "]"

/-- Whether two lists of values agree value by value. -/
def same (a b : Payload) : Bool :=
  a.toList.length == b.toList.length && (a.toList.zip b.toList).all fun (x, y) => x.same y

end Payload

inductive Expectation where
  | value (v : Payload)
  /-- A trap of a kind; of any kind if that is undefined. -/
  | trap (kind : HostValue)
  | void
  /-- Something that no outcome meets. -/
  | never (text : String)
deriving Inhabited

namespace Expectation

def text : Expectation → String
  | .value v => "value " ++ v.text
  | .trap kind =>
    "trap " ++ (match kind with
      | .undefined | .null => "(any)"
      | kind => kind.text)
  | .void => "void"
  | .never text => text

end Expectation

inductive Outcome where
  | value (v : Payload)
  | void
  | trap (kind : HostValue)
  /-- A failure that is no trap. -/
  | error (message : String)
deriving Inhabited

namespace Outcome

def text : Outcome → String
  | .value v => "value " ++ v.text
  | .void => "void"
  | .trap kind => "trap " ++ kind.text
  | .error message => "error: " ++ message

def ofUncreated (e : Failure) : Outcome := e.trap?.elim (.error e.message) .trap

/-- The outcome of a call that failed; a trap whose kind is nothing does not count as one. -/
def ofFailure (e : Failure) : Outcome :=
  match e.trap? with
  | some .undefined | none => .error e.message
  | some kind => .trap kind

/-- The outcome of a call that returned what no code returns. -/
def ofUnexpected (v : HostValue) : Outcome :=
  match v.toText with
  | .ok text => .error ("Unexpected result " ++ text)
  | .error e => ofFailure e

def ofReturned (v : HostValue) : Outcome :=
  match v with
  | .undefined => .void
  | .array items => (Scalar.ofHosts? items).elim (ofUnexpected v) fun vs => .value (.several vs)
  | other => (Scalar.ofHost? other).elim (ofUnexpected v) fun v => .value (.single v)

def ofResult : Except Failure HostValue → Outcome
  | .ok v => ofReturned v
  | .error e => ofFailure e

def «matches» : Outcome → Expectation → Bool
  | .void, .void => true
  | .trap _, .trap .undefined => true
  | .trap found, .trap kind => kind.same found
  | .value a, .value b => a.same b
  | _, _ => false

end Outcome

structure MemoryBytes where
  address : HostValue
  bytes : List UInt8
deriving Inhabited

structure Fixture where
  /-- The name in reports; that of the export if there is none. -/
  name : HostValue := .undefined
  exportName : HostValue
  args : List HostValue
  /-- Written to the memory before the call. -/
  memory : List MemoryBytes := []
  expect : Expectation
  /-- Expected in the memory after the call. -/
  memoryAfter : List MemoryBytes := []
deriving Inhabited

namespace Fixture

def title (f : Fixture) : HostValue :=
  match f.name with
  | .undefined | .null => f.exportName
  | name => name

end Fixture

structure FixtureResult where
  name : HostValue
  outcome : Outcome
  passed : Bool
  failures : List String
deriving Inhabited

end WasmScript
