/-
  WasmScript/Fixture/Expected.lean
  ================================
  **Expectations of a host** — reading what a host expects of a call, and writing what
  may be expected from now on.

  A host may expect what no call can give, which is then simply not met.  It may also
  have something that is no expectation at all; comparing an outcome with that stops with
  an error, and `Flaw` says with which one.
-/
import WasmScript.Fixture.Basic

namespace WasmScript

/-- Why something is no expectation. -/
structure Flaw where
  /-- What stops a comparison with a value. -/
  onValue : Failure
  /-- What stops a comparison with any other outcome. -/
  otherwise : Failure
  /-- Whether also an instance that could not be created is compared. -/
  isEarly : Bool

namespace Flaw

def always (cause : TypeCause) : Flaw := ⟨.type cause, .type cause, true⟩

/-- The flaw that stops comparisons with what calls do. -/
def late (onValue otherwise : TypeCause) : Flaw := ⟨.type onValue, .type otherwise, false⟩

def failure (f : Flaw) : Outcome → Failure
  | .value _ => f.onValue
  | _ => f.otherwise

end Flaw

namespace Expectation

def itemText : HostValue → Except Failure String
  | .bigint n => .ok (Scalar.bigint n).text
  | other => other.toText

def valueOf : HostValue → Except Flaw Expectation
  | .number n => .ok (.value (.single (.number n)))
  | .bigint n => .ok (.value (.single (.bigint n)))
  | .array items =>
    match Scalar.ofHosts? items with
    | some vs => .ok (.value (.several vs))
    | none =>
      match items.mapM itemText with
      | .ok texts => .ok (.never ("value [" ++ ", ".intercalate texts ++ "]"))
      | .error e => .error ⟨e, e, false⟩
  | .bytes b =>
    .ok (.value (.several (b.data.toList.map fun x => .number (.ofInt x.toNat))))
  | .undefined => .error (.late (.noMembers "undefined" "length") (.noMembers "undefined" "map"))
  | .null => .error (.late (.noMembers "null" "length") (.noMembers "null" "map"))
  | _ => .error (.late (.notFunction "valuesOf(...).map") (.notFunction "valuesOf(...).map"))

def ofHost (v : HostValue) : Except Flaw Expectation := do
  let kind ← (v.get "kind").mapError Flaw.always
  match kind with
  | .string "value" => valueOf (v.field "value")
  | .string "trap" => pure (.trap (v.field "trap"))
  | .string "void" => pure .void
  | _ => pure (.never (text .void))

/-- The expectation that just one outcome meets, as a host has it; a failed run is nothing to
expect, and neither is what is no outcome. -/
def ofOutcome (v : HostValue) : Except Failure HostValue := do
  let kind ← (v.get "kind").mapError .type
  match kind with
  | .string "value" => pure (.record [("kind", kind), ("value", v.field "value")])
  | .string "trap" => pure (.record [("kind", kind), ("trap", v.field "trap")])
  | .string "void" => pure (.record [("kind", kind)])
  | .string "error" => do
    let message ← (v.field "message").toText
    throw (.thrown ("Reference run failed: " ++ message))
  | _ => pure .undefined

end Expectation

end WasmScript
