/-
  WasmScript/Host/Options.lean
  ============================
  **Options from host values** — what a host chooses about a script, read from an object
  with any values.

  What the object has under the name of an option replaces the default, even where that
  is nothing.  Every format but the one of a module stands for a function body.  The bound
  on pages of a transpilation must be a number of pages; that of a script by itself is
  whatever the host says.  The place of the helpers is written as it is quoted, whatever it
  is, and nothing can be written if it cannot be quoted.
-/
import WasmScript.Host.Convert
import WasmScript.Transpile

namespace WasmScript

namespace HostValue

/-- What an object has under a name, if it has the name. -/
def given? (name : String) : HostValue → Option HostValue
  | .record fields => fields.lookup name
  | _ => none

def toFormat (v : HostValue) : Script.Format :=
  match v with
  | .string name => (Script.Format.ofName? name).getD .factory
  | _ => .factory

end HostValue

/-- The literal of the place where scripts find their helpers unless something else is asked for. -/
def Script.defaultHelpers : String := Quoted.encode (Script.Options.runtimeSpecifier {})

/-- What a host chooses about a script by itself. -/
structure HostScriptOptions where
  format : Script.Format
  maxPages : HostValue
  /-- The literal of the place of the helpers. -/
  helpers : Except Failure String

/-- The options of a script that a host asks for, with the literal of the place of the helpers. -/
def HostScriptOptions.ofHost (helpers : Except Failure String) (v : HostValue) :
    HostScriptOptions :=
  let d : Script.Options := {}
  { format := (v.given? "format").elim d.format HostValue.toFormat
    maxPages := (v.given? "maxPages").getD (.ofNat d.maxPages)
    helpers }

/-- Why a host gets no script. -/
inductive GenerateError where
  | value (failure : Failure)
  | form (e : Script.FormError)
  | transpile (e : TranspileError)

/-- The options of a transpilation that a host asks for, apart from the place of the helpers. -/
def TranspileOptions.ofHost (v : HostValue) : Except GenerateError TranspileOptions := do
  let d : TranspileOptions := {}
  let maxPages ← match v.given? "maxPages" with
    | none => pure d.maxPages
    | some (.number n) => pure n
    | some other => do
      let found ← other.toText.mapError .value
      throw (.transpile (.maxPages found))
  pure
    { d with
      format := (v.given? "format").elim d.format HostValue.toFormat
      maxPages
      declarations := (v.given? "declarations").elim d.declarations HostValue.truthy }

end WasmScript
