/-
  WasmScript/Scenario/Quote.lean
  ==============================
  **Quoting what a host has** — the literal of a value of a scenario.

  An object may say itself what stands for it: its `toJSON`, if that is a function, is
  called with the name under which the object is found, and what it gives is quoted
  instead.
-/
import WasmScript.Scenario.World
import WasmScript.Host.ScriptText

namespace WasmScript.Scenario

def representative (name : String) (v : HostValue) : Action World HostValue :=
  match v.field "toJSON" with
  | .function place _ => World.call place [.string name]
  | _ => pure v

/-- A value in which nothing is left to be asked; values are nested no deeper than a bound. -/
def spelledOut : (depth : Nat) → (name : String) → HostValue → Action World HostValue
  | 0, _, _ => throw .stackOverflow
  | depth + 1, name, v => do
    match ← representative name v with
    | .bigint _ => throw (.type .notJson)
    | .array items => do
      let items ← items.zipIdx.mapM fun (item, i) => spelledOut depth (toString i) item
      pure (.array items)
    | .record fields => do
      let fields ← fields.mapM fun (key, field) => do
        let field ← spelledOut depth key field
        pure (key, field)
      pure (.record fields)
    | v => pure v

/-- How deep values may be nested that are quoted. -/
def quoteDepth : Nat := 5000

def Template.quoted (t : Template) : Action World String := do
  let v ← spelledOut quoteDepth "" (← t.realise)
  Action.ofExcept .type v.quoted

end WasmScript.Scenario
