/-
  WasmScript/Host/ModuleQuery.lean
  ================================
  **Questions of a host about modules** — looking functions up in a module that a host
  has as an object, by any value as index.

  A host looks up what its object has under the text of a value, so an index need not be a
  number to name a function; it is compared and subtracted as a number all the same.  An
  export is one of a function only if its index is the same value.
-/
import WasmScript.Host.Convert

namespace WasmScript

namespace HostModule

/-- How many items the list under a name has. -/
def count (view : HostValue) (name : String) : Except Failure HostValue := do
  (← view.memberNamed name).memberNamed "length"

def functionCount (view : HostValue) : Except Failure HostValue := do
  let imports ← count view "imports"
  imports.plus (← count view "functions")

def typeAt (view index : HostValue) : Except Failure HostValue := do
  (← view.memberNamed "types").member index

/-- The type of a function, imported or defined. -/
def functionType (view index : HostValue) : Except Failure HostValue := do
  let imports ← view.memberNamed "imports"
  let length ← imports.memberNamed "length"
  if ← index.lt length then
    let types ← view.memberNamed "types"
    types.member (← (← imports.member index).memberNamed "typeIndex")
  else
    let functions ← view.memberNamed "functions"
    match ← functions.member (← index.minus length) with
    | .undefined => pure .undefined
    | typeIndex => typeAt view typeIndex

/-- The names of those exports that are of the function with an index. -/
def namesIn (index : HostValue) : List HostValue → Except Failure (List HostValue)
  | [] => pure []
  | e :: rest => do
    let kind ← e.memberNamed "kind"
    let found ← e.memberNamed "index"
    let names ← namesIn index rest
    if kind.same (.string ExportKind.function.name) && found.same index then
      pure ((← e.memberNamed "name") :: names)
    else pure names

/-- The names under which a function is exported, in the order of the exports. -/
def exportNames (view index : HostValue) : Except Failure (List HostValue) := do
  match ← view.memberNamed "exports" with
  | .array exports => namesIn index exports
  | other => do
    let _ ← other.memberNamed "filter"
    throw (.type (.notFunction "module.exports.filter"))

end HostModule

end WasmScript
