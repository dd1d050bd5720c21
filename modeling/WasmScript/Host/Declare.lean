/-
  WasmScript/Host/Declare.lean
  ============================
  **Declarations for a host** — the type declarations of a module that a host has as an
  object.

  The imports are grouped by what they are said to come from, in the order in which it is
  first mentioned.  The first thing that cannot be written decides why there are no
  declarations.
-/
import WasmScript.Host.Generate

namespace WasmScript.HostModule

open HostNode (Writing sameKey)

def parameterList (params : List HostValue) : Except Failure String := do
  let types ← params.mapM HostValue.hostType
  let types ← types.zipIdx.mapM fun (type, i) => (s!"a{i}: " ++ ·) <$> type.toText
  pure (", ".intercalate types)

/-- What takes parameters and gives results, after its name. -/
def signature (type : HostValue) : Except Failure String := do
  let params ← parameterList (← HostNode.listOf type "type" "params" "map")
  let results ← (← (← type.memberNamed "results").resultType).toText
  pure ("(" ++ params ++ "): " ++ results ++ ";")

def exportLine (module entry : HostValue) : Except Failure Writing := do
  let name ← literalOf entry "name"
  let index ← entry.memberNamed "index"
  match ← entry.memberNamed "kind" with
  | .string "function" =>
    match ← functionType module index with
    | .undefined => pure id
    | type => do
      let declared ← signature type
      pure (Sheet.line (name ++ declared))
  | .string "memory" => pure (Sheet.line ("readonly " ++ name ++ ": LinearMemory;"))
  | .string "global" =>
    match ← (← module.memberNamed "globals").member index with
    | .undefined => pure id
    | g => do
      let type ← (← (← g.memberNamed "type").hostType).toText
      pure (Sheet.line ("readonly " ++ name ++ ": " ++ type ++ ";"))
  | _ => pure id

/-- The lines of imports, by what they come from. -/
abbrev ImportGroups := List (HostValue × List String)

/-- Adds a line to a group, which is opened if it is not there. -/
def addTo (source : HostValue) (line : String) : ImportGroups → ImportGroups
  | [] => [(source, [line])]
  | (other, lines) :: rest =>
    if sameKey other source then (other, lines ++ [line]) :: rest
    else (other, lines) :: addTo source line rest

/-- The imported functions whose type exists, added to the groups. -/
def addImports (module : HostValue) : List HostValue → ImportGroups → Except Failure ImportGroups
  | [], groups => pure groups
  | entry :: rest, groups => do
    let types ← module.memberNamed "types"
    match ← types.member (← entry.memberNamed "typeIndex") with
    | .undefined => addImports module rest groups
    | type => do
      let source ← entry.memberNamed "module"
      let name ← literalOf entry "name"
      let declared ← signature type
      addImports module rest (addTo source (name ++ declared) groups)

def addMemory (module : HostValue) (groups : ImportGroups) : Except Failure ImportGroups := do
  match ← module.memberNamed "memoryImport" with
  | .undefined => pure groups
  | place => do
    let found ← parts "module.memoryImport" ["module", "name"] place
    let name ← literal (found[1]?.getD .undefined)
    pure (addTo (found.headD .undefined) (name ++ ": LinearMemory;") groups)

/-- Whether one of some exports hands out the memory; those after it are not looked at. -/
def handsOutMemory : List HostValue → Except Failure Bool
  | [] => pure false
  | entry :: rest => do
    if (← entry.memberNamed "kind").same (.string ExportKind.memory.name) then pure true
    else handsOutMemory rest

def declare (module : HostValue) (helpers : Except Failure String) : Except Failure String := do
  let exports ← HostNode.listOf module "module" "exports" "some"
  let mentioned ← if ← handsOutMemory exports then pure true
    else pure !(← module.memberNamed "memoryImport").same .undefined
  let helpers ← if mentioned then some <$> helpers else pure none
  let members ← exports.mapM (exportLine module)
  let imports ← (← module.memberNamed "imports").itemsOf "module.imports"
  let groups ← addMemory module (← addImports module imports [])
  let groups ← groups.mapM fun (source, lines) => do
    pure (← literal source, fun s : Sheet => s.each lines Sheet.line)
  pure (Script.Declarations.writeParts helpers (inTurn members) groups .blank).text

end WasmScript.HostModule
