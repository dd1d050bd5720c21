/-
  WasmScript/Host/Generate.lean
  =============================
  **Scripts for a host** — the script of a module and of some functions that a host has as
  objects.

  The parts are written in the order in which a script has them, and whatever a part reads
  as stands in the script.  The first thing that cannot be written decides why there is no
  script.  `transpileFor` starts from the bytes instead, so that only the options can be
  odd.
-/
import WasmScript.Host.ModuleQuery
import WasmScript.Host.NodeScript
import WasmScript.Host.Options

namespace WasmScript

namespace HostModule

open HostNode (Writing joined)

def literal (v : HostValue) : Except Failure String := v.quoted.mapError .type

def literalOf (v : HostValue) (name : String) : Except Failure String := do
  literal (← v.memberNamed name)

/-- The items of a list of a module that is gone through in a certain way. -/
def partsOf (module : HostValue) (name : String) : Except Failure (List HostValue) :=
  HostNode.listOf module "ctx.module" name "forEach"

/-! ### Imports and the memory -/

def typeLiterals (types : HostValue) : Except Failure String := do
  match types with
  | .array types => do
    let literals ← types.mapM literal
    pure ("[" ++ ", ".intercalate literals ++ "]")
  | other => throw (other.noList "types" "map")

/-- The line that binds an import; there is none if its type does not exist. -/
def importLine (module entry : HostValue) (index : Nat) : Except Failure Writing := do
  let types ← module.memberNamed "types"
  match ← types.member (← entry.memberNamed "typeIndex") with
  | .undefined => pure id
  | type => do
    let source ← literalOf entry "module"
    let field ← literalOf entry "name"
    let params ← typeLiterals (← type.memberNamed "params")
    let results ← typeLiterals (← type.memberNamed "results")
    pure (Sheet.line
        ("const " ++ Script.functionName index ++ " = rt.bindImport(imports, " ++ source
      ++ ", " ++ field ++ ", " ++ params ++ ", " ++ results ++ ");"))

/-- The parts of an object, which must be there to be taken apart. -/
def parts (what : String) (names : List String) (v : HostValue) :
    Except Failure (List HostValue) :=
  match v, names with
  | .undefined, name :: _ => throw (.type (.noParts name what "undefined"))
  | .null, name :: _ => throw (.type (.noParts name what "null"))
  | v, names => names.mapM v.memberNamed

/-- The line that makes or borrows the memory of a module, if it has one.  A lent memory keeps its
own maximum. -/
def memoryLine (module maxPages : HostValue) : Except Failure Writing := do
  match ← module.memberNamed "memory" with
  | .undefined => pure id
  | memory => do
    let limits ← parts "module.memory" ["initial", "maximum"] memory
    let initial := limits[0]?.getD .undefined
    let maximum := limits[1]?.getD .undefined
    match ← module.memberNamed "memoryImport" with
    | .undefined => do
      let limit ← match maximum with
        | .undefined | .null => initial.max maxPages
        | maximum => pure maximum
      let initial ← initial.toText
      let limit ← limit.toText
      pure (Sheet.line ("const memory = new rt.LinearMemory(" ++ initial ++ ", " ++ limit ++ ");"))
    | source => do
      let place ← literalOf source "module"
      let field ← literalOf source "name"
      let initial ← initial.toText
      let most ← match maximum with
        | .undefined => pure ""
        | maximum => (", " ++ ·) <$> maximum.toText
      pure (Sheet.line ("const memory = rt.bindMemory(imports, " ++ place ++ ", " ++ field ++ ", "
        ++ initial ++ most ++ ");"))

/-! ### Globals, functions and data -/

def globalLine (g : HostValue) (index : Nat) : Except Failure Writing := do
  let init := (← parts "global" ["init"] g).headD .undefined
  let suffix := if (← init.memberNamed "kind").same (.string "i32.const") then "" else "n"
  let value ← (← init.memberNamed "value").toText
  let keyword := if (← g.memberNamed "mutable").truthy then "let " else "const "
  pure (Sheet.line (keyword ++ s!"g{index} = " ++ value ++ suffix ++ ";"))

/-- Functions in the order of their indices, those that are nothing last. -/
def inOrder (functions : List HostValue) : Except Failure (List HostValue) := do
  let (missing, present) := functions.partition fun f => f.same .undefined
  if present.length < 2 then pure (present ++ missing)
  else do
    let keyed ← present.mapM fun f => do pure (← (← f.memberNamed "index").toOperand, f)
    pure ((keyed.mergeSort fun a b => !b.1.lt a.1).map Prod.snd ++ missing)

/-- The items that a value is a list of, be it only by its length.  One that is missing ends the
list that matters, for nothing can be made of it. -/
def listedItems (v : HostValue) : Except Failure (List HostValue) := do
  match v.iterate?, v with
  | some items, _ => pure items
  | none, .undefined => throw (.type (.notIterable "undefined"))
  | none, .null => throw (.type (.notIterable "object null"))
  | none, .record fields => do
    let length ← (v.field "length").toNumber
    let count := min length.truncated.toNat (fields.length + 1)
    pure ((List.range count).map fun i => v.field (toString i))
  | none, _ => pure []

/-- The digits of a byte, at least two. -/
def byteDigits (b : HostValue) : Except Failure String := do
  match ← b.inHex "b" with
  | .string digits => pure (String.ofList (List.replicate (2 - Units.count digits) '0') ++ digits)
  | other => throw (other.noList "b.toString(...)" "padStart")

def digitsOf (bytes : HostValue) : Except Failure String := do
  pure (String.join (← (← listedItems bytes).mapM byteDigits))

def dataLine (segment : HostValue) : Except Failure String := do
  let offset ← (← segment.memberNamed "offset").toText
  let digits ← digitsOf (← segment.memberNamed "bytes")
  pure ("memory.initData(" ++ offset ++ ", rt.hexToBytes(" ++ Quoted.encode digits ++ "));")

/-- The data segments in order, and the call of the start function. -/
def startLines (module : HostValue) : Except Failure Writing := do
  let data ← module.memberNamed "data"
  let none ← HostNode.hasLength data 0
  let start ← module.memberNamed "start"
  if none && start.same .undefined then pure id
  else do
    let lines ← (← data.itemsOf "ctx.module.data").mapM dataLine
    let calls ← if start.same .undefined then pure []
      else (fun start => ["f" ++ start ++ "();"]) <$> start.toText
    pure fun s => s.separate.each (lines ++ calls) Sheet.line

/-! ### Exports -/

def coerced (type : HostValue) (i : Nat) : Except Failure String := do
  let name ← (← type.aboutType "coercion" Script.coercionName).toText
  pure ("rt." ++ name ++ s!"(a{i})")

/-- The line that hands out a member, if there is one. -/
def memberLine (module entry : HostValue) : Except Failure Writing := do
  let key ← literalOf entry "name"
  let index ← entry.memberNamed "index"
  match ← entry.memberNamed "kind" with
  | .string "function" =>
    match ← functionType module index with
    | .undefined => pure id
    | type => do
      let params ← HostNode.listOf type "type" "params" "map"
      let names := (List.range params.length).map fun i => s!"a{i}"
      let args ← params.zipIdx.mapM fun (type, i) => coerced type i
      let index ← index.toText
      pure (Sheet.line ("exports[" ++ key ++ "] = (" ++ ", ".intercalate names ++ ") => f"
        ++ index ++ "(" ++ ", ".intercalate args ++ ");"))
  | .string "memory" => pure (Sheet.line ("exports[" ++ key ++ "] = memory;"))
  | .string "global" =>
    let index ← index.toText
    pure (Sheet.line ("Object.defineProperty(exports, " ++ key ++ ", \x7bget: () => g" ++ index
      ++ ", enumerable: true\x7d);"))
  | _ => pure id

/-! ### Scripts -/

def inTurn (writings : List Writing) : Writing := fun s => s.each writings fun w => w

/-- The body of `instantiate`. -/
def instantiation (module : HostValue) (functions : List HostValue) (maxPages : HostValue) :
    Except Failure Writing := do
  let imports ← (← partsOf module "imports").zipIdx.mapM fun (entry, i) => importLine module entry i
  let memory ← memoryLine module maxPages
  let globals ← (← partsOf module "globals").zipIdx.mapM fun (g, i) => globalLine g i
  let functions ← functions.mapM HostNode.function
  let start ← startLines module
  let exports ← (← module.memberNamed "exports").itemsOf "ctx.module.exports"
  let members ← exports.mapM (memberLine module)
  pure fun s =>
    let s := inTurn globals (memory (inTurn imports s))
    let s := s.each functions fun f s => f s.separate
    let s := (start s).separate.line "const exports = Object.create(null);"
    (inTurn members s).line "return Object.freeze(exports);"

def generate (module functions : HostValue) (o : HostScriptOptions) : Except Failure String := do
  let functions ← inOrder (← functions.itemsOf "functions")
  let helpers ← match o.format with
    | .esm => o.helpers
    | .factory => pure ""
  let body ← instantiation module functions o.maxPages
  pure (Script.Program.writeAround o.format helpers body .blank).text

end HostModule

/-! ### From the bytes -/

def declareFor (m : Module) (helpers : Except Failure String) : Except Failure String := do
  let d := Script.Declarations.ofModule m {}
  let helpers ← if d.mentionsMemory then helpers else pure ""
  pure (d.textWith helpers)

/-- The script of the bytes of a module, and its type declarations. -/
def transpileFor (bytes : ByteArray) (o : TranspileOptions) (helpers : Except Failure String) :
    Except GenerateError (String × Option String) := do
  let c ← (check bytes o).mapError .transpile
  let written ← match o.format with
    | .esm => helpers.mapError .value
    | .factory => pure ""
  let p ← (Script.Program.ofModule c.module c.functions c.options).mapError .form
  let code := p.textWith written (p.memory.map Script.Program.memoryLine)
  if o.declarations then pure (code, some (← (declareFor c.module helpers).mapError .value))
  else pure (code, none)

end WasmScript
