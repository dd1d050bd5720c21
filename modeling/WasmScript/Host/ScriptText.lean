/-
  WasmScript/Host/ScriptText.lean
  ===============================
  **Pieces of scripts for host values** — literals and types of whatever a host asks for.

  A value that is no text is quoted as JSON: what JSON does not have is left out of an
  object, is `null` in a list and cannot be quoted by itself.  A type is asked for by its
  name, and a name that no type has is refused, unless it is one that every object of a
  host has anyway.
-/
import WasmScript.Host.Convert
import WasmScript.Script.Declarations

namespace WasmScript.HostValue

/-! ### Literals -/

mutual
def literal? : HostValue → Except TypeCause (Option String)
  | .undefined | .function .. | .builtin _ => .ok none
  | .null => .ok (some "null")
  | .bool b => .ok (some (if b then "true" else "false"))
  | .number (.finite negative m e) => .ok (some (Number.finite negative m e).text)
  | .number _ => .ok (some "null")
  | .bigint _ => .error .notJson
  | .string s => .ok (some (Quoted.encode s))
  | .array items => do
    let texts ← itemLiterals items
    pure (some ("[" ++ ",".intercalate texts ++ "]"))
  | .record fields => do
    let texts ← fieldLiterals fields
    pure (some ("\x7b" ++ ",".intercalate texts ++ "\x7d"))
  | .bytes b =>
    let texts := b.data.toList.zipIdx.map fun (x, i) => s!"\"{i}\":" ++ toString x.toNat
    .ok (some ("\x7b" ++ ",".intercalate texts ++ "\x7d"))
  | .memory _ _ maximum => .ok (some ("\x7b\"maximum\":" ++ maximum.text ++ "\x7d"))

def itemLiterals : List HostValue → Except TypeCause (List String)
  | [] => .ok []
  | v :: rest => do
    let text ← literal? v
    let texts ← itemLiterals rest
    pure (text.getD "null" :: texts)

def fieldLiterals : List (String × HostValue) → Except TypeCause (List String)
  | [] => .ok []
  | (key, v) :: rest => do
    let text ← literal? v
    let texts ← fieldLiterals rest
    pure (text.toList.map (fun t => Quoted.encode key ++ ":" ++ t) ++ texts)
end

def quoted (v : HostValue) : Except TypeCause String := do
  match ← v.literal? with
  | some text => pure text
  | none => throw (.noMembers "undefined" "replace")

/-! ### Types -/

/-- What a table says about the type that a value names, in its column with a certain name. -/
def aboutType (column : String) (say : ValueType → String) (v : HostValue) :
    Except Failure HostValue := do
  let name ← v.toText
  match ValueType.ofName? name with
  | some type => pure (.string (say type))
  | none =>
    if (inheritedByAll name).isSome then pure .undefined
    else throw (.type (.noMembers "undefined" column))

def hostType (v : HostValue) : Except Failure HostValue := aboutType "tsType" Script.hostType v

def zeroText (v : HostValue) : Except Failure HostValue := aboutType "zero" Script.zeroText v

/-- The host's type of some results: nothing, one value, or a tuple. -/
def resultType (v : HostValue) : Except Failure HostValue := do
  let length ← v.memberNamed "length"
  if length.isNumber (.ofInt 0) then pure (.string (Script.resultType []))
  else
    match v.listItems with
    | [type] => hostType type
    | types => do
      let texts ← types.mapM hostType
      let texts ← texts.mapM optionalText
      pure (.string (Script.bracketed texts))

end WasmScript.HostValue
