/-
  WasmScript/Host/Value.lean
  ==========================
  **Host values** — what crosses the boundary between a host and a module.

  A host may pass anything: nothing, numbers, texts, lists, objects, bytes.  Functions and
  memories are references into the store.  `HostValue.text` is how a value reads as a
  text, and `HostValue.field` what an object itself has under a name.

  Besides what it has itself every object of a host has some members anyway, and a list
  has more; `HostValue.inherited` says which.
-/
import WasmScript.Json.Basic
import WasmScript.Module.Basic
import WasmScript.Text.Units

namespace WasmScript

/-- What a function of the host does when it is called with nothing, as far as that is the same
every time. -/
inductive Reply (α : Type) where
  | returns (v : α)
  | traps (kind : α)
  | throws (message : String)
  /-- The call stack of the host is exhausted. -/
  | exhausts
  /-- A member of nothing is asked for. -/
  | misses (key : String)
deriving Inhabited

inductive HostValue where
  | undefined
  | null
  | bool (b : Bool)
  | number (n : Number)
  | bigint (n : Int)
  | string (s : String)
  | array (items : List HostValue)
  | record (fields : List (String × HostValue))
  | bytes (b : ByteArray)
  /-- The memory with a place in the store; how many pages it had when the host got hold of it, and
  the most that it may have. -/
  | memory (place : Nat) (pages maximum : Number)
  /-- The function with a place among the host functions. -/
  | function (place : Nat) (reply : Reply HostValue)
  /-- A function that is part of the host itself, by its name. -/
  | builtin (name : String)

namespace HostValue

instance : Inhabited HostValue := ⟨.undefined⟩

def isObject : HostValue → Bool
  | .undefined | .null | .bool _ | .number _ | .bigint _ | .string _ => false
  | _ => true

def typeName : HostValue → String
  | .undefined => "undefined"
  | .bool _ => "boolean"
  | .number _ => "number"
  | .bigint _ => "bigint"
  | .string _ => "string"
  | .function .. | .builtin _ => "function"
  | .null | .array _ | .record _ | .bytes _ | .memory .. => "object"

def description : HostValue → String
  | .number n => "number " ++ n.text
  | .bigint n => "bigint " ++ toString n
  | other => other.typeName

mutual
/-- A value as text; every object reads alike. -/
def text : HostValue → String
  | .undefined => "undefined"
  | .null => "null"
  | .bool b => if b then "true" else "false"
  | .number n => n.text
  | .bigint n => toString n
  | .string s => s
  | .array items => ",".intercalate (itemTexts items)
  | .bytes b => ",".intercalate (b.data.toList.map fun x => toString x.toNat)
  | .record _ | .memory .. => "[object Object]"
  | .function .. => "function"
  | .builtin name => "function " ++ name ++ "() \x7b [native code] \x7d"

/-- The texts of the items of an array; an item that is nothing has no text. -/
def itemTexts : List HostValue → List String
  | [] => []
  | item :: rest =>
    (match item with
      | .undefined | .null => ""
      | other => text other) :: itemTexts rest
end

/-- A value of a module, as the host sees it. -/
def ofValue : Value → HostValue
  | .i32 n => .number (.ofInt n)
  | .i64 n => .bigint n

/-- What a call gives back: nothing, its only result, or an array of its results. -/
def ofResults : List HostValue → HostValue
  | [] => .undefined
  | [v] => v
  | vs => .array vs

/-! ### Members -/

def field (key : String) : HostValue → HostValue
  | .record fields => ((fields.find? fun f => f.1 == key).map Prod.snd).getD .undefined
  | .array items =>
    if key = "length" then .number (.ofInt items.length)
    else ((Json.index? key).bind fun i => items[i]?).getD .undefined
  | .bytes b =>
    ((Json.index? key).bind fun i => b.data[i]?).elim .undefined fun x => .number (.ofInt x.toNat)
  | .memory _ _ maximum => if key = "maximum" then .number maximum else .undefined
  | _ => .undefined

def hasField (key : String) : HostValue → Bool
  | .record fields => fields.any fun f => f.1 == key
  | _ => false

def objectFunctions : List String :=
  ["__defineGetter__", "__defineSetter__", "hasOwnProperty", "__lookupGetter__", "__lookupSetter__",
   "isPrototypeOf", "propertyIsEnumerable", "toString", "valueOf", "toLocaleString"]

def listFunctions : List String :=
  ["at", "concat", "copyWithin", "fill", "find", "findIndex", "findLast", "findLastIndex",
   "lastIndexOf", "pop", "push", "reverse", "shift", "unshift", "slice", "sort", "splice",
   "includes", "indexOf", "join", "keys", "entries", "values", "forEach", "filter", "flat",
   "flatMap", "map", "every", "some", "reduce", "reduceRight", "toReversed", "toSorted",
   "toSpliced", "with"]

/-- What every object has under a name, if there is anything. -/
def inheritedByAll (key : String) : Option HostValue :=
  if objectFunctions.contains key then some (.builtin key)
  else if key = "constructor" then some (.builtin "Object")
  else if key = "__proto__" then some (.record [])
  else none

/-- What a value has under a name without having it itself. -/
def inherited (key : String) (v : HostValue) : HostValue :=
  match v with
  | .array _ =>
    if listFunctions.contains key then .builtin key
    else if key = "constructor" then .builtin "Array"
    else if key = "__proto__" then .array []
    else (inheritedByAll key).getD .undefined
  | _ => (inheritedByAll key).getD .undefined

end HostValue

end WasmScript
