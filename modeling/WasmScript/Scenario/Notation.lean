/-
  WasmScript/Scenario/Notation.lean
  =================================
  **Host values as JSON** — how scenarios write down the values of a host.

  JSON values stand for themselves.  What JSON does not have is an object with a single
  key, which begins with a dollar sign and names it: `$num` a number that has no JSON
  text, `$big` a big integer, `$hex` bytes, `$undefined` nothing, `$memory` a memory and
  `$fn` a host function.  An answer shows a memory with its sizes.
-/
import WasmScript.Scenario.World
import WasmScript.Text.Hex

namespace WasmScript

/-! ### Plain values -/

namespace HostValue

mutual
def ofJson : Json → HostValue
  | .null => .null
  | .bool b => .bool b
  | .number n => .number n
  | .string s => .string s
  | .array items => .array (ofJsonItems items)
  | .object members => .record (ofJsonMembers members)

def ofJsonItems : List Json → List HostValue
  | [] => []
  | item :: rest => ofJson item :: ofJsonItems rest

def ofJsonMembers : List (String × Json) → List (String × HostValue)
  | [] => []
  | (key, value) :: rest => (key, ofJson value) :: ofJsonMembers rest
end

end HostValue

namespace Scenario

/-- The bytes that a text of digits stands for; none if it is no such text. -/
def bytesOf (digits : String) : List UInt8 := (Hex.toBytes? digits).getD []

/-! ### Reading -/

namespace Template

mutual
/-- A value that holds no new functions or memories of its own. -/
def plain : Template → HostValue
  | .value v => v
  | .array items => .array (plainItems items)
  | .record fields => .record (plainFields fields)
  | .function _ behaviour => .function 0 behaviour.reply
  | .newMemory initial maximum =>
    match LinearMemory.make initial maximum with
    | .ok m => .memory 0 m.pagesNumber m.maximumNumber
    | .error _ => .undefined
  | .namedMemory _ => .undefined

def plainItems : List Template → List HostValue
  | [] => []
  | item :: rest => plain item :: plainItems rest

def plainFields : List (String × Template) → List (String × HostValue)
  | [] => []
  | (key, t) :: rest => (key, plain t) :: plainFields rest
end

/-- What a host function does, from its description. -/
def behaviour (spec : List (String × HostValue)) : Behaviour :=
  let part (key : String) : HostValue := (HostValue.record spec).field key
  let text (key : String) : String := (part key).text
  match text "do" with
  | "const" => .const (part "value")
  | "arg" => .arg (text "index")
  | "args" => .args
  | "add" => .add
  | "count" => .count
  | "trap" => .trap (part "trap")
  | "throw" =>
    .throw (match part "message" with
      | .undefined => ""
      | message => message.text)
  | "overflow" => .overflow
  | "call" =>
    .call (match part "instance" with
      | .undefined => "a"
      | target => target.text) (text "export")
  | "grow" => .grow (text "memory") (part "pages")
  | _ => .write (text "memory") (part "address") (bytesOf (text "hex"))

def ofFunction (spec : List (String × HostValue)) : Template :=
  let label := match (HostValue.record spec).field "name" with
    | .undefined | .null => (HostValue.record spec).field "do"
    | name => name
  .function label.text (behaviour spec)

/-- The value that an object with a single key stands for, given that key, the value under it and
what that value stands for by itself. -/
def ofMark (key : String) (raw : Json) (t : Template) : Template :=
  match key, raw with
  | "$num", .string s => .value (.number (Numeral.toNumber s))
  | "$big", .string s => .value (.bigint ((Numeral.toInteger? s).getD 0))
  | "$undefined", _ => .value .undefined
  | "$hex", .string s => .value (.bytes ⟨(bytesOf s).toArray⟩)
  | "$memory", .string name => .namedMemory name
  | "$memory", .array sizes =>
    let sizes := HostValue.ofJsonItems sizes
    .newMemory (sizes[0]?.getD .undefined) (sizes[1]?.getD .undefined)
  | "$fn", _ =>
    match plain t with
    | .record spec => ofFunction spec
    | _ => t
  | key, _ => .record [(key, t)]

mutual
def ofJson : Json → Template
  | .null => .value .null
  | .bool b => .value (.bool b)
  | .number n => .value (.number n)
  | .string s => .value (.string s)
  | .array items => .array (ofItems items)
  | .object [(key, j)] => ofMark key j (ofJson j)
  | .object members => .record (ofMembers members)

def ofItems : List Json → List Template
  | [] => []
  | item :: rest => ofJson item :: ofItems rest

def ofMembers : List (String × Json) → List (String × Template)
  | [] => []
  | (key, j) :: rest => (key, ofJson j) :: ofMembers rest
end

end Template

/-- The host value that a JSON value writes down, where new functions and memories have no
place. -/
def valueOf (j : Json) : HostValue := (Template.ofJson j).plain

/-! ### Writing -/

def mark (key : String) (value : Json) : Json := .object [(key, value)]

/-- A number; one that has no JSON text is named. -/
def numberJson (n : Number) : Json :=
  match n with
  | .finite .. => if n.isNegativeZero then mark "$num" (.string "-0") else .number n
  | other => mark "$num" (.string other.text)

def integerJson (n : Int) : Json := mark "$big" (.string (toString n))

def bytesJson (bytes : List UInt8) : Json := mark "$hex" (.string (Hex.ofBytes bytes))

def nothing : Json := mark "$undefined" (.bool true)

/-- A memory with its sizes: those that it has in the store, if it is there. -/
def memoryJson (s : Store World) (place : Nat) (pages maximum : Number) : Json :=
  let (pages, maximum) := match s.memories[place]? with
    | some m => (m.pagesNumber, m.maximumNumber)
    | none => (pages, maximum)
  mark "$memory" (.object [("pages", .number pages), ("maximum", .number maximum)])

mutual
/-- A host value in a store; members that are nothing are left out. -/
def valueJson (s : Store World) : HostValue → Json
  | .undefined => nothing
  | .null => .null
  | .bool b => .bool b
  | .number n => numberJson n
  | .bigint n => integerJson n
  | .string t => .string t
  | .array items => .array (itemsJson s items)
  | .record fields => .object (fieldsJson s fields)
  | .bytes b => bytesJson b.data.toList
  | .memory place pages maximum => memoryJson s place pages maximum
  | .function .. | .builtin _ => mark "$function" (.bool true)

def itemsJson (s : Store World) : List HostValue → List Json
  | [] => []
  | item :: rest => valueJson s item :: itemsJson s rest

def fieldsJson (s : Store World) : List (String × HostValue) → List (String × Json)
  | [] => []
  | (_, .undefined) :: rest => fieldsJson s rest
  | (key, value) :: rest => (key, valueJson s value) :: fieldsJson s rest
end

end Scenario

end WasmScript
