/-
  WasmScript/Host/Convert.lean
  ============================
  **Using host values as numbers** — what a host does when a value of one kind stands
  where another kind is wanted.

  An object is first replaced by its text.  As a number, a text is read as a numeral,
  nothing is not a number and the empty value is zero; a big integer is refused.  As a
  big integer, a text must be one; numbers are refused.  The operators take both of
  their operands as `Scalar`s, numbers or big integers, and refuse to mix the two.
-/
import WasmScript.Host.Coerce
import WasmScript.Number.Numeral
import WasmScript.Number.Hexadecimal

namespace WasmScript

/-- A number of one of the two kinds that a host has. -/
inductive Scalar where
  | number (n : Number)
  | bigint (n : Int)
deriving DecidableEq, Repr, Inhabited

namespace Scalar

def toHost : Scalar → HostValue
  | .number n => .number n
  | .bigint n => .bigint n

def ofHost? : HostValue → Option Scalar
  | .number n => some (.number n)
  | .bigint n => some (.bigint n)
  | _ => none

/-- The scalars that some host values are, if all of them are. -/
def ofHosts? : List HostValue → Option (List Scalar)
  | [] => some []
  | v :: vs => do
    let s ← ofHost? v
    let ss ← ofHosts? vs
    pure (s :: ss)

def text : Scalar → String
  | .number n => n.text
  | .bigint n => toString n ++ "n"

def same : Scalar → Scalar → Bool
  | .number a, .number b => a.same b
  | .bigint a, .bigint b => a == b
  | _, _ => false

/-- The exact value of a scalar, where those of the two kinds are compared. -/
def exact : Scalar → Number
  | .number n => n
  | .bigint n => .ofInt n

end Scalar

namespace HostValue

/-! ### Conversions -/

def truthy : HostValue → Bool
  | .undefined | .null => false
  | .bool b => b
  | .number n => n ≠ .nan && !n.isZero
  | .bigint n => n ≠ 0
  | .string s => s ≠ ""
  | _ => true

def ofNat (n : Nat) : HostValue := .number (.ofInt n)

def isNegativeZero : HostValue → Bool
  | .number n => n.isNegativeZero
  | _ => false

/-- The integer that a value is, if it is a whole number. -/
def integer? : HostValue → Option Int
  | .number n => n.toInteger?
  | _ => none

/-- What stands for an object where there can be no object: what the first of its functions under
some names gives that is no object.  Every object has a `toString`, unless it has something else
under that name. -/
def simplified (fields : List (String × HostValue)) :
    (names : List String) → Except Failure HostValue
  | [] => .error (.type .notPrimitive)
  | name :: names =>
    match fields.find? fun f => f.1 == name with
    | some (_, .function _ reply) => do
      let v ← Failure.ofReply reply
      if v.isObject then simplified fields names else pure v
    | some _ => simplified fields names
    | none =>
      if name = "toString" then .ok (.string (text (.record []))) else simplified fields names

mutual
def toText : HostValue → Except Failure String
  | .array items => do
    let texts ← toItemTexts items
    pure (",".intercalate texts)
  | .record fields => text <$> simplified fields ["toString", "valueOf"]
  | v => .ok v.text

/-- The texts that the items of a list are used as; an item that is nothing has no text. -/
def toItemTexts : List HostValue → Except Failure (List String)
  | [] => .ok []
  | item :: rest => do
    let first ← match item with
      | .undefined | .null => pure ""
      | other => toText other
    let texts ← toItemTexts rest
    pure (first :: texts)
end

/-- What stands for a value where there can be no object; most objects are replaced by their
texts. -/
def primitive : HostValue → Except Failure HostValue
  | .record fields => simplified fields ["valueOf", "toString"]
  | v => if v.isObject then .string <$> v.toText else .ok v

def toScalar (v : HostValue) : Except Failure Scalar := do
  match ← v.primitive with
  | .number n => pure (.number n)
  | .bigint n => pure (.bigint n)
  | .bool b => pure (.number (.ofInt (if b then 1 else 0)))
  | .null => pure (.number (.ofInt 0))
  | .string s => pure (.number (Numeral.toNumber s))
  | _ => pure (.number .nan)

def toNumber (v : HostValue) : Except Failure Number := do
  match ← v.toScalar with
  | .number n => pure n
  | .bigint _ => .error (.type .integerAsNumber)

/-- The byte that a value is used as: the low eight bits of a number without its fraction. -/
def toByte (v : HostValue) : Except Failure UInt8 := Number.toByte <$> v.toNumber

def toOperand (v : HostValue) : Except Failure Number := do
  match ← v.toScalar with
  | .number n => pure n
  | .bigint _ => .error (.type .mixedIntegers)

def toBigInt (v : HostValue) : Except Failure Int := do
  match ← v.primitive with
  | .bigint n => pure n
  | .bool b => pure (if b then 1 else 0)
  | .string s =>
    match Numeral.toInteger? s with
    | some n => pure n
    | none => .error (.numeral s)
  | other => .error (.type (.notInteger other.text))

/-- The items of a list, of a text or of some bytes. -/
def listItems : HostValue → List HostValue
  | .array items => items
  | .bytes b => b.data.toList.map fun x => ofNat x.toNat
  | .string s => (Units.texts s.toList).map .string
  | _ => []

/-- The items of a value that has items, one after another. -/
def iterate? : HostValue → Option (List HostValue)
  | .array items => some items
  | .bytes b => some (listItems (.bytes b))
  | .string s => some (listItems (.string s))
  | _ => none

def itemsOf (name : String) (v : HostValue) : Except Failure (List HostValue) :=
  match v.iterate? with
  | some items => .ok items
  | none => .error (.type (.noItems name))

/-- The items of a value as arguments; a complaint calls the value by a name. -/
def argumentsOf (name : String) (v : HostValue) : Except Failure (List HostValue) :=
  match v.iterate?, v with
  | some items, _ => .ok items
  | none, .undefined | none, .null => .error (.type (.notIterable name))
  | none, _ => .error (.type .notSpread)

def optionalText : HostValue → Except Failure String
  | .undefined => .ok ""
  | v => v.toText

/-- What a value gives that is asked for its text in base sixteen, which only numbers of either
kind have; a complaint calls the value by a name. -/
def inHex (name : String) : HostValue → Except Failure HostValue
  | .number n => .ok (.string n.hexText)
  | .bigint n => .ok (.string ((if n < 0 then "-" else "") ++ Hex.ofNat n.natAbs))
  | .undefined => .error (.type (.noMembers "undefined" "toString"))
  | .null => .error (.type (.noMembers "null" "toString"))
  | .record fields =>
    match fields.find? fun f => f.1 == "toString" with
    | some (_, .function _ reply) => Failure.ofReply reply
    | some _ => .error (.type (.notFunction (name ++ ".toString")))
    | none => .ok (.string (text (.record fields)))
  | v => .string <$> v.toText

def hexText (name : String) (v : HostValue) : Except Failure String := do
  (← v.inHex name).toText

/-! ### Operators -/

/-- Whether two values are the same: of one kind and equal.  A list or an object is the same as
no other. -/
def same : HostValue → HostValue → Bool
  | .undefined, .undefined | .null, .null => true
  | .bool a, .bool b => a == b
  | .number a, .number b => a.same b
  | .bigint a, .bigint b => a == b
  | .string a, .string b => a == b
  | _, _ => false

def member (v key : HostValue) : Except Failure HostValue :=
  match v with
  | .undefined | .null => (v.get key.text).mapError .type
  | v => do (v.get (← key.toText)).mapError .type

def memberNamed (v : HostValue) (key : String) : Except Failure HostValue :=
  (v.get key).mapError .type

def isNumber (n : Number) : HostValue → Bool
  | .number m => m.same n
  | _ => false

def isBigInt (n : Int) : HostValue → Bool
  | .bigint m => m == n
  | _ => false

def operate (onNumbers : Number → Number → Number) (onIntegers : Int → Int → Except Failure Int)
    (a b : HostValue) : Except Failure HostValue := do
  let x ← a.toScalar
  let y ← b.toScalar
  match x, y with
  | .number x, .number y => pure (.number (onNumbers x y))
  | .bigint x, .bigint y => HostValue.bigint <$> onIntegers x y
  | _, _ => .error (.type .mixedIntegers)

def div : HostValue → HostValue → Except Failure HostValue :=
  operate Number.div fun x y => if y = 0 then .error (.range .divisionByZero) else .ok (x.tdiv y)

def minus : HostValue → HostValue → Except Failure HostValue :=
  operate Number.sub fun x y => .ok (x - y)

def max (a b : HostValue) : Except Failure HostValue := do
  let x ← a.toNumber
  let y ← b.toNumber
  pure (.number (if x = .nan ∨ y = .nan then .nan else if x.lt y then y else x))

def rem : HostValue → HostValue → Except Failure HostValue :=
  operate Number.rem fun x y => if y = 0 then .error (.range .divisionByZero) else .ok (x.tmod y)

/-- The sum; beside a text, the texts of both in a row. -/
def plus (a b : HostValue) : Except Failure HostValue := do
  let a ← a.primitive
  let b ← b.primitive
  match a, b with
  | .string s, b => pure (.string (s ++ b.text))
  | a, .string t => pure (.string (a.text ++ t))
  | a, b => operate Number.add (fun x y => .ok (x + y)) a b

/-- Whether one value lies below another: two texts by their units, and others as numbers. -/
def lt (a b : HostValue) : Except Failure Bool := do
  let a ← a.primitive
  let b ← b.primitive
  match a, b with
  | .string s, .string t => pure (!Units.le t s)
  | a, b => do
    let x ← a.toScalar
    let y ← b.toScalar
    pure (x.exact.lt y.exact)

/-! ### Functions of the host itself -/

/-- A value as an object.  What is no object becomes one that reads the same, and nothing but how
it reads is kept of it. -/
def toObject (v : HostValue) : HostValue :=
  match v with
  | .undefined | .null => .record []
  | v => if v.isObject then v else .string v.text

/-- What a function that every object has gives without an object. -/
def callBuiltin (name : String) (args : List HostValue) : Except Failure HostValue :=
  let arg (i : Nat) : HostValue := args[i]?.getD .undefined
  let full := "Object.prototype." ++ name
  match name with
  | "Object" => .ok (toObject (arg 0))
  | "toString" => .ok (.string "[object Undefined]")
  | "toLocaleString" => .error (.type (.calledOnNothing full))
  | "isPrototypeOf" =>
    if (arg 0).isObject then .error (.type .noObject) else .ok (.bool false)
  | "__defineGetter__" | "__defineSetter__" =>
    if (arg 1).typeName = "function" then .ok .undefined
    else .error (.type (.functionExpected full))
  | "__lookupGetter__" | "__lookupSetter__" => .ok .undefined
  | _ => .error (.type .noObject)

end HostValue

end WasmScript
