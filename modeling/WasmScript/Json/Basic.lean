/-
  WasmScript/Json/Basic.lean
  ==========================
  **JSON values** — what is exchanged with the programs that use the library.

  Numbers are host numbers, so that the zero with a minus sign is one of them.  An object
  lists its members in the order in which a host lists them: first the keys that are
  array indices, in the order of the numbers, then the others as they came.  A key that
  came twice stands where it came first, with the value that came last.
-/
import WasmScript.Number.Arithmetic

namespace WasmScript

inductive Json where
  | null
  | bool (b : Bool)
  | number (n : Number)
  | string (s : String)
  | array (items : List Json)
  | object (members : List (String × Json))

namespace Json

instance : Inhabited Json := ⟨.null⟩

/-! ### Members -/

def index? (key : String) : Option Nat :=
  match key.toNat? with
  | some n => if toString n = key ∧ n < 0xffffffff then some n else none
  | none => none

/-- Gives a key a value, in its place if it has one. -/
def put {α : Type} (key : String) (value : α) : List (String × α) → List (String × α)
  | [] => [(key, value)]
  | (k, v) :: rest => if k = key then (k, value) :: rest else (k, v) :: put key value rest

def listed {α : Type} (members : List (String × α)) : List (String × α) :=
  let distinct := members.foldl (fun all m => put m.1 m.2 all) []
  let indexed := distinct.filter fun m => (index? m.1).isSome
  let named := distinct.filter fun m => (index? m.1).isNone
  indexed.mergeSort (fun a b => (index? a.1).getD 0 ≤ (index? b.1).getD 0) ++ named

/-! ### Looking into values -/

/-- The value of a key, if there is one. -/
def member? (key : String) : Json → Option Json
  | .object members => members.lookup key
  | _ => none

def items : Json → List Json
  | .array items => items
  | _ => []

def set (j : Json) (key : String) (value : Json) : Json :=
  match j with
  | .object members => .object (put key value members)
  | other => other

end Json

end WasmScript
