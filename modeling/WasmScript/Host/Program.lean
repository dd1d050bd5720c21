/-
  WasmScript/Host/Program.lean
  ============================
  **What host functions do** — a call of a host function as a series of steps.

  A host function may change the world of the host, operate on memories and call exported
  functions, in any order and depending on what it finds, and in the end gives a value or
  fails.  A `HostProgram` is the tree of these steps.  It always ends, apart from the
  calls that it makes; and a host has no other access to a running module.
-/
import WasmScript.Host.MemoryCall

namespace WasmScript

/-- What a call of a host function does, step by step. -/
inductive HostProgram (σ : Type) where
  | finish (outcome : Except Failure HostValue)
  /-- Changes the world of the host; goes on with the world as it was. -/
  | world (change : σ → σ) (next : σ → HostProgram σ)
  /-- Operates on the memory with a place in the store. -/
  | memory (place : Nat) (call : MemoryCall) (next : Except Failure HostValue → HostProgram σ)
  /-- Calls an exported function of an instance. -/
  | call (place : Nat) (name : String) (args : List HostValue)
      (next : Except Failure HostValue → HostProgram σ)

/-- A host: what each of its functions does when it is called with some values. -/
abbrev Host (σ : Type) := Nat → List HostValue → HostProgram σ

/-- How values cross between a module and its host. -/
structure Boundary where
  /-- What reaches a host function with some parameters. -/
  pass : List ValueType → List HostValue → Except Failure (List HostValue)
  /-- The value of a type that a host value stands for. -/
  accept : ValueType → HostValue → Except Failure Value
  /-- The items of what a function with several results returned. -/
  items : (module field : String) → (count : Nat) → HostValue → Except Failure (List HostValue)

namespace Boundary

/-! ### Scripts -/

def coerced (type : ValueType) (v : HostValue) : Except Failure Value :=
  (HostValue.coerce type v).mapError .type

/-- The items of an array, if it has as many as there are results. -/
def arrayItems (module field : String) (count : Nat) : HostValue → Except Failure (List HostValue)
  | .array items =>
    if items.length = count then .ok items else .error (.type (.resultCount module field count))
  | _ => .error (.type (.resultCount module field count))

/-- Arguments coerced to the types of the parameters; an extra one must be an `i64`. -/
def coercedAll : List ValueType → List HostValue → Except Failure (List HostValue)
  | _, [] => .ok []
  | types, v :: vs => do
    let arg ← coerced (types.headD .i64) v
    let rest ← coercedAll types.tail vs
    pure (.ofValue arg :: rest)

def script : Boundary := ⟨coercedAll, coerced, arrayItems⟩

/-! ### Engines -/

/-- The value of a type that an engine converts a host value to. -/
def convert : ValueType → HostValue → Except Failure Value
  | .i32, v => (fun n => .i32 n.toInt32) <$> v.toNumber
  | .i64, v => (fun n => .i64 (Bits.signed 64 n)) <$> v.toBigInt

/-- A value that cannot be iterated, as an engine mentions it. -/
def mention : HostValue → String
  | .null => "object null"
  | .bool b => "boolean " ++ (if b then "true" else "false")
  | .number n => "number " ++ n.text
  | other => other.typeName

def iterated (v : HostValue) : Except Failure (List HostValue) :=
  match v with
  | .array _ | .string _ | .bytes _ => .ok v.listItems
  | v => .error (.type (.notIterable (mention v)))

/-- The items of a value, whose number an engine compares with that of the results. -/
def iteratedItems (_ _ : String) (count : Nat) (v : HostValue) :
    Except Failure (List HostValue) := do
  let items ← iterated v
  if items.length = count then pure items else throw (.type .lengthMismatch)

def engine : Boundary := ⟨fun _ args => .ok args, convert, iteratedItems⟩

/-! ### Several values -/

/-- The values of some types that as many host values stand for; a missing one is undefined and
an extra one is ignored. -/
def acceptAll (b : Boundary) : List ValueType → List HostValue → Except Failure (List Value)
  | [], _ => .ok []
  | type :: types, vs => do
    let v ← b.accept type (vs.headD .undefined)
    let rest ← b.acceptAll types vs.tail
    pure (v :: rest)

def results (b : Boundary) (module field : String) (types : List ValueType) (v : HostValue) :
    Except Failure (List Value) :=
  match types with
  | [] => .ok []
  | [type] => do
    let r ← b.accept type v
    pure [r]
  | types => do
    let items ← b.items module field types.length v
    b.acceptAll types items

end Boundary

end WasmScript
