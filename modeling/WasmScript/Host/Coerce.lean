/-
  WasmScript/Host/Coerce.lean
  ===========================
  **Coercion** — which host values stand for values of a module.

  A host may pass anything.  `HostValue.coerce` says which values stand for a value of a
  wasm type: a number wraps to an `i32` once its fraction is dropped, and only whole
  numbers below 2^53 stand for an `i64`; a big integer wraps to either; nothing else is
  accepted.  `HostValue.get` looks a member up, which fails on what is nothing.
-/
import WasmScript.Failure

namespace WasmScript.HostValue

/-! ### Values of a module -/

def toI32 : HostValue → Except TypeCause Int
  | .number n => .ok n.toInt32
  | .bigint n => .ok (Bits.signed 32 n)
  | other => .error (.notCoercible .i32 other.description)

def toI64 : HostValue → Except TypeCause Int
  | .bigint n => .ok (Bits.signed 64 n)
  | .number n =>
    match n.toSafeInteger? with
    | some k => .ok (Bits.signed 64 k)
    | none => .error (.notCoercible .i64 (HostValue.number n).description)
  | other => .error (.notCoercible .i64 other.description)

def coerce (type : ValueType) (v : HostValue) : Except TypeCause Value :=
  match type with
  | .i32 => Value.i32 <$> toI32 v
  | .i64 => Value.i64 <$> toI64 v

/-! ### Members -/

/-- The value of a member, where a text has its length and its units as members and a sequence of
bytes its length; what is nothing has no members. -/
def get (key : String) : HostValue → Except TypeCause HostValue
  | .undefined => .error (.noMembers "undefined" key)
  | .null => .error (.noMembers "null" key)
  | .string s =>
    .ok <|
      if key = "length" then .number (.ofInt (Units.count s))
      else
        ((Json.index? key).bind (Units.charAt? s)).elim (inherited key (.string s)) fun c =>
          .string (String.singleton c)
  | .bytes b =>
    .ok (if key = "length" then .number (.ofInt b.size) else
      match field key (.bytes b) with
      | .undefined => inherited key (.bytes b)
      | item => item)
  | .function place reply =>
    .ok (if key = "length" then .number (.ofInt 0) else inherited key (.function place reply))
  | .record fields =>
    .ok (if hasField key (.record fields) then field key (.record fields)
      else inherited key (.record fields))
  | v =>
    .ok (match field key v with
      | .undefined => inherited key v
      | own => own)

end WasmScript.HostValue
