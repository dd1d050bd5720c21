/-
  WasmScript/IR/FromHost.lean
  ===========================
  **Parts of bodies from host values** — the constants and the accesses that a host asks
  for with values of its own.

  For an `i32`, a value is used as a number, which loses its fraction and wraps; a big
  integer is first rounded to a number.  For an `i64`, a value is used as a big integer,
  which wraps, and of the numbers only whole ones are accepted.
-/
import WasmScript.Host.Convert
import WasmScript.IR.Basic

namespace WasmScript.IR

def numberOf (v : HostValue) : Except Failure Number := do
  match ← v.toScalar with
  | .number n => pure n
  | .bigint n => pure (Number.ofInt n).round

def integerOf (v : HostValue) : Except Failure Int := do
  match ← v.primitive with
  | .number n => n.toInteger?.elim (.error (.range (.notWhole n))) .ok
  | other => other.toBigInt

def constantOf (type : ValueType) (v : HostValue) : Except Failure Value :=
  match type with
  | .i32 => (fun n => .i32 n.toInt32) <$> numberOf v
  | .i64 => (fun n => .i64 (Bits.signed 64 n)) <$> integerOf v

def accessOf (opcode : HostValue) : Except Failure Access :=
  match opcode.integer? with
  | some (.ofNat n) => (describeAccess n).mapError fun e => .thrown e.message
  | _ => do
    let digits ← opcode.hexText "opcode"
    .error (.thrown (AccessError.noAccess digits).message)

end WasmScript.IR
