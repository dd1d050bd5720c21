/-
  WasmScript/Run/Cell.lean
  ========================
  **Cells** — what the variables, the operands and the results of running code hold.

  Nearly always that is a value.  The exception is the size of a memory that a host lends:
  it may be the negative zero, and it stays that for as long as it is only moved about.
  Whatever computes with a cell uses it as a value, in which the two zeros are one.
-/
import WasmScript.Host.MemoryCall

namespace WasmScript

/-- What a variable of running code holds. -/
inductive Cell where
  | plain (v : Value)
  /-- An `i32` of zero that a host sees with a minus sign. -/
  | negativeZero
deriving DecidableEq, Repr, Inhabited

namespace Cell

instance : Coe Value Cell := ⟨.plain⟩

def toValue : Cell → Value
  | .plain v => v
  | .negativeZero => .i32 0

def toHost : Cell → HostValue
  | .plain v => .ofValue v
  | .negativeZero => .number .negativeZero

def zero (type : ValueType) : Cell := .plain (.zero type)

/-- A size that a memory tells, or the answer that it cannot grow. -/
def ofPages (m : LinearMemory) (pages : Int) : Cell :=
  if pages = 0 ∧ m.negativePages then .negativeZero else .plain (.i32 pages)

/-- A host is told of the size of a memory just what running code is told. -/
theorem toHost_ofPages (m : LinearMemory) (pages : Int) :
    (ofPages m pages).toHost = .number (LinearMemory.sizeNumber m.negativePages pages) := by
  unfold ofPages LinearMemory.sizeNumber
  split <;> rfl

end Cell

end WasmScript
