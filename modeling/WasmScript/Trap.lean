/-
  WasmScript/Trap.lean
  ====================
  **Traps** — the five ways in which running code stops on purpose.

  Each kind has a name, by which fixtures and answers refer to it, and a message, which a
  host sees.  `TrapKind.ofName?` reads the name back.
-/
namespace WasmScript

/-- Why running code stopped. -/
inductive TrapKind where
  | unreachable
  | divideByZero
  | integerOverflow
  | outOfBounds
  | callStackExhausted
deriving DecidableEq, Repr

namespace TrapKind

def all : List TrapKind :=
  [.unreachable, .divideByZero, .integerOverflow, .outOfBounds, .callStackExhausted]

def name : TrapKind → String
  | .unreachable => "unreachable"
  | .divideByZero => "divide-by-zero"
  | .integerOverflow => "integer-overflow"
  | .outOfBounds => "out-of-bounds"
  | .callStackExhausted => "call-stack-exhausted"

def message : TrapKind → String
  | .unreachable => "unreachable executed"
  | .divideByZero => "integer divide by zero"
  | .integerOverflow => "integer overflow"
  | .outOfBounds => "out of bounds memory access"
  | .callStackExhausted => "call stack exhausted"

def ofName? (name : String) : Option TrapKind := all.find? fun k => k.name == name

end TrapKind

end WasmScript
