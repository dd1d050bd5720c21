/-
  WasmScript/Script/Evaluation.lean
  =================================
  **What script expressions are worth** — the expressions of generated scripts, run by the
  rules of the script language.

  A `Term` is evaluated from left to right, in the variables and the store that structured
  bodies run in as well.  Numbers are doubles, each operator on them rounds once, and the
  operators on bits look at the lowest 32 of them; big integers have as many bits as they
  need.  The two are never mixed.  A helper computes on the integers that its arguments
  are: the quotient of two numbers is the exact one before its fraction is dropped.

  Only what generated scripts ask for has a meaning here.  Anything else, such as a number
  beside a big integer or a condition that is no truth value, is stuck.
-/
import WasmScript.Run.Structured
import WasmScript.Host.Convert
import WasmScript.Script.Expression
import Mathlib.Data.Int.Bitwise

namespace WasmScript

namespace Scalar

def ofValue : Value → Scalar
  | .i32 n => .number (.ofInt n)
  | .i64 n => .bigint n

/-- What a variable holds, as a script holds it. -/
def ofCell : Cell → Scalar
  | .plain v => ofValue v
  | .negativeZero => .number .negativeZero

/-- What a variable holds that is assigned a scalar; only whole numbers are ever assigned. -/
def toCell? : Scalar → Option Cell
  | .number n =>
    if n.isNegativeZero then some .negativeZero else n.toInteger?.map fun k => .plain (.i32 k)
  | .bigint n => some (.plain (.i64 n))

def toInteger? : ValueType → Scalar → Option Int
  | .i32, .number n => n.toInteger?
  | .i64, .bigint n => some n
  | _, _ => none

end Scalar

namespace Script

inductive Datum where
  | scalar (s : Scalar)
  | truth (b : Bool)
  /-- What a call without results gives. -/
  | nothing
  /-- What a call with several results gives. -/
  | several (items : List Scalar)
deriving DecidableEq, Repr, Inhabited

namespace Datum

def number (n : Number) : Datum := .scalar (.number n)

def word (n : Int) : Datum := number (.ofInt n)

def integer (n : Int) : Datum := .scalar (.bigint n)

def ofCells : List Cell → Datum
  | [] => .nothing
  | [v] => .scalar (.ofCell v)
  | vs => .several (vs.map .ofCell)

def scalar? : Datum → Option Scalar
  | .scalar s => some s
  | _ => none

def scalars? : List Datum → Option (List Scalar)
  | [] => some []
  | d :: ds => do
    let s ← d.scalar?
    let ss ← scalars? ds
    pure (s :: ss)

end Datum

/-! ### Operators -/

namespace Symbol

/-- An operator on two numbers.  Generated scripts do not multiply numbers. -/
def onNumbers (symbol : Symbol) (a b : Number) : Option Datum :=
  let x := a.toInt32
  let y := b.toInt32
  let places := b.toUInt32 % 32
  match symbol with
  | .plus => some (.number (a.add b))
  | .minus => some (.number (a.sub b))
  | .times => none
  | .and => some (.word (Bits.and 32 x y))
  | .or => some (.word (Bits.or 32 x y))
  | .xor => some (.word (Bits.xor 32 x y))
  | .shl => some (.word (Bits.shl32 x places))
  | .shr => some (.word (Bits.shr32 x places))
  | .ushr => some (.word (Bits.ushr32 x places))
  | .equal => some (.truth (a.same b))
  | .unequal => some (.truth (!a.same b))
  | .less => some (.truth (a.lt b))
  | .greater => some (.truth (b.lt a))
  | .lessEqual => some (.truth (a.lt b || a.same b))
  | .greaterEqual => some (.truth (b.lt a || a.same b))

/-- A big integer moved up by so many places; down, if there are less than none. -/
def moveUp (a places : Int) : Int :=
  if 0 ≤ places then a * Bits.twoPow places.toNat else a >>> (-places).toNat

/-- An operator on two big integers, of which none is a shift that fills up with zeros. -/
def onIntegers (symbol : Symbol) (a b : Int) : Option Datum :=
  match symbol with
  | .plus => some (.integer (a + b))
  | .minus => some (.integer (a - b))
  | .times => some (.integer (a * b))
  | .and => some (.integer (Int.land a b))
  | .or => some (.integer (Int.lor a b))
  | .xor => some (.integer (Int.xor a b))
  | .shl => some (.integer (moveUp a b))
  | .shr => some (.integer (moveUp a (-b)))
  | .ushr => none
  | .equal => some (.truth (decide (a = b)))
  | .unequal => some (.truth (decide (a ≠ b)))
  | .less => some (.truth (decide (a < b)))
  | .greater => some (.truth (decide (b < a)))
  | .lessEqual => some (.truth (decide (a ≤ b)))
  | .greaterEqual => some (.truth (decide (b ≤ a)))

/-- An operator on two operands of one kind. -/
def apply (symbol : Symbol) : Datum → Datum → Option Datum
  | .scalar (.number a), .scalar (.number b) => symbol.onNumbers a b
  | .scalar (.bigint a), .scalar (.bigint b) => symbol.onIntegers a b
  | _, _ => none

end Symbol

/-! ### Calls -/

open IR (Run Surroundings)

def Helper.argument : Helper → ValueType
  | .i32WrapI64 => .i64
  | h => h.type

def Helper.applyTo {σ : Type} (h : Helper) (a b : Scalar) : Run σ Datum := do
  let x ← Run.present (a.toInteger? h.argument)
  let y ← Run.present (b.toInteger? h.argument)
  let n ← Run.result ((h.apply x y).mapError .trap)
  pure (.scalar (.ofValue (.ofInt h.type n)))

namespace Callee

/-- What a function of the script language gives that touches nothing. -/
def applyPure : Callee → List Scalar → Option Datum
  | .imul, [.number a, .number b] => some (.word (Bits.imul a.toInt32 b.toInt32))
  | .clz32, [.number a] => some (.word (Bits.clz32 a.toInt32))
  | .bigInt, [.number a] => a.toInteger?.map .integer
  | .asIntN, [.number width, .bigint n] =>
    width.toInteger?.map fun w => .integer (Bits.signed w.toNat n)
  | .asUintN, [.number width, .bigint n] =>
    width.toInteger?.map fun w => .integer (Bits.unsigned w.toNat n)
  | _, _ => none

variable {σ : Type}

def call (around : Surroundings σ) : Callee → List Scalar → Run σ Datum
  | .function index, args => do
    let cells ← Run.present (args.mapM Scalar.toCell?)
    let results ← Run.act (around.call index cells)
    pure (.ofCells results)
  | .helper h, [a] => h.applyTo a a
  | .helper h, [a, b] => h.applyTo a b
  | .access accessor, [address] => do
    let address ← Run.present (address.toInteger? .i32)
    let n ← Run.act (.onOwnMemory around.place (LinearMemory.load accessor address))
    pure (.scalar (.ofValue (.ofInt accessor.type n)))
  | .access accessor, [address, value] => do
    let address ← Run.present (address.toInteger? .i32)
    let n ← Run.present (value.toInteger? accessor.type)
    Run.act (.onOwnMemory around.place (LinearMemory.store accessor address n))
    pure .nothing
  | .memoryGrow, [.number delta] => do
    let pages ← Run.act (.memoryGrow around.place delta.toUInt32)
    pure (.scalar (.ofCell pages))
  | .memoryCopy, [destination, source, length] => do
    let d ← Run.present (destination.toInteger? .i32)
    let s ← Run.present (source.toInteger? .i32)
    let n ← Run.present (length.toInteger? .i32)
    Run.act (.onOwnMemory around.place (LinearMemory.copy d s n))
    pure .nothing
  | .memoryFill, [destination, value, length] => do
    let d ← Run.present (destination.toInteger? .i32)
    let v ← Run.present (value.toInteger? .i32)
    let n ← Run.present (length.toInteger? .i32)
    Run.act (.onOwnMemory around.place (LinearMemory.fill d v n))
    pure .nothing
  | callee, args => Run.present (callee.applyPure args)

end Callee

/-! ### Expressions -/

namespace Variable

variable {σ : Type}

def read (around : Surroundings σ) : Variable → Run σ Cell
  | .localVar index => do Run.present (← get).locals[index]?
  | .tempVar id => do Run.present (← get).temps[id]?.join
  | .globalVar index => Run.act (.getGlobal around.place index)

def write (around : Surroundings σ) (v : Cell) : Variable → Run σ Unit
  | .localVar index => Run.setLocal index v
  | .tempVar id => Run.setTemp id v
  | .globalVar index => Run.act (.setGlobal around.place index v)

end Variable

namespace Term

variable {σ : Type}

mutual
def evaluate (around : Surroundings σ) : Term → Run σ Datum
  | .variable v => do pure (.scalar (.ofCell (← v.read around)))
  | .memoryPages => do pure (.scalar (.ofCell (← Run.act (.memorySize around.place))))
  | .number n => pure (.word n)
  | .bigInteger n => pure (.integer n)
  | .parens inner => evaluate around inner
  | .binary symbol left right => do
    let a ← evaluate around left
    let b ← evaluate around right
    Run.present (symbol.apply a b)
  | .conditional condition yes no => do
    match ← evaluate around condition with
    | .truth b => if b then evaluate around yes else evaluate around no
    | _ => throw .stuck
  | .assign v value => do
    let d ← evaluate around value
    let cell ← Run.present (d.scalar?.bind Scalar.toCell?)
    v.write around cell
    pure d
  | .call callee args => do
    let ds ← evaluateAll around args
    let ss ← Run.present (Datum.scalars? ds)
    callee.call around ss

/-- What some expressions are worth, from left to right. -/
def evaluateAll (around : Surroundings σ) : List Term → Run σ (List Datum)
  | [] => pure []
  | t :: ts => do
    let d ← evaluate around t
    let ds ← evaluateAll around ts
    pure (d :: ds)
end

end Term

end Script

end WasmScript
