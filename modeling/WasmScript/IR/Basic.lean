/-
  WasmScript/IR/Basic.lean
  ========================
  **Structured bodies** — function bodies as expressions and nested statements.

  A body takes its operands from local variables, globals and temporaries instead of a
  stack.  A temporary is either a value, bound once, or a slot, which statements and
  branches assign: slots carry the results of a block and the parameters of a loop.
  Branches name the label they leave or restart.

  Each expression has a type.  `Expression.hasEffects` says whether evaluating it may
  trap or change state, in which case it must keep its place among other effects.
-/
import WasmScript.Module.NumericOp
import WasmScript.Module.Access
import WasmScript.Integer.Bits
import WasmScript.Text.Hex

namespace WasmScript.IR

inductive Expression where
  | literal (value : Value)
  | localRef (type : ValueType) (index : Nat)
  | tempRef (type : ValueType) (id : Nat)
  | globalRef (type : ValueType) (index : Nat)
  /-- Bit counting, sign extension and conversions. -/
  | unary (type : ValueType) (op : NumericOp) (operand : Expression)
  | binary (type : ValueType) (op : NumericOp) (left right : Expression)
  /-- A comparison, which gives an `i32` of 0 or 1. -/
  | compare (op : NumericOp) (left right : Expression)
  | select (type : ValueType) (condition ifTrue ifFalse : Expression)
  /-- A call that gives exactly one value. -/
  | call (type : ValueType) (function : Nat) (args : List Expression)
  /-- Assigns a local variable and gives its new value. -/
  | tee (type : ValueType) (index : Nat) (value : Expression)
  /-- The unsigned address `base + offset`, modulo 2^32. -/
  | address (base : Expression) (offset : Nat)
  | load (access : Access) (address : Expression)
  | memorySize
  | memoryGrow (delta : Expression)
deriving Repr, Inhabited

namespace Expression

def type : Expression → ValueType
  | .literal value => value.type
  | .localRef type _ | .tempRef type _ | .globalRef type _ => type
  | .unary type .. | .binary type .. | .select type .. | .call type .. | .tee type .. => type
  | .compare .. | .address .. | .memorySize | .memoryGrow _ => .i32
  | .load access _ => access.type

def constant : ValueType → Int → Expression
  | .i32, n => .literal (.i32 (Bits.signed 32 n))
  | .i64, n => .literal (.i64 (Bits.signed 64 n))

/-- Whether evaluating an expression may trap or change state. -/
def hasEffects : Expression → Bool
  | .literal _ | .localRef .. | .tempRef .. | .globalRef .. | .memorySize => false
  | .call .. | .tee .. | .memoryGrow _ | .load .. => true
  | .unary _ _ operand => operand.hasEffects
  | .binary _ op left right => op.operator.traps || left.hasEffects || right.hasEffects
  | .compare _ left right => left.hasEffects || right.hasEffects
  | .select _ condition ifTrue ifFalse =>
    condition.hasEffects || ifTrue.hasEffects || ifFalse.hasEffects
  | .address base _ => base.hasEffects

/-- Whether an expression denotes the same value wherever it is evaluated. -/
def isStable : Expression → Bool
  | .literal _ | .tempRef .. => true
  | _ => false

/-! ### Memory accesses -/

/-- The address of an access.  A literal base is folded into a literal address, kept as a signed
bit pattern like every other literal. -/
def effectiveAddress (base : Expression) (offset : Nat) : Expression :=
  match base with
  | .literal (.i32 n) => .literal (.i32 (Bits.signed32 (n + offset)))
  | _ => .address base offset

end Expression

/-- An expression, or a call with none or several results. -/
inductive Operand where
  | single (value : Expression)
  | multi (function : Nat) (args : List Expression) (types : List ValueType)
deriving Repr, Inhabited

inductive BranchMode where
  /-- Leaves a block or an `if` and goes on after it. -/
  | exit
  /-- Starts a loop again. -/
  | restart
  /-- Leaves the function. -/
  | leave
deriving DecidableEq, Repr, Inhabited

namespace BranchMode

def all : List BranchMode := [.exit, .restart, .leave]

def name : BranchMode → String
  | .exit => "exit"
  | .restart => "restart"
  | .leave => "return"

end BranchMode

/-- A branch to an enclosing label.  Its values are written to the target's slots first; those of
a return become the results of the function. -/
structure Branch where
  depth : Nat
  /-- The label of the target; that of the function is -1. -/
  label : Int
  mode : BranchMode
  slots : List Nat
  values : List Expression
deriving Repr, Inhabited

inductive Statement where
  | block (label : Int) (targeted : Bool) (body : List Statement)
  /-- Runs its body until it falls off the end. -/
  | loop (label : Int) (targeted : Bool) (body : List Statement)
  | conditional (label : Int) (targeted : Bool) (condition : Expression)
      (yes no : List Statement)
  | branch (branch : Branch)
  | branchIf (condition : Expression) (branch : Branch)
  | branchTable (index : Expression) (targets : List Branch) (default : Branch)
  | leave (values : List Expression)
  | unreachable
  | localSet (index : Nat) (value : Expression)
  | globalSet (index : Nat) (value : Expression)
  /-- Binds fresh temporaries; several take the results of one call. -/
  | define (ids : List Nat) (value : Operand)
  /-- Writes values to slots, all at once. -/
  | assign (ids : List Nat) (values : List Expression)
  | store (access : Access) (address value : Expression)
  | memoryCopy (destination source length : Expression)
  | memoryFill (destination value length : Expression)
  /-- Evaluates an expression, or a call without results, for its effects. -/
  | evaluate (value : Operand)
deriving Repr, Inhabited

/-- Whether a temporary is bound once or assigned. -/
inductive TempKind where
  | value
  | slot
deriving DecidableEq, Repr, Inhabited

namespace TempKind

def all : List TempKind := [.value, .slot]

def name : TempKind → String
  | .value => "value"
  | .slot => "slot"

end TempKind

structure Temp where
  id : Nat
  type : ValueType
  kind : TempKind
deriving DecidableEq, Repr, Inhabited

structure Function where
  /-- The index among all functions of the module. -/
  index : Nat
  /-- The first name under which the function is exported. -/
  name : Option String
  params : List ValueType
  results : List ValueType
  /-- The declared locals, which follow the parameters. -/
  locals : List ValueType
  temps : List Temp
  body : List Statement
deriving Repr, Inhabited

/-! ### Loads and stores by opcode -/

/-- Why an opcode cannot be made into a load or a store. -/
inductive AccessError where
  /-- An opcode, by its hexadecimal digits, that accesses no memory. -/
  | noAccess (opcode : String)
  | notLoad (access : Access)
  | notStore (access : Access)
deriving DecidableEq, Repr

namespace AccessError

def message : AccessError → String
  | .noAccess opcode => "Opcode 0x" ++ opcode ++ " does not access memory"
  | .notLoad access => access.name ++ " is not a load"
  | .notStore access => access.name ++ " is not a store"

end AccessError

def describeAccess (opcode : Nat) : Except AccessError Access :=
  match Access.ofOpcode? opcode with
  | some access => .ok access
  | none => .error (.noAccess (Hex.ofNat opcode))

def loadOf (access : Access) (arg : MemArg) (base : Expression) :
    Except AccessError Expression := do
  if access.isStore then throw (.notLoad access)
  pure (.load access (base.effectiveAddress arg.offset))

def storeOf (access : Access) (arg : MemArg) (base value : Expression) :
    Except AccessError Statement := do
  if !access.isStore then throw (.notStore access)
  pure (.store access (base.effectiveAddress arg.offset) value)

end WasmScript.IR
