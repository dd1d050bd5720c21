/-
  WasmScript/Failure.lean
  =======================
  **Failures** — all the ways in which instantiating or running a module can end other
  than with a value.

  A module may trap, fail to link, be handed a value that cannot be coerced, or pass on
  what a host function throws.  Running is bounded in the depth of calls and in the turns
  of a loop; reaching either bound is a failure of its own, so that it is never mistaken
  for an answer.  `Failure.trap?` says which failures count as traps: besides the traps
  themselves those that exhaust the call stack.  A host may trap as well, and it may give
  any value as the kind of its trap.
-/
import WasmScript.Trap
import WasmScript.Host.Value

namespace WasmScript

/-- Why a module could not be linked, or a memory could not be made. -/
inductive LinkCause where
  | notFunction (module field found : String)
  | notMemory (module field found : String)
  | fewPages (module field pages required : String)
  | mayGrow (module field maximum allowed : String)
  | invalidMaximum (found : String)
  | initialSize (initial maximum : String)
deriving DecidableEq, Repr

namespace LinkCause

def message : LinkCause → String
  | .notFunction module field found =>
    s!"Import {module}.{field} must be a function, got {found}"
  | .notMemory module field found =>
    s!"Import {module}.{field} must be a LinearMemory, got {found}"
  | .fewPages module field pages required =>
    s!"Import {module}.{field} has {pages} pages, fewer than the {required} required"
  | .mayGrow module field maximum allowed =>
    s!"Import {module}.{field} may grow to {maximum} pages, more than the maximum of {allowed}"
  | .invalidMaximum found => s!"Invalid maximum memory size: {found} pages"
  | .initialSize initial maximum =>
    s!"Initial memory size {initial} exceeds maximum of {maximum} pages"

end LinkCause

/-- Why a value cannot be used. -/
inductive TypeCause where
  /-- A host value that is no value of the type. -/
  | notCoercible (type : ValueType) (found : String)
  /-- A host function that should have returned several values. -/
  | resultCount (module field : String) (count : Nat)
  | hexText
  | mixedIntegers
  | integerAsNumber
  | notInteger (found : String)
  /-- An object that cannot be used as a text or as a number. -/
  | notPrimitive
  /-- A value whose items cannot be had, where the host looks for a way to have them. -/
  | notIterable (found : String)
  /-- A value whose items cannot be had. -/
  | noItems (what : String)
  /-- A value whose items cannot be arguments. -/
  | notSpread
  /-- As many items as there are results were wanted. -/
  | lengthMismatch
  /-- Something that is nothing has no members. -/
  | noMembers (found key : String)
  /-- Something that is nothing has no parts to be taken from it. -/
  | noParts (part what found : String)
  /-- A call of something that is no function. -/
  | notFunction (what : String)
  /-- A big integer where JSON is written. -/
  | notJson
  /-- Something that is nothing where an object is wanted. -/
  | noObject
  /-- A function that was called on nothing. -/
  | calledOnNothing (function : String)
  /-- A function that was not given the function that it wants. -/
  | functionExpected (function : String)
deriving DecidableEq, Repr

namespace TypeCause

def message : TypeCause → String
  | .notCoercible type found => s!"Expected an {type} value, got {found}"
  | .resultCount module field count => s!"Import {module}.{field} must return {count} values"
  | .hexText => "Hex data must be an even number of hex digits"
  | .mixedIntegers => "Cannot mix BigInt and other types, use explicit conversions"
  | .integerAsNumber => "Cannot convert a BigInt value to a number"
  | .notInteger found => "Cannot convert " ++ found ++ " to a BigInt"
  | .notPrimitive => "Cannot convert object to primitive value"
  | .notIterable found =>
    found ++ " is not iterable (cannot read property Symbol(Symbol.iterator))"
  | .noItems what => what ++ " is not iterable"
  | .notSpread => "Spread syntax requires ...iterable[Symbol.iterator] to be a function"
  | .lengthMismatch => "multi-return length mismatch"
  | .noMembers found key => s!"Cannot read properties of {found} (reading '{key}')"
  | .noParts part what found =>
    s!"Cannot destructure property '{part}' of '{what}' as it is {found}."
  | .notFunction what => what ++ " is not a function"
  | .notJson => "Do not know how to serialize a BigInt"
  | .noObject => "Cannot convert undefined or null to object"
  | .calledOnNothing function => function ++ " called on null or undefined"
  | .functionExpected function => function ++ ": Expecting function"

end TypeCause

/-- Why a value is out of range. -/
inductive RangeCause where
  | divisionByZero
  /-- Bytes to be copied to a place where they do not fit. -/
  | offset
  /-- A number that is not whole, where a big integer is wanted. -/
  | notWhole (found : Number)
  /-- More bytes than a buffer may hold. -/
  | arrayLength (found : String)
deriving DecidableEq, Repr

namespace RangeCause

def message : RangeCause → String
  | .divisionByZero => "Division by zero"
  | .offset => "offset is out of bounds"
  | .notWhole found =>
    "The number " ++ found.text
      ++ " cannot be converted to a BigInt because it is not an integer"
  | .arrayLength found => "Invalid typed array length: " ++ found

end RangeCause

/-- Why there is no value. -/
inductive Failure where
  | trap (kind : TrapKind)
  /-- A trap of a kind that only the host knows. -/
  | hostTrap (kind : HostValue)
  | link (cause : LinkCause)
  | type (cause : TypeCause)
  | range (cause : RangeCause)
  /-- A text that is no big integer. -/
  | numeral (found : String)
  /-- An error of no kind of its own, such as a host function may throw. -/
  | thrown (message : String)
  /-- The call stack of the host is exhausted. -/
  | stackOverflow
  /-- The bound on the depth of calls is reached. -/
  | tooDeep
  /-- The bound on the turns of a loop is reached. -/
  | tooLong
  | noInstance
  | noFunction
  | noExportedFunction (name : String)
  | noMemory
  /-- Code that no accepted module contains: a missing function, operand or label. -/
  | stuck
deriving Inhabited

namespace Failure

/-! ### Traps -/

/-- The trap of a kind that a host gives; anything but the name of a kind is a kind of the host. -/
def ofTrap (kind : HostValue) : Failure :=
  match kind with
  | .string name => (TrapKind.ofName? name).elim (.hostTrap kind) .trap
  | _ => .hostTrap kind

/-- What comes of calling a function of the host with nothing. -/
def ofReply : Reply HostValue → Except Failure HostValue
  | .returns v => .ok v
  | .traps kind => .error (ofTrap kind)
  | .throws message => .error (.thrown message)
  | .exhausts => .error .stackOverflow
  | .misses key => .error (.type (.noMembers "undefined" key))

def trap? : Failure → Option HostValue
  | .trap kind => some (.string kind.name)
  | .hostTrap kind => some kind
  | .stackOverflow | .tooDeep => some (.string TrapKind.callStackExhausted.name)
  | _ => none

/-- What a host is told about a trap of a kind of its own: what is found under its text where the
messages of the kinds are kept, in which there are also the members that every object has. -/
def hostTrapMessage (kind : HostValue) : String :=
  match TrapKind.ofName? kind.text with
  | some known => known.message
  | none => (HostValue.inheritedByAll kind.text).elim "" HostValue.text

def message : Failure → String
  | .trap kind => kind.message
  | .hostTrap kind => hostTrapMessage kind
  | .link cause => cause.message
  | .type cause => cause.message
  | .range cause => cause.message
  | .numeral found => s!"Cannot convert {found} to a BigInt"
  | .thrown message => message
  | .stackOverflow => "Maximum call stack size exceeded"
  | .tooDeep => TrapKind.callStackExhausted.message
  | .tooLong => "loop runs too long"
  | .noInstance => "no such instance"
  | .noFunction => "no such function"
  | .noExportedFunction name => "No exported function named \"" ++ name ++ "\""
  | .noMemory => "Module exports no memory"
  | .stuck => "code is not valid"

/-! ### Errors of the host -/

/-- Whether characters occur in a row among others. -/
def occurs (part : List Char) : List Char → Bool
  | [] => part.isEmpty
  | c :: rest => part.isPrefixOf (c :: rest) || occurs part rest

/-- What an error thrown by a host counts as.  A range error that mentions the size of the call
stack says that the stack is exhausted. -/
def ofError (isRangeError : Bool) (message : String) : Failure :=
  if isRangeError ∧ occurs stackOverflow.message.toList message.toList then .stackOverflow
  else .thrown message

end Failure

end WasmScript
