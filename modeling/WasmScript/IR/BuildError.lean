/-
  WasmScript/IR/BuildError.lean
  =============================
  **Faults of a body** — why a function body could not be made into structured form.

  A `BuildError` is a cause, the function it was found in and the offset of the
  instruction at fault.  Faults are reported per function, so that one bad body does not
  hide another.
-/
import WasmScript.Diagnostic
import WasmScript.Text.Hex
import WasmScript.Module.Basic

namespace WasmScript.IR

inductive FrameKind where
  | function
  | block
  | loop
  | conditional
deriving DecidableEq, Repr, Inhabited

namespace FrameKind

def all : List FrameKind := [.function, .block, .loop, .conditional]

def name : FrameKind → String
  | .function => "function"
  | .block => "block"
  | .loop => "loop"
  | .conditional => "if"

end FrameKind

/-- Why a body could not be built, in terms of what types and indices are. -/
inductive BuildCause (τ ι : Type) where
  | stackUnderflow (expected : Option τ)
  | operandType (expected found : τ)
  | arity (kind : FrameKind) (expected found : Nat)
  | branchTypes (depth : ι) (found expected : List τ)
  | label (depth : ι) (frames : Nat)
  | unknownLocal (index : ι) (count : Nat)
  | unterminated
  | missingMemory
  | ifWithoutElse
  | noBody (function : ι)
  | unknownFunction (function : ι)
  | unknownGlobal (index : ι)
  | immutableGlobal (index : ι)
  | trailing
  | unexpectedElse
  /-- An opcode, by its hexadecimal digits, that stands for no operator. -/
  | noOperator (opcode : String)
deriving DecidableEq, Repr

namespace BuildCause

variable {τ ι : Type}

def code : BuildCause τ ι → Nat
  | .stackUnderflow _ => DiagnosticCode.stackUnderflow.number
  | .operandType .. => DiagnosticCode.typeMismatch.number
  | .arity .. | .branchTypes .. => DiagnosticCode.arityMismatch.number
  | .label .. => DiagnosticCode.invalidLabel.number
  | .unknownLocal .. => DiagnosticCode.unknownLocal.number
  | .unterminated => DiagnosticCode.unterminatedBody.number
  | .missingMemory => DiagnosticCode.missingMemory.number
  | .ifWithoutElse => DiagnosticCode.ifWithoutElse.number
  | .noBody _ | .unknownFunction _ => DiagnosticCode.unknownFunction.number
  | .unknownGlobal _ => DiagnosticCode.unknownGlobal.number
  | .immutableGlobal _ => DiagnosticCode.immutableGlobal.number
  | .trailing => DiagnosticCode.trailingInstructions.number
  | .unexpectedElse => DiagnosticCode.unexpectedElse.number
  | .noOperator _ => DiagnosticCode.internalCompilerError.number

variable [ToString τ] [ToString ι]

def typeList (types : List τ) : String := "[" ++ ", ".intercalate (types.map toString) ++ "]"

/-- The wording of a cause, without the place. -/
def detail : BuildCause τ ι → String
  | .stackUnderflow (some type) => s!"Expected an {type} operand but the stack is empty"
  | .stackUnderflow none => "Operand stack underflow"
  | .operandType expected found => s!"Expected an {expected} operand but found {found}"
  | .arity kind expected found =>
    s!"Expected {expected} values at the end of the {kind.name}, found {found}"
  | .branchTypes depth found expected =>
    s!"br_table target {depth} expects {typeList found} but the default expects {typeList expected}"
  | .label depth frames => s!"Branch depth {depth} exceeds the {frames} enclosing labels"
  | .unknownLocal index count => s!"Local {index} does not exist (function has {count})"
  | .unterminated => "Function body ends without a final end"
  | .missingMemory => "Memory instruction in a module without memory"
  | .ifWithoutElse => "if with parameters or results must have an else"
  | .noBody function => s!"Function {function} has no body"
  | .unknownFunction function => s!"Function {function} does not exist"
  | .unknownGlobal index => s!"Global {index} does not exist"
  | .immutableGlobal index => s!"Global {index} is immutable"
  | .trailing => "Instruction after the end of the function body"
  | .unexpectedElse => "else without a matching if"
  | .noOperator opcode => "No numeric operator for opcode 0x" ++ opcode

end BuildCause

/-- A function body that is not valid. -/
structure BuildError where
  cause : BuildCause ValueType Nat
  functionIndex : Nat
  /-- The first name under which the function is exported. -/
  functionName : Option String
  /-- The offset of the instruction at fault. -/
  offset : Nat
deriving DecidableEq, Repr

namespace BuildError

def code (e : BuildError) : Nat := e.cause.code

/-- The function, by index and by name if it has one. -/
def place (e : BuildError) : String :=
  let name := e.functionName.getD ""
  s!"function {e.functionIndex}" ++ (if name = "" then "" else " \"" ++ name ++ "\"")

def message (e : BuildError) : String :=
  e.cause.detail ++ " (" ++ e.place ++ ", offset 0x" ++ Hex.ofNat e.offset ++ ")"

def toDiagnostic (e : BuildError) : Diagnostic :=
  { code := e.code
    message := e.message
    severity := .error
    location := some
      { sectionName := some "code"
        offset := e.offset
        functionIndex := some e.functionIndex
        functionName := e.functionName } }

end BuildError

end WasmScript.IR
