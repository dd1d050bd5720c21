/-
  WasmScript/Module/DecodeError.lean
  ==================================
  **Faults of the bytes** — why a module could not be read.

  A `DecodeError` is a cause, the section that was being read and the offset of the byte
  at fault.  Causes are kept as data; their numbers and wording are the functions
  `DecodeCause.code` and `DecodeCause.detail`, and the place is added by
  `DecodeError.message`.
-/
import WasmScript.Diagnostic
import WasmScript.Text.Hex
import WasmScript.Module.Basic

namespace WasmScript

/-- Parts of the language outside the supported subset. -/
inductive Feature where
  | elementSegments
  | floatTypes
  | vectorTypes
  | referenceTypes
  | collectedTypes
  | importedTable (module name : String)
  | importedGlobal (module name : String)
  | importKind (byte : Nat)
  | multipleMemories
  | shared (what : String)
  | wide (what : String)
  | globalInConstant
  | floatConstants
  | indirectCalls
  | tailCalls
  | tableInstructions
  | floatMemoryAccess
  | vectorInstructions
  | atomicInstructions
  | floatInstructions
  | referenceInstructions
  | passiveData
  | saturatingTruncation
deriving DecidableEq, Repr, Inhabited

namespace Feature

def name : Feature → String
  | .elementSegments => "element segments"
  | .floatTypes => "floating-point types"
  | .vectorTypes => "SIMD types"
  | .referenceTypes => "reference types"
  | .collectedTypes => "garbage-collected types"
  | .importedTable module name => "imported table " ++ module ++ "." ++ name
  | .importedGlobal module name => "imported global " ++ module ++ "." ++ name
  | .importKind byte => "import kind " ++ Hex.padded byte
  | .multipleMemories => "multiple memories"
  | .shared what => "shared " ++ what
  | .wide what => "64-bit " ++ what
  | .globalInConstant => "global.get in constant expressions"
  | .floatConstants => "floating-point constants"
  | .indirectCalls => "call_indirect"
  | .tailCalls => "tail calls"
  | .tableInstructions => "table instructions"
  | .floatMemoryAccess => "floating-point memory access"
  | .vectorInstructions => "SIMD instructions"
  | .atomicInstructions => "atomic instructions"
  | .floatInstructions => "floating-point instructions"
  | .referenceInstructions => "reference instructions"
  | .passiveData => "passive data segments"
  | .saturatingTruncation => "saturating float truncation"

end Feature

/-- Why a module could not be read. -/
inductive DecodeCause where
  | unexpectedEnd
  | missingBytes (wanted remaining : Nat)
  | lengthOverrun (length : Nat)
  | vectorOverrun (count remaining : Nat)
  | integerTooLarge (type : String)
  | integerTooLong
  | invalidUtf8
  | truncatedHeader
  | invalidMagic
  | invalidVersion
  | unknownSection (id : Nat)
  | sectionOrder (name : String)
  | unreadBytes (name : String) (count : Nat)
  | unsupported (feature : Feature)
  | missingCode (functions : Nat)
  | dataCount (declared actual : Nat)
  | valueType (byte : Nat)
  | typeForm (byte : Nat)
  | typeIndex (index : Nat)
  | limitsFlags (byte : Nat)
  | limits (what : String) (found : Limits)
  | tableElement (byte : Nat)
  | constantOpcode (byte : Nat)
  | constantType (found expected : ValueType)
  | constantEnd
  | mutability (byte : Nat)
  | duplicateExport (name : String)
  | exportKind (byte : Nat)
  | exportTarget (name : String) (kind : ExportKind) (index : Nat)
  | startIndex (index : Nat)
  | startType
  | bodyCount (bodies functions : Nat)
  | tooManyLocals (bound : Nat)
  | bodyOverrun (count : Nat)
  | blockTypeIndex (index : Int)
  | alignment (found natural : Nat)
  | callTarget (index : Nat)
  | selectTypes
  | unknownOpcode (byte : Nat)
  | unknownEscaped (number : Nat)
  | dataFlags (flags : Nat)
  | dataWithoutMemory
deriving DecidableEq, Repr, Inhabited

namespace DecodeCause

def code : DecodeCause → Nat
  | .unexpectedEnd | .missingBytes .. | .lengthOverrun _ | .vectorOverrun ..
  | .truncatedHeader => DiagnosticCode.unexpectedEnd.number
  | .integerTooLarge _ | .integerTooLong => DiagnosticCode.malformedLeb128.number
  | .invalidUtf8 => DiagnosticCode.invalidUtf8.number
  | .invalidMagic => DiagnosticCode.invalidMagic.number
  | .invalidVersion => DiagnosticCode.invalidVersion.number
  | .sectionOrder _ => DiagnosticCode.sectionOutOfOrder.number
  | .unreadBytes .. | .bodyOverrun _ => DiagnosticCode.sectionSizeMismatch.number
  | .unsupported _ => DiagnosticCode.unsupportedFeature.number
  | .typeIndex _ | .exportTarget .. | .startIndex _ | .blockTypeIndex _ | .callTarget _
  | .dataWithoutMemory => DiagnosticCode.indexOutOfRange.number
  | .limits .. => DiagnosticCode.invalidLimits.number
  | .constantType .. | .startType => DiagnosticCode.typeMismatch.number
  | .duplicateExport _ => DiagnosticCode.duplicateExport.number
  | .unknownSection _ | .missingCode _ | .dataCount .. | .valueType _ | .typeForm _
  | .limitsFlags _ | .tableElement _ | .constantOpcode _ | .constantEnd | .mutability _
  | .exportKind _ | .bodyCount .. | .tooManyLocals _ | .alignment .. | .selectTypes
  | .unknownOpcode _ | .unknownEscaped _ | .dataFlags _ =>
    DiagnosticCode.malformedSection.number

/-- The wording of a cause, without the place. -/
def detail : DecodeCause → String
  | .unexpectedEnd => "Unexpected end of input"
  | .missingBytes wanted remaining => s!"Expected {wanted} bytes but only {remaining} remain"
  | .lengthOverrun length => s!"Length {length} runs past the end of the input"
  | .vectorOverrun count remaining =>
    s!"Vector of {count} items exceeds the remaining {remaining} bytes"
  | .integerTooLarge type => "Integer too large for " ++ type
  | .integerTooLong => "LEB128 too long"
  | .invalidUtf8 => "Invalid UTF-8 name"
  | .truncatedHeader => "Module header is truncated"
  | .invalidMagic => "Invalid magic number"
  | .invalidVersion => "Unsupported version"
  | .unknownSection id => s!"Unknown section id {id}"
  | .sectionOrder name => s!"Section {name} is duplicated or out of order"
  | .unreadBytes name count => s!"Section {name} has {count} unread bytes"
  | .unsupported feature => "Unsupported feature: " ++ feature.name
  | .missingCode functions => s!"{functions} functions declared but no code section"
  | .dataCount declared actual =>
    s!"Data count {declared} does not match {actual} data segments"
  | .valueType byte => "Invalid value type " ++ Hex.padded byte
  | .typeForm byte => "Invalid type form " ++ Hex.padded byte
  | .typeIndex index => s!"Type index {index} out of range"
  | .limitsFlags byte => "Invalid limits flags " ++ Hex.padded byte
  | .limits what found =>
    let maximum := found.maximum.elim "none" toString
    s!"Invalid {what} limits: initial {found.initial}, maximum {maximum}"
  | .tableElement byte => "Invalid table element type " ++ Hex.padded byte
  | .constantOpcode byte => "Invalid constant expression opcode " ++ Hex.padded byte
  | .constantType found expected =>
    s!"Constant expression has type {found}, expected {expected}"
  | .constantEnd => "Constant expression must end after one instruction"
  | .mutability byte => "Invalid mutability " ++ Hex.padded byte
  | .duplicateExport name => "Duplicate export name \"" ++ name ++ "\""
  | .exportKind byte => "Invalid export kind " ++ Hex.padded byte
  | .exportTarget name kind index =>
    "Export \"" ++ name ++ "\" refers to " ++ kind.name ++ " " ++ toString index
      ++ ", which does not exist"
  | .startIndex index => s!"Start function {index} out of range"
  | .startType => "Start function must take no parameters and return no results"
  | .bodyCount bodies functions =>
    s!"Code section has {bodies} bodies for {functions} functions"
  | .tooManyLocals bound => s!"Too many locals (more than {bound})"
  | .bodyOverrun count => s!"Function body has {count} bytes after its final end"
  | .blockTypeIndex index => s!"Block type index {index} out of range"
  | .alignment found natural =>
    s!"Alignment 2^{found} exceeds natural alignment 2^{natural}"
  | .callTarget index => s!"Call to function {index}, which does not exist"
  | .selectTypes => "Typed select must name exactly one type"
  | .unknownOpcode byte => "Unknown opcode " ++ Hex.padded byte
  | .unknownEscaped number => s!"Unknown opcode 0xfc {number}"
  | .dataFlags flags => s!"Invalid data segment flags {flags}"
  | .dataWithoutMemory => "Data segment without a memory"

end DecodeCause

/-- A module that is malformed or outside the supported subset. -/
structure DecodeError where
  cause : DecodeCause
  /-- The section being read. -/
  sectionName : String
  /-- The offset of the byte at fault. -/
  offset : Nat
deriving DecidableEq, Repr, Inhabited

namespace DecodeError

def code (e : DecodeError) : Nat := e.cause.code

def message (e : DecodeError) : String :=
  e.cause.detail ++ " (" ++ e.sectionName ++ " section, offset 0x" ++ Hex.ofNat e.offset ++ ")"

def toDiagnostic (e : DecodeError) : Diagnostic :=
  { code := e.code
    message := e.message
    severity := .error
    location := some { sectionName := some e.sectionName, offset := e.offset } }

end DecodeError

end WasmScript
