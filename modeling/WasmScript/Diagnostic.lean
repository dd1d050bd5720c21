/-
  WasmScript/Diagnostic.lean
  ==========================
  **Diagnostics** — numbered findings about a module, and how they are shown.

  A `Diagnostic` carries a number, a message, a severity and, for findings about a place,
  a location.  The numbers in use are the `DiagnosticCode`s: faults of the bytes from
  1001, faults of a function body from 2001.  The message already says where the fault
  is, so `Diagnostic.text` adds the file, the severity and the number only.
-/
namespace WasmScript

inductive Severity where
  | error
  | warning
  | information
deriving DecidableEq, Repr, Inhabited

namespace Severity

def all : List Severity := [.error, .warning, .information]

def number : Severity → Nat
  | .error => 1
  | .warning => 2
  | .information => 3

def word : Severity → String
  | .error => "error"
  | .warning => "warning"
  | .information => "info"

def ofNumber? (n : Nat) : Option Severity := all.find? fun s => s.number == n

end Severity

inductive DiagnosticCode where
  | invalidMagic
  | invalidVersion
  | unexpectedEnd
  | sectionSizeMismatch
  | sectionOutOfOrder
  | malformedLeb128
  | unsupportedFeature
  | malformedSection
  | duplicateExport
  | indexOutOfRange
  | invalidLimits
  | invalidUtf8
  | stackUnderflow
  | typeMismatch
  | arityMismatch
  | invalidLabel
  | unknownLocal
  | unterminatedBody
  | missingMemory
  | ifWithoutElse
  | unknownFunction
  | unknownGlobal
  | immutableGlobal
  | trailingInstructions
  | unexpectedElse
  | internalCompilerError
  | unknownError
deriving DecidableEq, Repr, Inhabited

namespace DiagnosticCode

def all : List DiagnosticCode :=
  [.invalidMagic, .invalidVersion, .unexpectedEnd, .sectionSizeMismatch, .sectionOutOfOrder,
   .malformedLeb128, .unsupportedFeature, .malformedSection, .duplicateExport,
   .indexOutOfRange, .invalidLimits, .invalidUtf8, .stackUnderflow, .typeMismatch,
   .arityMismatch, .invalidLabel, .unknownLocal, .unterminatedBody, .missingMemory,
   .ifWithoutElse, .unknownFunction, .unknownGlobal, .immutableGlobal,
   .trailingInstructions, .unexpectedElse, .internalCompilerError, .unknownError]

def number : DiagnosticCode → Nat
  | .invalidMagic => 1001
  | .invalidVersion => 1002
  | .unexpectedEnd => 1003
  | .sectionSizeMismatch => 1004
  | .sectionOutOfOrder => 1005
  | .malformedLeb128 => 1006
  | .unsupportedFeature => 1007
  | .malformedSection => 1008
  | .duplicateExport => 1009
  | .indexOutOfRange => 1010
  | .invalidLimits => 1011
  | .invalidUtf8 => 1012
  | .stackUnderflow => 2001
  | .typeMismatch => 2002
  | .arityMismatch => 2003
  | .invalidLabel => 2004
  | .unknownLocal => 2005
  | .unterminatedBody => 2006
  | .missingMemory => 2007
  | .ifWithoutElse => 2008
  | .unknownFunction => 2009
  | .unknownGlobal => 2010
  | .immutableGlobal => 2011
  | .trailingInstructions => 2012
  | .unexpectedElse => 2013
  | .internalCompilerError => 9000
  | .unknownError => 9999

def name : DiagnosticCode → String
  | .invalidMagic => "InvalidMagic"
  | .invalidVersion => "InvalidVersion"
  | .unexpectedEnd => "UnexpectedEnd"
  | .sectionSizeMismatch => "SectionSizeMismatch"
  | .sectionOutOfOrder => "SectionOutOfOrder"
  | .malformedLeb128 => "MalformedLeb128"
  | .unsupportedFeature => "UnsupportedFeature"
  | .malformedSection => "MalformedSection"
  | .duplicateExport => "DuplicateExport"
  | .indexOutOfRange => "IndexOutOfRange"
  | .invalidLimits => "InvalidLimits"
  | .invalidUtf8 => "InvalidUtf8"
  | .stackUnderflow => "StackUnderflow"
  | .typeMismatch => "TypeMismatch"
  | .arityMismatch => "ArityMismatch"
  | .invalidLabel => "InvalidLabel"
  | .unknownLocal => "UnknownLocal"
  | .unterminatedBody => "UnterminatedBody"
  | .missingMemory => "MissingMemory"
  | .ifWithoutElse => "IfWithoutElse"
  | .unknownFunction => "UnknownFunction"
  | .unknownGlobal => "UnknownGlobal"
  | .immutableGlobal => "ImmutableGlobal"
  | .trailingInstructions => "TrailingInstructions"
  | .unexpectedElse => "UnexpectedElse"
  | .internalCompilerError => "InternalCompilerError"
  | .unknownError => "UnknownError"

end DiagnosticCode

structure Location where
  /-- The section, for a fault of the bytes. -/
  sectionName : Option String := none
  /-- The offset within the module. -/
  offset : Nat
  functionIndex : Option Nat := none
  /-- The first name under which the function is exported. -/
  functionName : Option String := none
deriving DecidableEq, Repr, Inhabited

structure Diagnostic where
  code : Nat
  message : String
  severity : Severity
  location : Option Location := none
deriving DecidableEq, Repr, Inhabited

namespace Diagnostic

/-- One finding as a line, after the name of the file if there is one. -/
def text (file : Option String) (d : Diagnostic) : String :=
  let place := match file with
    | some file => if file = "" then "" else file ++ ": "
    | none => ""
  place ++ d.severity.word ++ " H" ++ toString d.code ++ ": " ++ d.message

def textAll (file : Option String) (ds : List Diagnostic) : String :=
  "\n".intercalate (ds.map (text file))

end Diagnostic

end WasmScript
