/-
  WasmScript/Host/Finding.lean
  ============================
  **Findings that a host makes up** — errors and diagnostics with whatever values a host
  puts into them.

  The library itself numbers its findings and knows where they are.  A host that reports
  findings of its own may give any value as number, text or place; they are worded in the
  same way and handed back as they were given.
-/
import WasmScript.Diagnostic
import WasmScript.Host.Convert

namespace WasmScript.Finding

/-! ### Errors -/

/-- A fault of the bytes as a host reports it. -/
structure Fault where
  code : HostValue
  message : String
  sectionName : HostValue
  offset : HostValue
deriving Inhabited

def fault (code detail sectionName offset : HostValue) : Except Failure Fault := do
  let detail ← detail.toText
  let place ← sectionName.toText
  let digits ← offset.hexText "offset"
  pure ⟨code, s!"{detail} ({place} section, offset 0x{digits})", sectionName, offset⟩

/-- An error as a host sees it: its name, its wording and, for a finding, its diagnostic. -/
def error (name message : String) (diagnostic : HostValue := .undefined) : HostValue :=
  .record [("name", .string name), ("message", .string message),
    ("isCompilerError", .bool true), ("diagnostic", diagnostic)]

def diagnostic (code : HostValue) (message : String) (location : List (String × HostValue)) :
    HostValue :=
  .record [("code", code), ("message", .string message),
    ("severity", .number (.ofInt Severity.error.number)), ("location", .record location)]

def decodeError (code detail sectionName offset : HostValue) : Except Failure HostValue := do
  let f ← fault code detail sectionName offset
  pure (error "DecodeError" f.message
    (diagnostic code f.message [("section", sectionName), ("offset", offset)]))

def buildError (code detail index offset name : HostValue) : Except Failure HostValue := do
  let function := "function " ++ (← index.toText)
  let function ← if name.truthy then (fun name => s!"{function} \"{name}\"") <$> name.toText
    else pure function
  let detail ← detail.toText
  let place ← offset.hexText "offset"
  let message := s!"{detail} ({function}, offset 0x{place})"
  pure (error "BuildError" message
    (diagnostic code message [("section", .string "code"), ("offset", offset),
      ("functionIndex", index), ("functionName", name)]))

def compilerError (message : HostValue) : Except Failure HostValue :=
  error "CompilerError" <$> message.optionalText

/-! ### Diagnostics -/

/-- The word for a severity: what is found under its text where the words are kept, in which there
are also the members that every object has. -/
def severityWord (severity : HostValue) : Except Failure String := do
  let key ← severity.toText
  match (Json.index? key).bind Severity.ofNumber? with
  | some known => pure known.word
  | none => ((HostValue.inheritedByAll key).getD .undefined).toText

/-- One finding as a line, after the name of the file if there is one. -/
def line (file d : HostValue) : Except Failure String := do
  let start ← if file.truthy then (· ++ ": ") <$> file.toText else pure ""
  let word ← severityWord (← (d.get "severity").mapError .type)
  let code ← (d.field "code").toText
  let message ← (d.field "message").toText
  pure (start ++ word ++ " H" ++ code ++ ": " ++ message)

def listed (list : HostValue) : Except Failure (List HostValue) := do
  match list with
  | .array items => pure items
  | other => do
    let _ ← (other.get "map").mapError .type
    throw (.type (.notFunction "diagnostics.map"))

def lines (file list : HostValue) : Except Failure String := do
  let texts ← (← listed list).mapM (line file)
  pure ("\n".intercalate texts)

def transpileError (list : HostValue) : Except Failure HostValue := do
  let count ← (← (list.get "length").mapError .type).toText
  let text ← lines .undefined list
  pure (error "TranspileError" s!"Transpilation failed with {count} error(s):\n{text}")

end WasmScript.Finding
