/-
  WasmScript/Transpile.lean
  =========================
  **From bytes to a script** — decoding, building and generating in one step.

  `Analysis.ofBytes` gathers every finding about a module instead of stopping at the
  first: a fault of the bytes ends it, faults of function bodies are gathered function by
  function.  `transpile` gives a script only for a module without findings.
-/
import WasmScript.Module.Decode.Module
import WasmScript.IR.Build
import WasmScript.Script.Declarations
import WasmScript.Number.Decimal
import WasmScript.Memory

namespace WasmScript

open WasmScript.Script (FormError)

/-- What is found out about the bytes of a module. -/
structure Analysis where
  /-- The module, if its bytes can be read. -/
  module : Option Module
  /-- The functions that are valid, in the order of their indices. -/
  functions : List IR.Function
  diagnostics : List Diagnostic
deriving Inhabited

namespace Analysis

def ofModule (m : Module) : Except IR.AccessError Analysis := do
  let result ← IR.buildModule m
  pure ⟨some m, result.functions, result.diagnostics⟩

def ofBytes (bytes : ByteArray) : Except IR.AccessError Analysis :=
  match Module.decode bytes with
  | .error e => .ok ⟨none, [], [e.toDiagnostic]⟩
  | .ok m => ofModule m

end Analysis

/-- What may be chosen about a transpilation. -/
structure TranspileOptions where
  format : Script.Format := .esm
  /-- The most pages of a memory that declares no maximum. -/
  maxPages : Number := .ofInt 256
  /-- Where the script finds its helpers. -/
  runtimeSpecifier : String := "@herkos-ts/runtime"
  /-- Whether type declarations are wanted as well. -/
  declarations : Bool := true
deriving DecidableEq, Repr, Inhabited

namespace TranspileOptions

def pages? (o : TranspileOptions) : Option Nat :=
  match o.maxPages.toInteger? with
  | some (.ofNat n) => if n ≤ LinearMemory.maxPages then some n else none
  | _ => none

end TranspileOptions

/-- A module without findings, its functions, and what was chosen about its script. -/
structure Checked where
  module : Module
  functions : List IR.Function
  options : Script.Options
deriving Inhabited

/-- A script and, if they were wanted, its type declarations. -/
structure Output extends Checked where
  code : String
  declarations : Option String
deriving Inhabited

inductive TranspileError where
  /-- The bound on pages is no number of pages. -/
  | maxPages (found : String)
  /-- There are findings about the module. -/
  | invalid (diagnostics : List Diagnostic)
  | access (e : IR.AccessError)
  | form (e : FormError)

namespace TranspileError

def message : TranspileError → String
  | .maxPages found =>
    "maxPages must be an integer from 0 to " ++ toString LinearMemory.maxPages ++ ", got "
      ++ found
  | .invalid diagnostics =>
    s!"Transpilation failed with {diagnostics.length} error(s):\n"
      ++ Diagnostic.textAll none diagnostics
  | .access e => e.message
  | .form e => e.message

end TranspileError

def generate (m : Module) (functions : List IR.Function) (options : Script.Options) :
    Except FormError String :=
  Script.Program.text <$> Script.Program.ofModule m functions options

def declare (m : Module) (options : Script.Options) : String :=
  (Script.Declarations.ofModule m options).text

/-- The module of some bytes, if there are no findings about it. -/
def check (bytes : ByteArray) (options : TranspileOptions) : Except TranspileError Checked := do
  let some pages := options.pages? | throw (.maxPages options.maxPages.text)
  let analysis ← (Analysis.ofBytes bytes).mapError .access
  match analysis.module, analysis.diagnostics with
  | some m, [] => pure ⟨m, analysis.functions, ⟨options.format, pages, options.runtimeSpecifier⟩⟩
  | _, diagnostics => throw (.invalid diagnostics)

def transpile (bytes : ByteArray) (options : TranspileOptions) : Except TranspileError Output := do
  let c ← check bytes options
  let code ← (generate c.module c.functions c.options).mapError .form
  pure
    { c with
      code
      declarations := if options.declarations then some (declare c.module c.options) else none }

end WasmScript
