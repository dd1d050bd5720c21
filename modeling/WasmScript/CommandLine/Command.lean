/-
  WasmScript/CommandLine/Command.lean
  ===================================
  **Commands** — transpiling and checking files, on any console.

  `run` reads the arguments, chooses the command and gives the exit code.  Each input is
  handled by itself: one that fails is reported and the rest still run, and the exit code
  says whether all went well.  Before anything is written, two inputs that would be
  written to one path are reported.
-/
import WasmScript.CommandLine.Arguments
import WasmScript.CommandLine.Console
import WasmScript.Transpile

namespace WasmScript.CommandLine

def helpText : String :=
  "herkos-ts: WebAssembly to memory-safe JavaScript

Usage: herkos-ts <command> [options] [files...]

Commands:
  transpile  Translate .wasm files to .js and .d.ts
  check      Decode and validate .wasm files without emitting
  help       Show this help message

Options:
  -o, --output <path>     Output .js file, or a directory (transpile)
  --format <esm|factory>  Output format (default: esm)
  --max-pages <n>         Memory page limit when the module declares none (default: 256)
  --runtime <specifier>   Module specifier of the runtime import (default: @herkos-ts/runtime)
  --no-declarations       Do not write .d.ts files
  --verbose               Print stage timings to stderr
  -h, --help              Show help

Examples:
  herkos-ts transpile add.wasm
  herkos-ts transpile add.wasm -o out/ --format factory
  herkos-ts check add.wasm
"

/-! ### Output paths -/

/-- The endings of scripts, with those of their declarations. -/
def scriptEndings : List (String × String) :=
  [(".js", ".d.ts"), (".cjs", ".d.cts"), (".mjs", ".d.mts")]

def scriptEnding? (path : String) : Option (String × String) :=
  scriptEndings.find? fun e => path.endsWith e.1

/-- Whether an output path names one script rather than a directory. -/
def isScriptPath (path : String) : Bool := (scriptEnding? path).isSome

/-- The path of the script of an input: beside it, or where the output is to go. -/
def outputPath (file : String) (output : Option String) : String :=
  let name := Path.withoutSuffix (Path.basename file) ".wasm" ++ ".js"
  match output with
  | none => Path.join (Path.dirname file) name
  | some output => if isScriptPath output then output else Path.join output name

def declarationPath (script : String) : String :=
  match scriptEnding? script with
  | some (ending, declared) => Path.withoutSuffix script ending ++ declared
  | none => script

/-- The first two inputs that would be written to one path, and that path. -/
def clash? (output : Option String) :
    (seen : List (String × String)) → (files : List String) → Option (String × String × String)
  | _, [] => none
  | seen, file :: rest =>
    let path := outputPath file output
    match seen.lookup path with
    | some previous => some (previous, file, path)
    | none => clash? output ((path, file) :: seen) rest

/-! ### Commands -/

/-- What is chosen about a transpilation. -/
structure Choices where
  output : Option String
  script : Script.Options
  declarations : Bool
  verbose : Bool
deriving DecidableEq, Repr, Inhabited

section
variable {m : Type → Type} [Monad m]

/-- Steps of which the first that fails ends the rest with its words. -/
abbrev Steps (m : Type → Type) := ExceptT String m

/-- Reads a module, reports the findings and gives the functions if there are none. -/
def analyzeFile (c : Console m) (file : String) (verbose : Bool) :
    Steps m (Option (Module × List IR.Function)) := do
  let bytes ← ExceptT.mk (c.readFile file)
  let analysis ← ExceptT.mk (pure ((Analysis.ofBytes bytes).mapError IR.AccessError.message))
  if verbose then
    let time ← ExceptT.lift c.elapsed
    ExceptT.lift (c.error (file ++ ": decoded and built in " ++ time))
  match analysis.module, analysis.diagnostics with
  | some module, [] => pure (some (module, analysis.functions))
  | _, diagnostics =>
    ExceptT.lift (c.error (Diagnostic.textAll (some file) diagnostics))
    pure none

/-- Transpiles a file; gives whether it could be transpiled. -/
def transpileFile (c : Console m) (choices : Choices) (file : String) : Steps m Bool := do
  match ← analyzeFile c file choices.verbose with
  | none => pure false
  | some (module, functions) =>
    let code ← ExceptT.mk
      (pure ((generate module functions choices.script).mapError Script.FormError.message))
    if choices.verbose then
      let time ← ExceptT.lift c.elapsed
      ExceptT.lift (c.error (file ++ ": generated in " ++ time))
    let path := outputPath file choices.output
    ExceptT.mk (c.makeDirectory (Path.dirname path))
    ExceptT.mk (c.writeFile path code)
    if choices.declarations then
      ExceptT.mk (c.writeFile (declarationPath path) (declare module choices.script))
    ExceptT.lift (c.log ("Transpiled " ++ file ++ " -> " ++ path))
    pure true

/-- Checks a file; gives whether it is valid. -/
def checkFile (c : Console m) (verbose : Bool) (file : String) : Steps m Bool := do
  match ← analyzeFile c file verbose with
  | none => pure false
  | some (_, functions) =>
    ExceptT.lift (c.log (file ++ s!": OK ({functions.length} functions)"))
    pure true

/-- Handles files in order; gives whether all went well.  A failure is reported with the file. -/
def forFiles (c : Console m) (handle : String → Steps m Bool) : List String → m Bool
  | [] => pure true
  | file :: rest => do
    let good ← do
      match ← (handle file).run with
      | .ok good => pure good
      | .error message =>
        c.error (file ++ ": " ++ message)
        pure false
    let others ← forFiles c handle rest
    pure (good && others)

/-- Prints an error; gives the exit code of a failure. -/
def complain (c : Console m) (message : String) : m Nat := do
  c.error ("Error: " ++ message)
  pure 1

def exitCode (good : Bool) : Nat := if good then 0 else 1

def transpileCommand (c : Console m) (choices : Choices) (files : List String) : m Nat :=
  if files.isEmpty then complain c "No input files specified"
  else if choices.output.any isScriptPath && decide (1 < files.length) then
    complain c "--output names a file but several inputs were given"
  else
    match clash? choices.output [] files with
    | some (previous, file, path) =>
      complain c (previous ++ " and " ++ file ++ " would both be written to " ++ path)
    | none => exitCode <$> forFiles c (transpileFile c choices) files

def checkCommand (c : Console m) (verbose : Bool) (files : List String) : m Nat :=
  if files.isEmpty then complain c "No input files specified"
  else exitCode <$> forFiles c (checkFile c verbose) files

/-- The number of pages that a text of digits gives, if it is not too large. -/
def pagesOf? (text : String) : Option Nat :=
  if text ≠ "" ∧ text.toList.all fun c => decide ('0' ≤ c ∧ c ≤ '9') then
    let n := text.toList.foldl (fun n c => 10 * n + (c.toNat - 48)) 0
    if n ≤ LinearMemory.maxPages then some n else none
  else none

def pages (s : Settings) : Except String Nat :=
  match s.maxPages with
  | none => .ok (Script.Options.maxPages {})
  | some text =>
    match pagesOf? text with
    | some n => .ok n
    | none =>
      .error ("--max-pages must be an integer from 0 to " ++ toString LinearMemory.maxPages
        ++ ", got " ++ text)

def runTranspile (c : Console m) (s : Settings) (files : List String) : m Nat :=
  match Script.Format.ofName? s.format with
  | none => complain c ("--format must be esm or factory, got " ++ s.format)
  | some format =>
    match pages s with
    | .error message => complain c message
    | .ok maxPages =>
      let choices : Choices :=
        { output := s.output
          script := ⟨format, maxPages, s.runtime⟩
          declarations := !s.noDeclarations
          verbose := s.verbose }
      transpileCommand c choices files

/-- Runs a command line; gives the exit code.  Help that was not asked for is a failure. -/
def run (c : Console m) (args : List String) : m Nat :=
  match Settings.ofArguments args with
  | .error e => complain c e.message
  | .ok s =>
    let help (code : Nat) : m Nat := do
      c.log helpText
      pure code
    if s.help then help 0
    else
      match s.positionals with
      | "transpile" :: files => runTranspile c s files
      | "check" :: files => checkCommand c s.verbose files
      | [] => help 0
      | "help" :: _ => help 0
      | _ => help 1

end

end WasmScript.CommandLine
