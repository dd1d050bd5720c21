/-
  WasmScript/CommandLine/Arguments.lean
  =====================================
  **Command lines** — how arguments are read as options, values and positional arguments.

  Options are known by a long name and perhaps by a letter.  Letters may be written
  together, a value may follow its option directly or as the next argument, and nothing
  after `--` is an option.  `Settings.ofArguments` reads all arguments first and then
  checks the options in the order in which they were written; the last of several wins.
-/
import WasmScript.Text.Quoted
import WasmScript.Script.Program

namespace WasmScript.CommandLine

/-! ### Options -/

inductive Setting where
  | help
  | output
  | format
  | maxPages
  | runtime
  | noDeclarations
  | verbose
deriving DecidableEq, Repr, Inhabited

namespace Setting

def all : List Setting := [.help, .output, .format, .maxPages, .runtime, .noDeclarations, .verbose]

def name : Setting → String
  | .help => "help"
  | .output => "output"
  | .format => "format"
  | .maxPages => "max-pages"
  | .runtime => "runtime"
  | .noDeclarations => "no-declarations"
  | .verbose => "verbose"

def letter? : Setting → Option Char
  | .help => some 'h'
  | .output => some 'o'
  | _ => none

def takesValue : Setting → Bool
  | .output | .format | .maxPages | .runtime => true
  | _ => false

def ofName? (name : String) : Option Setting := all.find? fun s => s.name == name

def ofLetter? (c : Char) : Option Setting := all.find? fun s => s.letter? == some c

/-- The names of an option as messages show them. -/
def title (s : Setting) : String :=
  (s.letter?.elim "" fun c => "-" ++ String.singleton c ++ ", ") ++ "--" ++ s.name

end Setting

/-! ### Tokens -/

inductive Token where
  /-- An option as it was written, perhaps with a value, which stands in the same argument or is
  the next one. -/
  | option (name written : String) (value : Option String) (isInline : Bool)
  | positional (value : String)
deriving DecidableEq, Repr, Inhabited

/-- What an argument looks like. -/
inductive Shape where
  /-- Two dashes, after which there are no options. -/
  | terminator
  | letter (c : Char)
  | letters (cs : List Char)
  | letterWithValue (c : Char) (value : String)
  | long (name : String)
  | longWithValue (name value : String)
  | plain
deriving DecidableEq, Repr, Inhabited

def letterTakesValue (c : Char) : Bool := (Setting.ofLetter? c).any Setting.takesValue

/-- The shape of an argument, from the characters for its units: a letter is one unit. -/
def shapeOf : List Char → Shape
  | ['-', c] => if c = '-' then .terminator else .letter c
  | '-' :: '-' :: rest =>
    if '=' ∈ rest.drop 1 then
      .longWithValue (Units.join (rest.takeWhile (· ≠ '=')))
        (Units.join ((rest.dropWhile (· ≠ '=')).drop 1))
    else .long (Units.join rest)
  | '-' :: c :: rest =>
    if letterTakesValue c then .letterWithValue c (Units.join rest) else .letters (c :: rest)
  | _ => .plain

/-- The arguments that letters written together stand for.  A letter that takes a value takes
what follows it. -/
def spread : List Char → List String
  | [] => []
  | c :: rest =>
    if letterTakesValue c ∧ rest ≠ [] then [Units.join ('-' :: c :: rest)]
    else String.ofList ['-', c] :: spread rest

/-- The long name behind a letter; a letter that is unknown stands for itself. -/
def nameOfLetter (c : Char) : String :=
  ((Setting.ofLetter? c).map Setting.name).getD (String.singleton c)

def nameTakesValue (name : String) : Bool := (Setting.ofName? name).any Setting.takesValue

/-- The tokens of some arguments, after those that letters written together stand for. -/
def tokens : (spreadOut : List String) → (args : List String) → List Token
  | [], [] => []
  | arg :: more, args =>
    match shapeOf (Units.singles arg) with
    | .terminator => (more ++ args).map .positional
    | .letter c =>
      if letterTakesValue c then
        match args with
        | value :: rest => .option (nameOfLetter c) arg (some value) false :: tokens more rest
        | [] => .option (nameOfLetter c) arg none false :: tokens more []
      else .option (nameOfLetter c) arg none false :: tokens more args
    | .letterWithValue c value =>
      .option (nameOfLetter c) (String.ofList ['-', c]) (some value) true :: tokens more args
    | _ => .positional arg :: tokens more args
  | [], arg :: args =>
    match shapeOf (Units.singles arg) with
    | .terminator => args.map .positional
    | .letters cs => tokens (spread cs) args
    | .letter c =>
      match letterTakesValue c, args with
      | true, value :: rest => .option (nameOfLetter c) arg (some value) false :: tokens [] rest
      | _, args => .option (nameOfLetter c) arg none false :: tokens [] args
    | .letterWithValue c value =>
      .option (nameOfLetter c) (String.ofList ['-', c]) (some value) true :: tokens [] args
    | .long name =>
      match nameTakesValue name, args with
      | true, value :: rest => .option name arg (some value) false :: tokens [] rest
      | _, args => .option name arg none false :: tokens [] args
    | .longWithValue name value => .option name ("--" ++ name) (some value) true :: tokens [] args
    | .plain => .positional arg :: tokens [] args
termination_by spreadOut args => (args.length, spreadOut.length)

/-! ### Settings -/

inductive UsageError where
  | unknown (written : String)
  | missingValue (setting : Setting)
  | unexpectedValue (setting : Setting)
  /-- A value that looks like an option. -/
  | ambiguous (name written : String)
deriving DecidableEq, Repr, Inhabited

namespace UsageError

def message : UsageError → String
  | .unknown written =>
    "Unknown option '" ++ written ++ "'. To specify a positional argument starting with a '-', "
      ++ "place it at the end of the command after '--', as in '-- " ++ Quoted.encodeJson written
  | .missingValue setting => "Option '" ++ setting.title ++ " <value>' argument missing"
  | .unexpectedValue setting => "Option '" ++ setting.title ++ "' does not take an argument"
  | .ambiguous name written =>
    let example_ :=
      if written.startsWith "--" then "'" ++ written ++ "=-XYZ'"
      else "'--" ++ name ++ "=-XYZ' or '" ++ written ++ "-XYZ'"
    "Option '" ++ written ++ "' argument is ambiguous.\n"
      ++ "Did you forget to specify the option argument for '" ++ written ++ "'?\n"
      ++ "To specify an option argument starting with a dash use " ++ example_ ++ "."

end UsageError

structure Settings where
  help : Bool := false
  output : Option String := none
  format : String := "esm"
  maxPages : Option String := none
  runtime : String := (Script.Options.runtimeSpecifier {})
  noDeclarations : Bool := false
  verbose : Bool := false
  positionals : List String := []
deriving DecidableEq, Repr, Inhabited

namespace Settings

def set (s : Settings) (setting : Setting) (value : String) : Settings :=
  match setting with
  | .help => { s with help := true }
  | .output => { s with output := some value }
  | .format => { s with format := value }
  | .maxPages => { s with maxPages := some value }
  | .runtime => { s with runtime := value }
  | .noDeclarations => { s with noDeclarations := true }
  | .verbose => { s with verbose := true }

def looksLikeOption (value : String) : Bool :=
  decide (1 < value.length) && value.toList.head? == some '-'

def take (s : Settings) : Token → Except UsageError Settings
  | .positional value => .ok { s with positionals := s.positionals ++ [value] }
  | .option name written value isInline =>
    match Setting.ofName? name with
    | none => .error (.unknown written)
    | some setting =>
      match setting.takesValue, value with
      | true, none => .error (.missingValue setting)
      | false, some _ => .error (.unexpectedValue setting)
      | false, none => .ok (s.set setting "")
      | true, some v =>
        if !isInline && looksLikeOption v then .error (.ambiguous name written)
        else .ok (s.set setting v)

def takeAll (s : Settings) : List Token → Except UsageError Settings
  | [] => .ok s
  | t :: ts => do
    let s ← s.take t
    s.takeAll ts

def ofArguments (args : List String) : Except UsageError Settings :=
  ({} : Settings).takeAll (tokens [] args)

end Settings

end WasmScript.CommandLine
