/-
  WasmScript/Json/Parser.lean
  ===========================
  **Reading JSON** — the value that a text is, or what is wrong with the text and where.

  Each scanner takes the characters that are left and gives what it read with the
  characters after it.  One that stops gives the characters it stopped at, so that the
  place of a fault is the length of what comes before them.  A surrogate that is written
  alone is carried by the character that is reserved for it.
-/
import WasmScript.Json.Basic
import WasmScript.Number.Numeral
import WasmScript.Text.Units

namespace WasmScript.Json

inductive Complaint where
  /-- A character that cannot stand where it does, or the end of the text. -/
  | unexpected
  /-- Something that is missing or malformed. -/
  | malformed (what : String)
  /-- Characters after the value. -/
  | trailing
deriving DecidableEq, Repr, Inhabited

/-- Where reading stopped: the complaint and the characters from there on. -/
structure Stop where
  complaint : Complaint
  rest : List Char
deriving DecidableEq, Repr, Inhabited

/-- Reads something from the front of a text. -/
abbrev Scanner (α : Type) := List Char → Except Stop (α × List Char)

def stop {α : Type} (what : String) (rest : List Char) : Except Stop α :=
  .error ⟨.malformed what, rest⟩

/-! ### Words and numbers -/

def skipBlanks (s : List Char) : List Char :=
  s.dropWhile fun c => c == ' ' || c == '\t' || c == '\n' || c == '\r'

/-- Reads a word; stops where the text departs from it. -/
def word (meaning : Json) : List Char → Scanner Json
  | [], s => .ok (meaning, s)
  | c :: cs, d :: s => if c = d then word meaning cs s else .error ⟨.unexpected, d :: s⟩
  | _ :: _, [] => .error ⟨.unexpected, []⟩

/-- Reads digits, of which there must be one. -/
def digits (complaint : String) : Scanner (List Char) := fun s =>
  let found := s.takeWhile Numeral.isDigit
  if found.isEmpty then stop complaint s else .ok (found, s.dropWhile Numeral.isDigit)

/-- Reads a fraction, if there is one. -/
def fraction : Scanner (List Char)
  | '.' :: s => digits "Unterminated fractional number" s
  | s => .ok ([], s)

/-- Reads an exponent, if there is one. -/
def exponent : Scanner Int
  | e :: s =>
    if e = 'e' ∨ e = 'E' then
      let (negative, s) := Numeral.unsigned s
      match digits "Exponent part is missing a number" s with
      | .ok (found, s) => .ok (Number.signed negative (Numeral.ofDigits 10 0 found), s)
      | .error e => .error e
    else .ok (0, e :: s)
  | [] => .ok (0, [])

/-- Reads the digits before the point, where a zero stands alone. -/
def whole : Scanner (List Char) := fun s =>
  match digits "No number after minus sign" s with
  | .ok ('0' :: d :: more, s) => .error ⟨.unexpected, d :: more ++ s⟩
  | other => other

/-- Reads a number without its sign. -/
def magnitude (negative : Bool) : Scanner Json := fun s => do
  let (high, s) ← whole s
  let (low, s) ← fraction s
  let (power, s) ← exponent s
  let n := Numeral.ofDigits 10 (Numeral.ofDigits 10 0 high) low
  pure (.number (.ofDecimal negative n (power - low.length)), s)

/-! ### Strings -/

/-- The characters read so far, with a first half of a pair that was left alone. -/
def settle (high : Option Nat) (read : List Char) : List Char :=
  match high with
  | some h => Units.alone h :: read
  | none => read

def unit? (digits : List Char) : Option Nat :=
  if Numeral.areDigits 16 digits then some (Numeral.ofDigits 16 0 digits) else none

/-- The characters read so far and one more unit; a first half of a pair waits for the second. -/
def addUnit (high : Option Nat) (u : Nat) (read : List Char) : Option Nat × List Char :=
  if Units.isHighSurrogate u then (some u, settle high read)
  else if Units.isLowSurrogate u then
    match high with
    | some h => (none, (Units.carry (Units.paired h u)).reverse ++ read)
    | none => (none, Units.alone u :: read)
  else (none, Char.ofNat u :: settle high read)

/-- The character that a letter after a backslash stands for. -/
def escaped? (c : Char) : Option Char :=
  match c with
  | '"' => some '"'
  | '\\' => some '\\'
  | '/' => some '/'
  | 'b' => some '\x08'
  | 'f' => some '\x0c'
  | 'n' => some '\n'
  | 'r' => some '\r'
  | 't' => some '\t'
  | _ => none

def stringTail (high : Option Nat) (read : List Char) : Scanner String
  | [] => stop "Unterminated string" []
  | '"' :: s => .ok (String.ofList (settle high read).reverse, s)
  | '\\' :: 'u' :: a :: b :: c :: d :: s =>
    match unit? [a, b, c, d] with
    | some u =>
      let (high, read) := addUnit high u read
      stringTail high read s
    | none => stop "Bad Unicode escape" (a :: b :: c :: d :: s)
  | '\\' :: c :: s =>
    match escaped? c with
    | some e => stringTail none (e :: settle high read) s
    | none => stop "Bad escaped character" (c :: s)
  | ['\\'] => stop "Unterminated string" []
  | c :: s =>
    if c.toNat < 0x20 then stop "Bad control character in string literal" (c :: s)
    else stringTail none (c :: settle high read) s

/-! ### Values -/

/-- Reads the key of a member and the colon after it. -/
def key (complaint : String) : Scanner String := fun s =>
  match skipBlanks s with
  | '"' :: s => do
    let (k, s) ← stringTail none [] s
    match skipBlanks s with
    | ':' :: s => pure (k, s)
    | s => stop "Expected ':' after property name" s
  | s => stop complaint s

mutual
def value : (fuel : Nat) → Scanner Json
  | 0, s => .error ⟨.unexpected, s⟩
  | fuel + 1, s =>
    match skipBlanks s with
    | [] => .error ⟨.unexpected, []⟩
    | '"' :: s => do
      let (t, s) ← stringTail none [] s
      pure (.string t, s)
    | '[' :: s =>
      match skipBlanks s with
      | ']' :: s => .ok (.array [], s)
      | s => moreItems fuel [] s
    | '\x7b' :: s =>
      match skipBlanks s with
      | '\x7d' :: s => .ok (.object [], s)
      | s => moreMembers fuel [] "Expected property name or '\x7d'" s
    | '-' :: s => magnitude true s
    | c :: s =>
      if Numeral.isDigit c then magnitude false (c :: s)
      else if c = 't' then word (.bool true) "true".toList (c :: s)
      else if c = 'f' then word (.bool false) "false".toList (c :: s)
      else if c = 'n' then word .null "null".toList (c :: s)
      else .error ⟨.unexpected, c :: s⟩

/-- Reads the items of an array, of which some were read, the last first. -/
def moreItems : (fuel : Nat) → List Json → Scanner Json
  | 0, _, s => .error ⟨.unexpected, s⟩
  | fuel + 1, read, s =>
    match value fuel s with
    | .error e => .error e
    | .ok (item, s) =>
      match skipBlanks s with
      | ',' :: s => moreItems fuel (item :: read) s
      | ']' :: s => .ok (.array (item :: read).reverse, s)
      | s => stop "Expected ',' or ']' after array element" s

/-- Reads the members of an object, of which some were read, the last first. -/
def moreMembers : (fuel : Nat) → List (String × Json) → (complaint : String) → Scanner Json
  | 0, _, _, s => .error ⟨.unexpected, s⟩
  | fuel + 1, read, complaint, s =>
    match key complaint s with
    | .error e => .error e
    | .ok (k, s) =>
      match value fuel s with
      | .error e => .error e
      | .ok (v, s) =>
        match skipBlanks s with
        | ',' :: s =>
          moreMembers fuel ((k, v) :: read) "Expected double-quoted property name" s
        | '\x7d' :: s => .ok (.object (listed ((k, v) :: read).reverse), s)
        | s => stop "Expected ',' or '\x7d' after property value" s
end

/-! ### Texts -/

/-- A text that is no JSON value, and where reading it stopped. -/
structure Fault where
  text : List Char
  stopped : Stop
deriving DecidableEq, Repr, Inhabited

namespace Fault

def before (f : Fault) : List Char := f.text.take (f.text.length - f.stopped.rest.length)

def units (s : List Char) : List Nat := s.flatMap Units.ofChar

/-- The place of the fault, as messages mention it. -/
def place (f : Fault) : String :=
  let line := f.before.count '\n' + 1
  let column := (units (f.before.reverse.takeWhile (· ≠ '\n'))).length + 1
  s!"position {(units f.before).length} (line {line} column {column})"

/-- The units around a fault that are shown: ten before it and ten from it on, and all of a short
text. -/
def context (f : Fault) : String :=
  let before := units f.before
  let rest := units f.stopped.rest
  if before.length + rest.length ≤ 20 then "\"" ++ Units.toText (before ++ rest) ++ "\""
  else
    let shown := before.drop (before.length - 10) ++ rest.take 10
    (if before.length < 10 then "" else "...") ++ "\"" ++ Units.toText shown ++ "\""
      ++ (if 10 ≤ before.length ∧ rest.length ≤ 10 then "" else "...")

def firstUnit (c : Char) : String := Units.toText ((Units.ofChar c).take 1)

def message (f : Fault) : String :=
  match f.stopped.complaint, f.stopped.rest with
  | .malformed what, _ => what ++ " in JSON at " ++ f.place
  | .trailing, _ => "Unexpected non-whitespace character after JSON at " ++ f.place
  | .unexpected, [] => "Unexpected end of JSON input"
  | .unexpected, c :: _ =>
    if c = '"' then "Unexpected string in JSON at " ++ f.place
    else if Numeral.isDigit c ∨ c = '-' then "Unexpected number in JSON at " ++ f.place
    else "Unexpected token '" ++ firstUnit c ++ "', " ++ f.context ++ " is not valid JSON"

end Fault

/-- The value that characters are; every value takes at least one of them. -/
def ofChars (s : List Char) : Except Stop Json := do
  let (v, s) ← value (2 * s.length + 1) s
  match skipBlanks s with
  | [] => pure v
  | s => .error ⟨.trailing, s⟩

def parse (text : String) : Except Fault Json :=
  (ofChars text.toList).mapError fun stopped => ⟨text.toList, stopped⟩

end WasmScript.Json
