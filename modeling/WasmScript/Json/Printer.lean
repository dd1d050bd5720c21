/-
  WasmScript/Json/Printer.lean
  ============================
  **Writing JSON** — the text of a JSON value on one line.

  Numbers are written as hosts write them; a number that has no JSON text is `null`.
  Every character outside of ASCII is written by its units, so that the text is the same
  in any encoding.
-/
import WasmScript.Json.Basic
import WasmScript.Text.Quoted

namespace WasmScript.Json

/-- A character inside a literal of ASCII characters. -/
def escapeChar (c : Char) : List Char :=
  if c.toNat < 0x7f then Quoted.escapeJsonChar c
  else (Units.ofChar c).flatMap Quoted.escapeUnit

def printString (s out : String) : String :=
  (s.foldl (fun (out : String) c =>
    if 0x20 ≤ c.toNat ∧ c.toNat < 0x7f ∧ c ≠ '"' ∧ c ≠ '\\' then out.push c
    else (escapeChar c).foldl String.push out) (out.push '"')).push '"'

def numberText : Number → String
  | .finite negative m e => Number.text (.finite negative m e)
  | _ => "null"

mutual
def print : Json → String → String
  | .null, out => out ++ "null"
  | .bool b, out => out ++ (if b then "true" else "false")
  | .number n, out => out ++ numberText n
  | .string s, out => printString s out
  | .array items, out => (printItems items true (out.push '[')).push ']'
  | .object members, out => (printMembers members true (out.push '\x7b')).push '\x7d'

/-- Appends items to a text, with commas between them. -/
def printItems : List Json → (first : Bool) → String → String
  | [], _, out => out
  | item :: rest, first, out =>
    printItems rest false (print item (if first then out else out.push ','))

/-- Appends members to a text, with commas between them. -/
def printMembers : List (String × Json) → (first : Bool) → String → String
  | [], _, out => out
  | (key, value) :: rest, first, out =>
    let out := printString key (if first then out else out.push ',')
    printMembers rest false (print value (out.push ':'))
end

def text (j : Json) : String := print j ""

end WasmScript.Json
