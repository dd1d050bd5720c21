/-
  WasmScript/Number/Numeral.lean
  ==============================
  **Numerals** — the number, or the big integer, that a text stands for.

  A host uses a text as a number by reading it as a numeral between blanks: a decimal with
  a sign, a fraction and an exponent, or digits of base two, eight or sixteen after `0b`,
  `0o` or `0x`, which take no sign.  An empty text is zero, and a text that is no numeral
  is not a number.  A big integer is read from the same numerals, but for fractions,
  exponents and infinities.

  Blanks are those of ASCII and its line terminators, the byte order mark, the two line
  separators U+2028 and U+2029, and every character that Unicode calls a space.
-/
import WasmScript.Number.Arithmetic
import WasmScript.Text.Hex

namespace WasmScript

/-! ### Blanks -/

namespace Blank

def points : List Nat :=
  [0x09, 0x0A, 0x0B, 0x0C, 0x0D, 0x20, 0xA0, 0x1680, 0x2000, 0x2001, 0x2002, 0x2003, 0x2004,
   0x2005, 0x2006, 0x2007, 0x2008, 0x2009, 0x200A, 0x2028, 0x2029, 0x202F, 0x205F, 0x3000,
   0xFEFF]

def isBlank (c : Char) : Bool := points.contains c.toNat

/-- A text without the blanks at both of its ends. -/
def trim (s : List Char) : List Char :=
  ((s.dropWhile isBlank).reverse.dropWhile isBlank).reverse

end Blank

/-! ### Digits -/

namespace Numeral

def isDigit (c : Char) : Bool := '0' ≤ c && c ≤ '9'

/-- The number that some digits write in a base, after the digits of `high`. -/
def ofDigits (base high : Nat) (digits : List Char) : Nat :=
  digits.foldl (fun n c => base * n + (Hex.digitValue? c).getD 0) high

/-- Whether there are digits, and all of them are digits of a base. -/
def areDigits (base : Nat) (digits : List Char) : Bool :=
  !digits.isEmpty && digits.all fun c => (Hex.digitValue? c).any fun d => d < base

def base? (letter : Char) : Option Nat :=
  match letter with
  | 'b' | 'B' => some 2
  | 'o' | 'O' => some 8
  | 'x' | 'X' => some 16
  | _ => none

def based? : List Char → Option Nat
  | '0' :: letter :: digits => do
    let base ← base? letter
    if areDigits base digits then some (ofDigits base 0 digits) else none
  | _ => none

/-- Whether a numeral has a minus sign, and what comes after its sign. -/
def unsigned : List Char → Bool × List Char
  | '-' :: rest => (true, rest)
  | '+' :: rest => (false, rest)
  | rest => (false, rest)

/-- The exponent that a text is: nothing is an exponent of zero. -/
def exponent? : List Char → Option Int
  | [] => some 0
  | e :: rest =>
    let (negative, digits) := unsigned rest
    if (e = 'e' ∨ e = 'E') ∧ areDigits 10 digits then
      let n := ofDigits 10 0 digits
      some (if negative then -(n : Int) else n)
    else none

/-- The digits after a point, if there is one, and the rest. -/
def fraction : List Char → List Char × List Char
  | '.' :: rest => (rest.takeWhile isDigit, rest.dropWhile isDigit)
  | rest => ([], rest)

/-- The double that a decimal without a sign reads as. -/
def decimal? (negative : Bool) (s : List Char) : Option Number := do
  let whole := s.takeWhile isDigit
  let (part, rest) := fraction (s.dropWhile isDigit)
  let exponent ← exponent? rest
  if whole.isEmpty && part.isEmpty then none
  else some (.ofDecimal negative (ofDigits 10 (ofDigits 10 0 whole) part) (exponent - part.length))

def toNumber (text : String) : Number :=
  let s := Blank.trim text.toList
  let (negative, magnitude) := unsigned s
  if s.isEmpty then .ofInt 0
  else
    match based? s with
    | some n => Number.round (.finite false n 0)
    | none =>
      if magnitude = "Infinity".toList then .infinite negative
      else (decimal? negative magnitude).getD .nan

def toInteger? (text : String) : Option Int :=
  let s := Blank.trim text.toList
  let (negative, magnitude) := unsigned s
  if s.isEmpty then some 0
  else
    match based? s with
    | some n => some n
    | none =>
      if areDigits 10 magnitude then some (Number.signed negative (ofDigits 10 0 magnitude))
      else none

end Numeral

end WasmScript
