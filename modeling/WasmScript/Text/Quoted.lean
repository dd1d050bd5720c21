/-
  WasmScript/Text/Quoted.lean
  ===========================
  **Quoted texts** — string literals that end nowhere but at their own closing quote.

  Names come from untrusted modules and are printed into code and into line comments.
  `Quoted.encodeJson` escapes the quote, the backslash and the control characters;
  `Quoted.encode` escapes the two line separators U+2028 and U+2029 as well, so that no
  character of the literal can end the line it stands on.  `Quoted.encodeShown` is for
  readers alone: it takes whichever quote the text does not hold.

  A host may hold texts in which a surrogate stands alone.  It is escaped, while a pair of
  surrogates is a character and stays.  `Quoted.encodeUnits` is the same encoding on the
  units of any text.
-/
import WasmScript.Text.Hex
import WasmScript.Text.Units

namespace WasmScript.Quoted

/-- A unit as `\u` and four digits. -/
def escapeUnit (n : Nat) : List Char :=
  ['\\', 'u', Hex.digit (n / 4096 % 16), Hex.digit (n / 256 % 16),
    Hex.digit (n / 16 % 16), Hex.digit (n % 16)]

/-- A character inside a literal, before the line separators are considered. -/
def escapeJsonChar (c : Char) : List Char :=
  if c = '"' then ['\\', '"']
  else if c = '\\' then ['\\', '\\']
  else if c = '\x08' then ['\\', 'b']
  else if c = '\t' then ['\\', 't']
  else if c = '\n' then ['\\', 'n']
  else if c = '\x0c' then ['\\', 'f']
  else if c = '\r' then ['\\', 'r']
  else if c.toNat < 0x20 then escapeUnit c.toNat
  else
    match Units.surrogate? c with
    | some u => escapeUnit u
    | none => [c]

/-- A character inside a literal that may stand in a line comment. -/
def escapeChar (c : Char) : List Char :=
  if c.toNat = 0x2028 ∨ c.toNat = 0x2029 then escapeUnit c.toNat else escapeJsonChar c

/-- A text inside a literal, each character written by `escape` but for the two halves of a pair,
which stay. -/
def escapeChars (escape : Char → List Char) : List Char → List Char
  | [] => []
  | [c] => escape c
  | c :: d :: rest =>
    if (Units.pair? c d).isSome then c :: d :: escapeChars escape rest
    else escape c ++ escapeChars escape (d :: rest)

/-- A text between quotes, each character written by `escape`. -/
def wrap (escape : Char → List Char) (s : List Char) : List Char :=
  '"' :: escapeChars escape s ++ ['"']

def encodeJson (s : String) : String := String.ofList (wrap escapeJsonChar s.toList)

/-- A string literal that holds no line terminator. -/
def encode (s : String) : String := String.ofList (wrap escapeChar s.toList)

/-! ### Texts in complaints -/

/-- The quote around a text that is shown to a reader: the first of three that the text does not
hold itself. -/
def shownQuote (s : List Char) : Char :=
  if !s.contains '\'' then '\''
  else if !s.contains '"' then '"'
  else if !s.contains '\u0060' then '\u0060'
  else '\''

/-- A code below 256 as `\x` and two digits. -/
def escapeByte (n : Nat) : List Char :=
  ['\\', 'x', (Hex.digit (n / 16 % 16)).toUpper, (Hex.digit (n % 16)).toUpper]

/-- A character of a text that is shown between some quotes. -/
def showChar (quote c : Char) : List Char :=
  if c = quote then ['\\', c]
  else if c = '"' then [c]
  else if c.toNat = 0x0b ∨ (0x7f ≤ c.toNat ∧ c.toNat < 0xa0) then escapeByte c.toNat
  else if c.toNat < 0x20 ∧ (escapeJsonChar c).length ≠ 2 then escapeByte c.toNat
  else escapeJsonChar c

def encodeShown (s : String) : String :=
  let quote := shownQuote s.toList
  String.ofList (quote :: escapeChars (showChar quote) s.toList ++ [quote])

/-! ### Texts of units -/

/-- A unit inside a literal that is not half of a pair. -/
def escapeLoneUnit (u : Nat) : List Nat :=
  if Units.isHighSurrogate u || Units.isLowSurrogate u then (escapeUnit u).map Char.toNat
  else (escapeChar (Char.ofNat u)).map Char.toNat

def escapeUnits : List Nat → List Nat
  | [] => []
  | [u] => escapeLoneUnit u
  | u :: v :: rest =>
    if Units.isHighSurrogate u && Units.isLowSurrogate v then u :: v :: escapeUnits rest
    else escapeLoneUnit u ++ escapeUnits (v :: rest)

def encodeUnits (text : List Nat) : List Nat := '"'.toNat :: escapeUnits text ++ ['"'.toNat]

end WasmScript.Quoted
