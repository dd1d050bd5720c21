/-
  WasmScript/Text/Units.lean
  ==========================
  **UTF-16 units** — the view of a text on which script engines order names.

  `Units.ofString` lists the sixteen-bit units of a text: one for a character of the
  basic plane and a surrogate pair for any other.  `Units.le` compares two texts unit by
  unit, which differs from the order of code points: a surrogate pair comes before
  U+E000.

  A host may hold a text in which a surrogate stands alone.  The 2048 codes from U+10D800
  on, at the end of the last private plane, are reserved for this: in the texts of this
  library each stands for the surrogate that `Units.alone` moves there.  A character that
  has such a code itself is carried as its two surrogates, so that every list of units is
  the view of the text `Units.toText`.

  Wherever texts are made of characters alone, `Units.carried` takes them in and
  `Units.written` gives them out; `Units.written_carried` says that nothing is lost.
-/
namespace WasmScript.Units

/-! ### Surrogates -/

def isHighSurrogate (u : Nat) : Bool := 0xD800 ≤ u && u < 0xDC00

def isLowSurrogate (u : Nat) : Bool := 0xDC00 ≤ u && u < 0xE000

def paired (high low : Nat) : Nat := 0x10000 + (high - 0xD800) * 0x400 + (low - 0xDC00)

/-- The pair of surrogates that writes a code. -/
def split (n : Nat) : List Nat :=
  [0xD800 + (n - 0x10000) / 0x400, 0xDC00 + (n - 0x10000) % 0x400]

/-- Whether a code is one of those that stand for a surrogate. -/
def isReserved (n : Nat) : Bool := 0x10D800 ≤ n && n < 0x10E000

def alone (u : Nat) : Char := Char.ofNat (0x100000 + u)

def surrogate? (c : Char) : Option Nat :=
  if isReserved c.toNat then some (c.toNat - 0x100000) else none

/-- The characters that carry a code: two surrogates for one that is reserved, and its own
character for any other. -/
def carry (n : Nat) : List Char :=
  if isReserved n then (split n).map alone else [Char.ofNat n]

/-- The code that two characters write when each of them stands for its half of a pair. -/
def pair? (c d : Char) : Option Nat :=
  match surrogate? c, surrogate? d with
  | some high, some low =>
    if isHighSurrogate high && isLowSurrogate low then some (paired high low) else none
  | _, _ => none

/-! ### The units of a text -/

def ofChar (c : Char) : List Nat :=
  let n := c.toNat
  if n < 0x10000 then [n]
  else
    match surrogate? c with
    | some u => [u]
    | none => split n

def ofString (s : String) : List Nat := s.toList.flatMap ofChar

def count (s : String) : Nat := (ofString s).length

def single (u : Nat) : Char :=
  if isHighSurrogate u || isLowSurrogate u then alone u else Char.ofNat u

/-- The characters for units; halves of pairs that meet are one. -/
def toChars : List Nat → List Char
  | [] => []
  | [u] => [single u]
  | u :: v :: rest =>
    if isHighSurrogate u && isLowSurrogate v then carry (paired u v) ++ toChars rest
    else single u :: toChars (v :: rest)

def toText (units : List Nat) : String := String.ofList (toChars units)

/-- The characters for the units of a text, one each; the halves of a pair stand alone. -/
def singles (s : String) : List Char := (ofString s).map single

/-- The text of some characters, in which halves of pairs that meet are one. -/
def join (cs : List Char) : String := toText (cs.flatMap ofChar)

/-- The character for the unit with an index; half of a pair stands alone. -/
def charAt? (s : String) (i : Nat) : Option Char := (ofString s)[i]?.map single

/-- The texts of some characters, one each but for the two halves of a pair. -/
def texts : List Char → List String
  | [] => []
  | [c] => [String.singleton c]
  | c :: d :: rest =>
    if (pair? c d).isSome then String.ofList [c, d] :: texts rest
    else String.singleton c :: texts (d :: rest)

/-! ### Texts of characters alone -/

/-- A text of characters alone, as a text of this library. -/
def carried (s : String) : String := String.ofList (s.toList.flatMap fun c => carry c.toNat)

/-- Characters alone for those of a text: two halves that meet are the character they write, and a
surrogate that stands for none is replaced. -/
def scalars : List Char → List Char
  | [] => []
  | [c] => [if (surrogate? c).isSome then '\uFFFD' else c]
  | c :: d :: rest =>
    match pair? c d with
    | some n => Char.ofNat n :: scalars rest
    | none => (if (surrogate? c).isSome then '\uFFFD' else c) :: scalars (d :: rest)

/-- A text as it is where only characters can be written. -/
def written (s : String) : String := String.ofList (scalars s.toList)

/-- A text in which every surrogate that stands alone is replaced. -/
def settled (s : String) : String := carried (written s)

def toUTF8 (s : String) : ByteArray := (written s).toUTF8

def ofUTF8? (bytes : ByteArray) : Option String := (String.fromUTF8? bytes).map carried

/-! ### Order -/

def leList : List Nat → List Nat → Bool
  | [], _ => true
  | _ :: _, [] => false
  | a :: as, b :: bs => if a = b then leList as bs else a < b

def le (s t : String) : Bool := leList (ofString s) (ofString t)

end WasmScript.Units
