/-
  WasmScript/Text/Hex.lean
  ========================
  **Hexadecimal text** — how bytes and offsets are written, and how a host reads
  bytes back.

  Everything written here is in lower case: `Hex.ofBytes` gives two digits for each
  byte, `Hex.ofNat` as many digits as the number needs.  Reading is more lenient than
  writing: `Hex.toBytes?` takes digits of either case and refuses any text that is not
  an even number of them.
-/
namespace WasmScript.Hex

def digit (n : Nat) : Char :=
  if n < 10 then Char.ofNat (48 + n) else Char.ofNat (87 + n)

def digitValue? (c : Char) : Option Nat :=
  if '0' ≤ c ∧ c ≤ '9' then some (c.toNat - 48)
  else if 'a' ≤ c ∧ c ≤ 'f' then some (c.toNat - 87)
  else if 'A' ≤ c ∧ c ≤ 'F' then some (c.toNat - 55)
  else none

/-- A byte as two digits: those of its number, after a zero if that has one digit only. -/
def ofByte (b : UInt8) : List Char := (Nat.toDigits 16 b.toNat).leftpad 2 '0'

def charsOfBytes (bytes : List UInt8) : List Char := bytes.flatMap ofByte

/-- Bytes as text, two digits each. -/
def ofBytes (bytes : List UInt8) : String := String.ofList (charsOfBytes bytes)

/-- Bytes as text, two digits each, with a blank between bytes. -/
def ofBytesSpaced (bytes : List UInt8) : String :=
  " ".intercalate (bytes.map fun b => String.ofList (ofByte b))

/-- Whether characters are an even number of digits of either case. -/
def arePairs (cs : List Char) : Bool := cs.length % 2 == 0 && cs.all fun c => (digitValue? c).isSome

/-- The number of a digit, zero for what is none. -/
def valueOf (c : Char) : Nat := (digitValue? c).getD 0

def bytesOfPairs : List Char → List UInt8
  | high :: low :: rest => UInt8.ofNat (16 * valueOf high + valueOf low) :: bytesOfPairs rest
  | _ => []

/-- The bytes a text of digit pairs stands for; `none` for any other text. -/
def toBytes? (text : String) : Option (List UInt8) :=
  if arePairs text.toList then some (bytesOfPairs text.toList) else none

def ofNat (n : Nat) : String := String.ofList (Nat.toDigits 16 n)

/-- A byte or opcode as `0x` and at least two digits. -/
def padded (n : Nat) : String :=
  let digits := ofNat n
  if digits.length < 2 then "0x0" ++ digits else "0x" ++ digits

end WasmScript.Hex
