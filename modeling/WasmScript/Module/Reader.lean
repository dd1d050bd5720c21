/-
  WasmScript/Module/Reader.lean
  =============================
  **Byte readers** — a cursor over a stretch of a module's bytes.

  A `Reader` covers the bytes from its position up to its limit.  Positions are absolute
  offsets into the module, so that faults found in a nested stretch point at the right
  byte.  A `Parser` moves the cursor and gives a value or a fault; the cursor outlives a
  fault, and what failed without reading leaves it where it was.

  Integers are read in LEB128 with at most as many bytes as their width needs; padding is
  allowed as long as the unused bits of the last byte are zero, or repeat the sign.
-/
import WasmScript.Module.DecodeError
import WasmScript.Integer.Bits
import WasmScript.Text.Units

namespace WasmScript

/-- A cursor over the bytes from `pos` up to `limit`. -/
structure Reader where
  bytes : ByteArray
  pos : Nat
  limit : Nat
  /-- The section named in faults. -/
  sectionName : String

namespace Reader

def ofBytes (bytes : ByteArray) (sectionName : String) : Reader :=
  ⟨bytes, 0, bytes.size, sectionName⟩

def atEnd (r : Reader) : Bool := r.limit ≤ r.pos

def remaining (r : Reader) : Nat := r.limit - r.pos

/-- The byte at an offset, zero beyond the end. -/
def byteAt (r : Reader) (i : Nat) : Nat := if h : i < r.bytes.size then r.bytes[i].toNat else 0

/-- The next byte, if there is one. -/
def peek? (r : Reader) : Option Nat := if r.pos < r.limit then some (r.byteAt r.pos) else none

/-- The stretch of the next `length` bytes. -/
def stretch (r : Reader) (length : Nat) (sectionName : String) : Reader :=
  { r with limit := r.pos + length, sectionName := sectionName }

/-- The reader after `length` bytes are skipped. -/
def skip (r : Reader) (length : Nat) : Reader := { r with pos := r.pos + length }

end Reader

/-- Moves a reader and gives a value or a fault. -/
abbrev Parser := EStateM DecodeError Reader

namespace Parser

def failAt {α : Type} (cause : DecodeCause) (offset : Nat) : Parser α :=
  fun r => .error ⟨cause, r.sectionName, offset⟩ r

def fail {α : Type} (cause : DecodeCause) : Parser α :=
  fun r => .error ⟨cause, r.sectionName, r.pos⟩ r

def position : Parser Nat := fun r => .ok r.pos r

def remaining : Parser Nat := fun r => .ok r.remaining r

def byte : Parser Nat := fun r =>
  match r.peek? with
  | some b => .ok b (r.skip 1)
  | none => fail .unexpectedEnd r

/-- The next byte, which stays unread. -/
def peek : Parser (Option Nat) := fun r => .ok r.peek? r

def bytes (length : Nat) : Parser ByteArray := fun r =>
  if r.remaining < length then fail (.missingBytes length r.remaining) r
  else .ok (r.bytes.extract r.pos (r.pos + length)) (r.skip length)

/-- A reader of the next `length` bytes, which are skipped. -/
def sub (length : Nat) (sectionName : Option String) : Parser Reader := fun r =>
  if r.remaining < length then fail (.lengthOverrun length) r
  else .ok (r.stretch length (sectionName.getD r.sectionName)) (r.skip length)

/-- Runs a parser on the next `length` bytes and skips them. -/
def within {α : Type} (length : Nat) (sectionName : Option String) (p : Parser α) : Parser α := do
  let inner ← sub length sectionName
  fun outer =>
    match p inner with
    | .ok a _ => .ok a outer
    | .error e _ => .error e outer

/-! ### Integers -/

/-- The bytes of an unsigned 32-bit integer from the `i`-th on, of which at most `left` may follow.
Those before them stand for `result`. -/
def u32Loop (start : Nat) : (left i result : Nat) → Parser Nat
  | 0, _, _ => failAt .integerTooLong start
  | left + 1, i, result => do
    let b ← byte
    if i = 4 ∧ b &&& 0xf0 ≠ 0 then failAt (.integerTooLarge "u32") start
    else
      let result := result + (b &&& 0x7f) * Bits.twoPow (7 * i)
      if b &&& 0x80 = 0 then pure result else u32Loop start left (i + 1) result

/-- An unsigned 32-bit integer in at most five bytes. -/
def u32 : Parser Nat := do u32Loop (← position) 5 0 0

/-- The bytes of a signed 32-bit integer from the `i`-th on, of which at most `left` may follow.
The bits before them are those of `result`, a 32-bit number. -/
def s32Loop (start : Nat) : (left i : Nat) → (result : Int) → Parser Int
  | 0, _, _ => failAt .integerTooLong start
  | left + 1, i, result => do
    let b ← byte
    -- Only four bits are left for the fifth byte, and the others must repeat the sign.
    if i = 4 ∧ (b &&& 0x80 ≠ 0 ∨ (b &&& 0x78 ≠ 0 ∧ b &&& 0x78 ≠ 0x78)) then
      failAt (.integerTooLarge "s32") start
    else
      let result := Bits.or 32 result (Bits.shl32 (b &&& 0x7f : Nat) (7 * i))
      if b &&& 0x80 = 0 then
        let shift := 7 * (i + 1)
        pure (if shift < 32 ∧ b &&& 0x40 ≠ 0 then Bits.or 32 result (Bits.shl32 (-1) shift)
          else result)
      else s32Loop start left (i + 1) result

/-- A signed 32-bit integer in at most five bytes. -/
def s32 : Parser Int := do s32Loop (← position) 5 0 0

/-- The bytes of a signed 64-bit integer from the `i`-th on, of which at most `left` may follow.
The bits before them are those of `result`, an integer of any size. -/
def s64Loop (start : Nat) : (left i result : Nat) → Parser Int
  | 0, _, _ => failAt .integerTooLong start
  | left + 1, i, result => do
    let b ← byte
    if i = 9 ∧ (b &&& 0x80 ≠ 0 ∨ (b &&& 0x7f ≠ 0 ∧ b &&& 0x7f ≠ 0x7f)) then
      failAt (.integerTooLarge "s64") start
    else
      let result := result ||| (b &&& 0x7f) <<< (7 * i)
      if b &&& 0x80 = 0 then pure (Bits.signed 64 (Bits.signed (7 * (i + 1)) result))
      else s64Loop start left (i + 1) result

/-- A signed 64-bit integer in at most ten bytes. -/
def s64 : Parser Int := do s64Loop (← position) 10 0 0

/-! ### Names and vectors -/

/-- The bytes after a byte order mark, if there is one. -/
def dropMark (bytes : ByteArray) : ByteArray :=
  if (bytes.extract 0 3).data.toList = [0xEF, 0xBB, 0xBF] then bytes.extract 3 bytes.size
  else bytes

/-- The text of UTF-8 bytes, without a byte order mark. -/
def text? (bytes : ByteArray) : Option String := Units.ofUTF8? (dropMark bytes)

/-- A name: a length and as many bytes of UTF-8. -/
def name : Parser String := do
  let start ← position
  let length ← u32
  let content ← bytes length
  match text? content with
  | some s => pure s
  | none => failAt .invalidUtf8 start

/-- As many items as asked for, after those already read. -/
def repeated {α : Type} (item : Parser α) : (count : Nat) → Array α → Parser (Array α)
  | 0, items => pure items
  | count + 1, items => do repeated item count (items.push (← item))

/-- The number of items of a vector.  Each takes at least a byte. -/
def vectorCount : Parser Nat := do
  let count ← u32
  let left ← remaining
  if left < count then fail (.vectorOverrun count left) else pure count

/-- A vector: the number of its items and the items. -/
def vector {α : Type} (item : Parser α) : Parser (Array α) := do
  repeated item (← vectorCount) #[]

end Parser

end WasmScript
