/-
  WasmScript/Host/Readers.lean
  ============================
  **Readers in the hands of a host** — reading from any place up to any other.

  The library starts a reader within its bytes and stops it there.  A host may start one
  anywhere, let it go on beyond the last byte and skip any length, even a negative one.
  Where there is no byte there is nothing, and an integer takes it for a zero.  A reader
  that lies within its bytes is read by the parsers of the library.
-/
import WasmScript.Module.ReadStep
import WasmScript.Memory
import WasmScript.Host.Finding

namespace WasmScript

structure HostReader where
  bytes : ByteArray
  position : HostValue
  limit : HostValue
  sectionName : HostValue

inductive ReadFailure where
  | fault (f : Finding.Fault)
  | failure (e : Failure)
deriving Inhabited

namespace HostReader

/-! ### Places -/

/-- The natural number that a value is, unless it is so large that its neighbours are no numbers. -/
def natural? : HostValue → Option Nat
  | .number x =>
    match x.toSafeInteger? with
    | some (.ofNat n) => some n
    | _ => none
  | _ => none

/-- The reader of the library that does the same, if a reader lies within its bytes. -/
def within? (r : HostReader) : Option Reader :=
  match natural? r.position, natural? r.limit, r.sectionName with
  | some position, some limit, .string name =>
    if position ≤ limit ∧ limit ≤ r.bytes.size then some ⟨r.bytes, position, limit, name⟩ else none
  | _, _, _ => none

/-- Whether one value reaches another, as numbers. -/
def reaches (a b : HostValue) : Except Failure Bool := do
  let x ← a.toScalar
  let y ← b.toScalar
  pure (x.exact ≠ .nan && y.exact ≠ .nan && !x.exact.lt y.exact)

def remaining (r : HostReader) : Except Failure HostValue :=
  HostValue.operate Number.sub (fun x y => .ok (x - y)) r.limit r.position

def atEnd (r : HostReader) : Except Failure Bool := reaches r.position r.limit

def after (position : HostValue) (count : Nat) : Except Failure HostValue := do
  match ← position.toScalar with
  | .number x => pure (.number (x.add (.ofInt count)))
  | .bigint n => pure (.bigint (n + count))

/-- The byte at a place, if there is one. -/
def byteAt (r : HostReader) (position : HostValue) : Except Failure HostValue := do
  pure ((HostValue.bytes r.bytes).field (← position.toText))

/-- The next bytes, at most as many as asked for, where zeros stand for what is not there. -/
def window (r : HostReader) : (count : Nat) → Except Failure (List UInt8)
  | 0 => .ok []
  | count + 1 => do
    if ← r.atEnd then pure []
    else
      let byte := match (← r.byteAt r.position).integer? with
        | some (.ofNat n) => UInt8.ofNat n
        | _ => 0
      let next ← after r.position 1
      let rest ← window { r with position := next } count
      pure (byte :: rest)

/-- The index that a value is used as; a negative one counts from the end. -/
def indexOf (size : Nat) (v : HostValue) : Except Failure Nat := do
  match ← v.toNumber with
  | .infinite negative => pure (if negative then 0 else size)
  | x => pure (LinearMemory.clamp size x.truncated)

/-! ### Operations -/

/-- What an operation does: it moves the reader and gives a value or stops. -/
abbrev Act := EStateM ReadFailure HostReader

/-- What was found, unless it cannot be used. -/
def accept {α : Type} : Except Failure α → Act α
  | .ok a => pure a
  | .error e => throw (.failure e)

def failAt {α : Type} (code detail offset : HostValue) : Act α := do
  let f ← accept (Finding.fault code detail (← get).sectionName offset)
  throw (.fault f)

/-- Stops with a finding of the library at a place. -/
def complain {α : Type} (cause : DecodeCause) (offset : HostValue) : Act α :=
  failAt (HostValue.ofNat cause.code) (.string cause.detail) offset

def moveTo (position : HostValue) : Act Unit := modify fun r => { r with position := position }

def byte : Act HostValue := do
  let r ← get
  if ← accept r.atEnd then complain .unexpectedEnd r.position
  let place ← accept (after r.position 0)
  moveTo (← accept (after place 1))
  accept (r.byteAt place)

/-- The next byte, which stays unread. -/
def peek : Act HostValue := do
  let r ← get
  if ← accept (r.position.lt r.limit) then accept (r.byteAt r.position) else pure .undefined

/-- An integer, read by a parser of the library from the next bytes. -/
def integer {α : Type} (p : Parser α) : Act α := do
  let r ← get
  let bytes ← accept (r.window 16)
  let found := p (Reader.ofBytes ⟨bytes.toArray⟩ "")
  let moved (inner : Reader) : Act Unit := do
    if inner.pos ≠ 0 then moveTo (← accept (after r.position inner.pos))
  match found with
  | .ok a inner => do
    moved inner
    pure a
  | .error e inner => do
    moved inner
    match e.cause with
    | .unexpectedEnd => complain e.cause (← get).position
    | cause => complain cause r.position

/-- The place after a length, unless less is left. -/
def stretch (length : HostValue) (detail : (length remaining : String) → String) :
    Act HostValue := do
  let r ← get
  let left ← accept r.remaining
  if ← accept (left.lt length) then
    let length ← accept length.toText
    let detail := detail length (← accept left.toText)
    failAt (HostValue.ofNat DiagnosticCode.unexpectedEnd.number) (.string detail) r.position
  accept (r.position.plus length)

def take (length : HostValue) : Act ByteArray := do
  let stop ← stretch length fun length left => s!"Expected {length} bytes but only {left} remain"
  let r ← get
  let first ← accept (indexOf r.bytes.size r.position)
  let last ← accept (indexOf r.bytes.size stop)
  moveTo stop
  pure (r.bytes.extract first last)

/-- A name: a length and as many bytes of UTF-8. -/
def name : Act HostValue := do
  let start := (← get).position
  let length ← integer Parser.u32
  let content ← take (HostValue.ofNat length)
  match Parser.text? content with
  | some s => pure (.string s)
  | none => complain .invalidUtf8 start

def ofReader (r : Reader) : HostReader :=
  ⟨r.bytes, HostValue.ofNat r.pos, HostValue.ofNat r.limit, .string r.sectionName⟩

/-- A section that a host names or leaves as it is, if the name is a text. -/
def sectionOf? : HostValue → Option (Option String)
  | .undefined => some none
  | .string name => some (some name)
  | _ => none

/-- A reader of the next stretch, wherever that lies. -/
def subAnywhere (length sectionName : HostValue) : Act HostReader := do
  let stop ← stretch length fun length _ => s!"Length {length} runs past the end of the input"
  let r ← get
  moveTo stop
  let name := match sectionName with
    | .undefined => r.sectionName
    | name => name
  pure { r with limit := stop, sectionName := name }

/-- A reader of the next stretch, within the bytes if possible. -/
def sub (length sectionName : HostValue) : Act HostReader := do
  match (← get).within?, natural? length, sectionOf? sectionName with
  | some r, some count, some name =>
    match Parser.sub count name r with
    | .ok inner r => do
      moveTo (HostValue.ofNat r.pos)
      pure (ofReader inner)
    | .error e _ =>
      failAt (HostValue.ofNat e.code) (.string e.cause.detail) (HostValue.ofNat e.offset)
  | _, _, _ => subAnywhere length sectionName

end HostReader

/-! ### Steps -/

inductive HostReadStep where
  | byte
  | peek
  | bytes (length : HostValue)
  | u32
  | s32
  | s64
  | name
  /-- Makes a reader of the next bytes. -/
  | sub (length sectionName : HostValue)
  /-- Makes another reader the current one. -/
  | use (number : HostValue)
  /-- Changes the section named in findings. -/
  | rename (sectionName : HostValue)
  /-- Stops with a finding, at the position of the reader unless there is an offset. -/
  | fail (code detail offset : HostValue)
deriving Inhabited

namespace HostReadStep

def ofName (name : String) (args : List HostValue) : HostReadStep :=
  let arg (i : Nat) : HostValue := args[i]?.getD .undefined
  match name with
  | "readByte" => .byte
  | "peekByte" => .peek
  | "readBytes" => .bytes (arg 0)
  | "readU32" => .u32
  | "readS32" => .s32
  | "readS64" => .s64
  | "readName" => .name
  | "sub" => .sub (arg 0) (arg 1)
  | "use" => .use (arg 0)
  | "section" => .rename (arg 0)
  | _ => .fail (arg 0) (arg 1) (arg 2)

def operation? : HostReadStep → Option ReadStep
  | .byte => some .byte
  | .peek => some .peek
  | .bytes length => (HostReader.natural? length).map .bytes
  | .u32 => some .u32
  | .s32 => some .s32
  | .s64 => some .s64
  | .name => some .name
  | _ => none

/-- What an operation of the library gives, as a host sees it. -/
def ofResult : ReadResult → HostValue
  | .nothing => .undefined
  | .number n => HostValue.ofNat n
  | .integer n => .number (.ofInt n)
  | .wide n => .bigint n
  | .bytes b => .bytes b
  | .text s => .string s

def performWithin (step : ReadStep) (r : Reader) : HostReader.Act HostValue := do
  let moved (r : Reader) : HostReader.Act Unit := HostReader.moveTo (HostValue.ofNat r.pos)
  match step.perform r with
  | .ok result r => do
    moved r
    pure (ofResult result)
  | .error e r => do
    moved r
    HostReader.failAt (HostValue.ofNat e.code) (.string e.cause.detail)
      (HostValue.ofNat e.offset)

def performAnywhere : HostReadStep → HostReader.Act HostValue
  | .byte => HostReader.byte
  | .peek => HostReader.peek
  | .bytes length => HostValue.bytes <$> HostReader.take length
  | .u32 => HostValue.ofNat <$> HostReader.integer Parser.u32
  | .s32 => (fun n => .number (.ofInt n)) <$> HostReader.integer Parser.s32
  | .s64 => HostValue.bigint <$> HostReader.integer Parser.s64
  | .name => HostReader.name
  | .rename sectionName => do
    modify fun r => { r with sectionName := sectionName }
    pure .undefined
  | .fail code detail .undefined => do HostReader.failAt code detail (← get).position
  | .fail code detail offset => HostReader.failAt code detail offset
  | .sub .. | .use _ => pure .undefined

/-- Performs a step that makes no reader, within the bytes if possible. -/
def perform (step : HostReadStep) : HostReader.Act HostValue := do
  match (← get).within?, step.operation? with
  | some r, some operation => performWithin operation r
  | _, _ => step.performAnywhere

end HostReadStep

/-- The readers of a host, and the number of the current one. -/
structure HostReaders where
  readers : Array HostReader
  current : HostValue

namespace HostReaders

/-- The only reader, from a start to a limit; without them, of all the bytes. -/
def single (bytes : ByteArray) (start limit sectionName : HostValue) : HostReaders :=
  let given (v : HostValue) (otherwise : HostValue) : HostValue :=
    match v with
    | .undefined | .null => otherwise
    | v => v
  ⟨#[⟨bytes, given start (HostValue.ofNat 0), given limit (HostValue.ofNat bytes.size),
    given sectionName (.string "test")⟩], HostValue.ofNat 0⟩

def place (s : HostReaders) : Nat := (HostReader.natural? s.current).getD s.readers.size

def reader? (s : HostReaders) : Option HostReader := s.readers[s.place]?

def perform (s : HostReaders) (step : HostReadStep) : Except ReadFailure HostValue × HostReaders :=
  match step, s.reader? with
  | .use number, _ => (.ok .undefined, { s with current := number })
  | _, none => (.ok .undefined, s)
  | .sub length sectionName, some r =>
    match HostReader.sub length sectionName r with
    | .ok inner r =>
      (.ok (HostValue.ofNat s.readers.size),
        { s with readers := (s.readers.setIfInBounds s.place r).push inner })
    | .error e r => (.error e, { s with readers := s.readers.setIfInBounds s.place r })
  | step, some r =>
    match step.perform r with
    | .ok v r => (.ok v, { s with readers := s.readers.setIfInBounds s.place r })
    | .error e r => (.error e, { s with readers := s.readers.setIfInBounds s.place r })

end HostReaders

end WasmScript
