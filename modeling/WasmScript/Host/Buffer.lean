/-
  WasmScript/Host/Buffer.lean
  ===========================
  **Byte buffers in the hands of a host** — appending whatever a host takes for bytes.

  What is appended says by itself how many bytes it has, and a host may have it say
  anything.  The filled length is therefore a host value, the sum of what was said; a
  `HostBuffer` holds it beside the view.  As long as it is a number of bytes within the
  view, and the bytes are bytes, appending them is left to the buffer itself.

  Otherwise items are written one by one.  The place of an item is the sum of the filled
  length and of its index, as the host adds them, and an item without a place within the
  view is lost.

  A host refuses to make a view above `ByteBuffer.maxLength`, and `reserve` says so.  The
  buffer itself has no such limit: where it appends, the view that it asks for is assumed to
  be had.
-/
import WasmScript.Host.Convert
import WasmScript.Module.ByteBuffer

namespace WasmScript

/-- A view, and the length to which a host has filled it. -/
structure HostBuffer where
  view : ByteArray
  length : HostValue
deriving Inhabited

/-- Where an item goes that is written into a view. -/
inductive ItemPlace where
  | index (n : Nat)
  /-- Some other number, at which no byte is. -/
  | outside
  /-- A name that is no number, at which items are not even bytes. -/
  | named (key : String)
deriving DecidableEq, Repr, Inhabited

namespace ItemPlace

def ofNumber (n : Number) : ItemPlace :=
  match n.toInteger? with
  | some (.ofNat k) => .index k
  | _ => .outside

/-- The place that a sum of lengths and indices is; a text is a number if it is just how that
number is written. -/
def ofSum : HostValue → ItemPlace
  | .number n => ofNumber n
  | .string s =>
    let n := Numeral.toNumber s
    if s = "-0" then .outside else if n.text = s then ofNumber n else .named s
  | other => .named other.text

end ItemPlace

namespace HostBuffer

/-- A change of a buffer that gives a value or fails. -/
abbrev Act := EStateM Failure HostBuffer

/-- What was found, unless it cannot be used. -/
def accept {α : Type} : Except Failure α → Act α
  | .ok a => pure a
  | .error e => throw e

def ofBuffer (b : ByteBuffer) : HostBuffer := ⟨b.view, .ofNat b.length⟩

/-- The buffer, if its length is a number of bytes within the view. -/
def buffer? (b : HostBuffer) : Option ByteBuffer :=
  match b.length.integer? with
  | some (.ofNat n) => if n ≤ b.view.size then some ⟨b.view, n⟩ else none
  | _ => none

/-- A buffer with room for as many bytes as a host asks for. -/
def ofCapacity (capacity : HostValue) : Except Failure HostBuffer := do
  match capacity with
  | .undefined => pure (ofBuffer .create)
  | v => do
    match ← v.toNumber with
    | .infinite false => throw (.range (.arrayLength (Number.infinite false).text))
    | n =>
      if ByteBuffer.maxLength < n.truncated then throw (.range (.arrayLength n.text))
      pure (ofBuffer (.create n.truncated))

/-- The end of a range of a view; a negative one counts from the end of the view. -/
def endOf (view : ByteArray) : Number → Nat
  | .infinite negative => if negative then 0 else view.size
  | n =>
    let stop := n.truncated
    if stop < 0 then (view.size + stop).toNat else min stop.toNat view.size

def filled (b : HostBuffer) : Except Failure ByteArray := do
  pure (b.view.extract 0 (endOf b.view (← b.length.toNumber)))

/-- Makes room up to a length. -/
def reserve (needed : HostValue) : Act Unit := do
  let n ← accept needed.toNumber
  let b ← get
  if !n.lt (.ofInt b.view.size) && !n.same (.ofInt b.view.size) then
    let least := if n.toInteger?.isSome then n.truncated else n.truncated + 1
    let capacity := ByteBuffer.doubled b.view.size least.toNat
    let asked := if n = .infinite false then n else Number.round (.ofInt capacity)
    if Number.lt (.ofInt ByteBuffer.maxLength) asked then
      throw (.range (.arrayLength asked.text))
    let kept ← accept b.filled
    set { b with view := kept.copySlice 0 (ByteBuffer.zeros capacity) 0 kept.size }

def put (place : ItemPlace) (item : HostValue) : Act Unit := do
  match place with
  | .named _ => pure ()
  | .outside => do
    let _ ← accept item.toByte
    pure ()
  | .index n => do
    let byte ← accept item.toByte
    modify fun b => if n < b.view.size then { b with view := b.view.set! n byte } else b

def putItems (data start : HostValue) : (count : Nat) → (index : Nat) → Act Unit
  | 0, _ => pure ()
  | count + 1, index => do
    let place ← accept (start.plus (.ofNat index))
    let item ← accept ((data.get (toString index)).mapError .type)
    put (.ofSum place) item
    putItems data start count (index + 1)

/-- How many indices there are below a length. -/
def itemCount (length : HostValue) : Act Nat := do
  let n := (← accept length.toScalar).exact
  pure (if n.toInteger?.isSome then n.truncated.toNat else (n.truncated + 1).toNat)

def putBytes (start : HostValue) (bytes : ByteArray) : Act Unit := do
  let b ← get
  let place := (← accept start.toNumber).truncated
  if place < 0 ∨ (b.view.size : Int) < place + bytes.size then throw (.range .offset)
  set { b with view := bytes.copySlice 0 b.view place.toNat bytes.size }

def pushAny (data : HostValue) : Act Unit := do
  let count ← accept ((data.get "length").mapError .type)
  let start := (← get).length
  let stop ← accept (start.plus count)
  reserve stop
  match data with
  | .bytes bytes => putBytes start bytes
  | _ => do
    let n ← itemCount count
    putItems data start n 0
  modify fun b => { b with length := stop }

/-- What the buffer itself appends for a value: bytes, or a list of what can be used as numbers. -/
def chunk? : HostValue → Option ByteBuffer.Chunk
  | .array items => (items.mapM HostValue.toNumber).toOption.map .numbers
  | .bytes b => some (.view b)
  | _ => none

/-- Appends bytes, or whatever else says to have a length.  Bytes that the buffer itself appends are
assumed to fit into a view, so that no limit is checked for them. -/
def pushArray (data : HostValue) : Act Unit := do
  match (← get).buffer?, chunk? data with
  | some b, some chunk => set (ofBuffer (b.pushArray chunk))
  | _, _ => pushAny data

/-- Appends what is used as a byte behind any length. -/
def pushItem (byte : HostValue) : Act Unit := do
  let start := (← get).length
  reserve (← accept (start.plus (.ofNat 1)))
  let n ← accept start.toNumber
  modify fun b => { b with length := .number (n.add (.ofInt 1)) }
  put (.ofNumber n) byte

/-- Appends what is used as a byte.  One that the buffer itself appends is assumed to fit into a
view, as in `pushArray`. -/
def pushByte (byte : HostValue) : Act Unit := do
  match (← get).buffer?, byte with
  | some b, .number n => set (ofBuffer (b.pushByte n.toByte))
  | _, _ => pushItem byte

/-- Does what a host asks for by name; gives what the host gets. -/
def perform (name : String) (args : List HostValue) : Act HostValue := do
  let arg (i : Nat) : HostValue := args[i]?.getD .undefined
  match name with
  | "push" => do
    pushArray (.array args)
    pure .undefined
  | "pushByte" => do
    pushByte (arg 0)
    pure .undefined
  | "pushArray" => do
    pushArray (arg 0)
    pure .undefined
  | "length" => do pure (← get).length
  | _ => do
    let b ← get
    HostValue.bytes <$> accept b.filled

end HostBuffer

end WasmScript
