/-
  WasmScript/Memory.lean
  ======================
  **Linear memories** — bytes in pages, which grow but never shrink.

  Each access is checked before a byte is touched: it traps unless its address is at
  least zero and its last byte lies within the memory.  Integers are little-endian.

  A host may ask for no pages at all as the negative zero, and a memory remembers that it
  did: whoever asks for the size is told a zero with that sign.

  Addresses and lengths are integers of any sign.  Running code only ever passes unsigned
  32-bit ones; a host may pass others, and then the ends of a range are brought into the
  memory by `clamp`, under which a negative end counts from the end of the memory.
-/
import WasmScript.Trap
import WasmScript.Integer.Bits
import WasmScript.Module.Access

namespace WasmScript

/-- A memory: its bytes, its size in pages and the most pages it may grow to.

A memory in the hands of a host has its bytes twice, as an array of bytes and as a view of the
same buffer that reads and writes integers.  Both are replaced together, when the memory is made
and when it grows, and are over one buffer ever after, so what is written through one is read
through the other. `bytes` is that buffer. -/
structure LinearMemory where
  bytes : ByteArray
  pages : Nat
  maximum : Nat
  /-- Whether a size of no pages has a minus sign. -/
  negativePages : Bool := false
  /-- Whether a maximum of no pages has a minus sign. -/
  negativeMaximum : Bool := false

namespace LinearMemory

def pageSize : Nat := 65536

/-- The pages of a 32-bit address space. -/
def maxPages : Nat := 65536

instance : Inhabited LinearMemory := ⟨{ bytes := .empty, pages := 0, maximum := 0 }⟩

def zeroPage : ByteArray := ⟨Array.replicate pageSize 0⟩

def addPages : (count : Nat) → ByteArray → ByteArray
  | 0, bytes => bytes
  | count + 1, bytes => addPages count (bytes ++ zeroPage)

def create (initial maximum : Nat) : LinearMemory :=
  { bytes := addPages initial .empty, pages := initial, maximum }

def size (m : LinearMemory) : Nat := m.bytes.size

abbrev Op := EStateM TrapKind LinearMemory

/-- Grows by an unsigned number of pages.  Gives the pages before, or -1 when the memory would
exceed its maximum. -/
def grow (delta : Nat) : Op Int := fun m =>
  let before := m.pages
  if delta = 0 then .ok before m
  else if m.maximum < before + delta then .ok (-1) m
  else .ok before { m with bytes := addPages delta m.bytes, pages := before + delta }

def inBounds (m : LinearMemory) (address length : Int) : Bool :=
  decide (0 ≤ address ∧ address + length ≤ m.size)

/-- Traps unless a range lies within the memory. -/
def check (address length : Int) : Op Unit := fun m =>
  if m.inBounds address length then .ok () m else .error .outOfBounds m

/-! ### Integers -/

/-- The little-endian number in `width` bytes from `i` on. -/
def natAt (bytes : ByteArray) (i : Nat) : (width : Nat) → Nat
  | 0 => 0
  | width + 1 => (bytes.get! i).toNat + 256 * natAt bytes (i + 1) width

/-- Writes the low bytes of a number from `i` on. -/
def setNat (bytes : ByteArray) (i n : Nat) : (width : Nat) → ByteArray
  | 0 => bytes
  | width + 1 => setNat (bytes.set! i (UInt8.ofNat (n % 256))) (i + 1) (n / 256) width

def load (a : Accessor) (address : Int) : Op Int := fun m =>
  if m.inBounds address a.width then
    let n : Int := natAt m.bytes address.toNat a.width
    .ok (if a.isSigned then Bits.signed (8 * a.width) n else n) m
  else .error .outOfBounds m

/-- Writes the low bytes of an integer. -/
def store (a : Accessor) (address value : Int) : Op Unit := fun m =>
  if m.inBounds address a.width then
    let n := Bits.unsigned (8 * a.width) value
    let ⟨bytes, pages, maximum, negativePages, negativeMaximum⟩ := m
    .ok () ⟨setNat bytes address.toNat n a.width, pages, maximum, negativePages, negativeMaximum⟩
  else .error .outOfBounds m

/-! ### Ranges -/

/-- An index brought into the memory; a negative one counts from the end. -/
def clamp (size : Nat) (i : Int) : Nat := if i < 0 then (size + i).toNat else min i.toNat size

def splice (data : ByteArray) (i : Nat) (bytes : ByteArray) : ByteArray :=
  data.copySlice 0 bytes i data.size

/-- Copies a range to another place, which it may overlap.  Both ranges are checked before a
byte moves. -/
def copy (destination source length : Int) : Op Unit := do
  check destination length
  check source length
  modify fun m =>
    let place := clamp m.size destination
    let start := clamp m.size source
    let stop := clamp m.size (source + length)
    let count := min (stop - start) (m.size - place)
    let moved := m.bytes.extract start (start + count)
    { m with bytes := splice moved place m.bytes }

/-- Writes the low byte of a value to each place of a range. -/
def fill (destination value length : Int) : Op Unit := do
  check destination length
  modify fun m =>
    let start := clamp m.size destination
    let stop := clamp m.size (destination + length)
    let byte := UInt8.ofNat (Bits.unsigned 8 value)
    let row : ByteArray := ⟨Array.replicate (stop - start) byte⟩
    { m with bytes := splice row start m.bytes }

def write (address : Int) (data : ByteArray) : Op Unit := do
  check address data.size
  modify fun m => { m with bytes := splice data address.toNat m.bytes }

def read (address length : Int) : Op ByteArray := do
  check address length
  let m ← get
  pure (m.bytes.extract (clamp m.size address) (clamp m.size (address + length)))

end LinearMemory

end WasmScript
