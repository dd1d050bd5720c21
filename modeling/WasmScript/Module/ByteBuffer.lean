/-
  WasmScript/Module/ByteBuffer.lean
  =================================
  **Byte buffers** — bytes that are written one after another into a view that grows.

  A `ByteBuffer` is a view with room for more bytes than are filled.  When the room does
  not suffice, the capacity is doubled until it does and the filled part is copied.  Numbers
  are written one by one, the bytes of another view all at once.
-/
import WasmScript.Number.Basic

namespace WasmScript

/-- A view and the number of bytes that are filled. -/
structure ByteBuffer where
  view : ByteArray
  length : Nat
deriving Inhabited

namespace ByteBuffer

def capacity (b : ByteBuffer) : Nat := b.view.size

/-- The most bytes that a view may be asked to hold. -/
def maxLength : Nat := 0x100000000

def zeros (count : Nat) : ByteArray := ⟨Array.replicate count 0⟩

/-- A buffer with room for some bytes, but for no fewer than sixteen. -/
def create (capacity : Int := 4096) : ByteBuffer := ⟨zeros (max capacity 16).toNat, 0⟩

def doubled (capacity needed : Nat) : Nat :=
  if h : 0 < capacity ∧ capacity < needed then doubled (2 * capacity) needed else capacity
termination_by needed - capacity
decreasing_by omega

def reserve (b : ByteBuffer) (needed : Nat) : ByteBuffer :=
  if needed ≤ b.capacity then b
  else
    { b with
      view := (b.view.extract 0 b.length).copySlice 0 (zeros (doubled b.capacity needed)) 0
        b.length }

/-- Writes bytes into the view from a place on, one after another. -/
def place (view : ByteArray) (i : Nat) : List UInt8 → ByteArray
  | [] => view
  | b :: bs => place (view.set! i b) (i + 1) bs

def push (b : ByteBuffer) (bytes : List UInt8) : ByteBuffer :=
  let b := b.reserve (b.length + bytes.length)
  ⟨place b.view b.length bytes, b.length + bytes.length⟩

def pushView (b : ByteBuffer) (bytes : ByteArray) : ByteBuffer :=
  let b := b.reserve (b.length + bytes.size)
  ⟨bytes.copySlice 0 b.view b.length bytes.size, b.length + bytes.size⟩

def pushByte (b : ByteBuffer) (byte : UInt8) : ByteBuffer :=
  let b := b.reserve (b.length + 1)
  ⟨b.view.set! b.length byte, b.length + 1⟩

/-- What can be appended at once. -/
inductive Chunk where
  /-- Numbers, each of which is used as a byte. -/
  | numbers (xs : List Number)
  | view (bytes : ByteArray)

def pushArray (b : ByteBuffer) : Chunk → ByteBuffer
  | .numbers xs => b.push (xs.map Number.toByte)
  | .view bytes => b.pushView bytes

def toBytes (b : ByteBuffer) : ByteArray := b.view.extract 0 b.length

/-- A number as a byte: its remainder modulo 256. -/
def byteOf (n : Int) : UInt8 := UInt8.ofNat (Bits.unsigned 8 n)

end ByteBuffer

end WasmScript
