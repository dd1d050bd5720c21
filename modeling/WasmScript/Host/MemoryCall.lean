/-
  WasmScript/Host/MemoryCall.lean
  ===============================
  **Memories in the hands of a host** — making a memory and operating on it with
  whatever values the host has.

  Running code passes unsigned 32-bit addresses.  A host may pass anything: an address
  that is no whole number is out of bounds, and a range ends at the sum of its address
  and its length, as the host adds them.  A sum that is not a number ends the range at
  the start of the memory.
-/
import WasmScript.Memory
import WasmScript.Host.Convert

namespace WasmScript

/-- An operation on a memory with the values a host passes. -/
inductive MemoryCall where
  | pages
  | size
  | maximum
  | grow (delta : HostValue)
  | load (a : Accessor) (address : HostValue)
  | store (a : Accessor) (address value : HostValue)
  | copy (destination source length : HostValue)
  | fill (destination value length : HostValue)
  | write (address data : HostValue)
  | read (address length : HostValue)
deriving Inhabited

namespace LinearMemory

/-! ### Sizes -/

/-- A number of pages as a host has it, where no pages at all may have a minus sign. -/
def sizeNumber (negative : Bool) (pages : Int) : Number :=
  if pages = 0 ∧ negative then .negativeZero else .ofInt pages

def pagesNumber (m : LinearMemory) : Number := sizeNumber m.negativePages m.pages

/-- The most pages as a host has them. -/
def maximumNumber (m : LinearMemory) : Number := sizeNumber m.negativeMaximum m.maximum

/-- The memory with the sizes that a host asks for.  The maximum must be a number of pages, and
the initial size must not exceed it. -/
def make (initial maximum : HostValue) : Except Failure LinearMemory :=
  let most : HostValue := match maximum with
    | .undefined => .number (.ofInt maxPages)
    | asked => asked
  match most.integer?, initial.integer? with
  | none, _ => do throw (.link (.invalidMaximum (← most.toText)))
  | some m, start =>
    if maxPages < m then .error (.link (.invalidMaximum most.text))
    else
      match start with
      | some n =>
        if 0 ≤ n ∧ n ≤ m then
          .ok { create n.toNat m.toNat with
            negativePages := initial.isNegativeZero, negativeMaximum := most.isNegativeZero }
        else .error (.link (.initialSize initial.text most.text))
      | none => do throw (.link (.initialSize (← initial.toText) most.text))

end LinearMemory

namespace MemoryCall

/-- What an operation does: it changes the memory and gives a value or fails. -/
abbrev Act := EStateM Failure LinearMemory

def lift {α : Type} (op : LinearMemory.Op α) : Act α := fun m =>
  match op m with
  | .ok a m => .ok a m
  | .error kind m => .error (.trap kind) m

/-- What was found, unless it cannot be used. -/
def accept {α : Type} : Except Failure α → Act α
  | .ok a => pure a
  | .error e => throw e

/-! ### Addresses and ranges -/

/-- The address that a value is; only whole numbers from zero on are addresses. -/
def toAddress (v : HostValue) : Act Nat :=
  match v.integer? with
  | some (.ofNat k) => pure k
  | _ => lift (throw .outOfBounds)

/-- The end of a range: the sum of its address and its length, if that lies within the memory. -/
def toEnd (address : Nat) (length : HostValue) : Act Int := do
  let sum ← accept ((HostValue.number (.ofInt address)).plus length)
  let stop ← accept sum.toNumber
  let size := (← get).size
  if Number.lt (.ofInt size) stop then lift (throw .outOfBounds)
  match stop with
  | .infinite _ => pure (-(size : Int))
  | stop => pure stop.truncated

/-- The length of a range that starts at an address and has such a length: a whole number as it is,
and else what lies between the address and the end. -/
def toLength (address : Nat) (length : HostValue) : Act Int := do
  let stop ← toEnd address length
  pure (length.integer?.getD (stop - address))

/-! ### Values -/

def loaded (a : Accessor) (n : Int) : HostValue :=
  match a.type with
  | .i32 => .number (.ofInt n)
  | .i64 => .bigint n

def stored (a : Accessor) (v : HostValue) : Act Int := do
  match a.type with
  | .i32 => pure (← accept v.toNumber).toInt32
  | .i64 => accept v.toBigInt

/-- Writes items of a value, one after another, from an address on. -/
def writeItems (data : HostValue) (address : Nat) : (count : Nat) → (index : Nat) → Act Unit
  | 0, _ => pure ()
  | count + 1, index => do
    let item ← accept ((data.get (toString index)).mapError .type)
    let byte ← accept item.toByte
    lift (LinearMemory.write (address + index : Nat) ⟨#[byte]⟩)
    writeItems data address count (index + 1)

/-- Writes as many items of a value as it says to have, from an address on. -/
def writeAll (address : Nat) (data length : HostValue) : Act Unit := do
  match data with
  | .bytes b => lift (LinearMemory.write address b)
  | _ => do
    match ← accept length.toNumber with
    | .infinite false => throw (.range .offset)
    | n => do
      let count := n.truncated.toNat
      if (← get).size < address + count then throw (.range .offset)
      writeItems data address count 0

/-! ### Operations -/

def perform : MemoryCall → Act HostValue
  | .pages => do pure (.number (← get).pagesNumber)
  | .size => do pure (.number (.ofInt (← get).size))
  | .maximum => do pure (.number (← get).maximumNumber)
  | .grow delta => do
    let pages ← accept delta.toOperand
    let before ← lift (LinearMemory.grow pages.toUInt32)
    pure (.number (LinearMemory.sizeNumber (← get).negativePages before))
  | .load a address => do
    let address ← toAddress address
    let n ← lift (LinearMemory.load a address)
    pure (loaded a n)
  | .store a address value => do
    let address ← toAddress address
    lift (LinearMemory.check address a.width)
    let n ← stored a value
    lift (LinearMemory.store a address n)
    pure .undefined
  | .copy destination source length => do
    let destination ← toAddress destination
    let _ ← toEnd destination length
    let source ← toAddress source
    let length ← toLength source length
    lift (LinearMemory.copy destination source length)
    pure .undefined
  | .fill destination value length => do
    let destination ← toAddress destination
    let length ← toLength destination length
    let value ← accept value.toOperand
    lift (LinearMemory.fill destination value.toInt32 length)
    pure .undefined
  | .write address data => do
    let length ← accept ((data.get "length").mapError .type)
    let address ← toAddress address
    let _ ← toEnd address length
    writeAll address data length
    pure .undefined
  | .read address length => do
    let address ← toAddress address
    let length ← toLength address length
    let bytes ← lift (LinearMemory.read address length)
    pure (.bytes bytes)

def ofName? (name : String) (args : List HostValue) : Option MemoryCall :=
  let arg (i : Nat) : HostValue := args[i]?.getD .undefined
  match name with
  | "pages" => some .pages
  | "size" => some .size
  | "maximum" => some .maximum
  | "grow" => some (.grow (arg 0))
  | "copy" => some (.copy (arg 0) (arg 1) (arg 2))
  | "fill" => some (.fill (arg 0) (arg 1) (arg 2))
  | "write" | "initData" => some (.write (arg 0) (arg 1))
  | "read" => some (.read (arg 0) (arg 1))
  | other =>
    (Accessor.ofName? other).map fun a =>
      if a.isStore then .store a (arg 0) (arg 1) else .load a (arg 0)

end MemoryCall

end WasmScript
