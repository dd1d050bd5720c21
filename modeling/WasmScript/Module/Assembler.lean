/-
  WasmScript/Module/Assembler.lean
  ================================
  **Assembling binaries** — the bytes of a module, put together section by section.

  An `Assembler` holds the encoded items of each section in the order in which they were
  added.  `Assembler.toBytes` writes the sections that have items, in the fixed order,
  and the custom sections last.  Bodies and initializers are taken as they are.
-/
import WasmScript.Module.ByteBuffer
import WasmScript.Module.Section
import WasmScript.Integer.Leb128
import WasmScript.Text.Units

namespace WasmScript

/-- Why something cannot be added. -/
inductive AssemblyError where
  | functionImport
  | codeIndex (index : String)
deriving DecidableEq, Repr, Inhabited

namespace AssemblyError

def message : AssemblyError → String
  | .functionImport => "Use addImport for function imports"
  | .codeIndex index => s!"Invalid function index for code: {index}"

end AssemblyError

/-- The encoded items of each section. -/
structure Assembler where
  types : Array (List UInt8) := #[]
  imports : Array (List UInt8) := #[]
  functions : Array (List UInt8) := #[]
  tables : Array (List UInt8) := #[]
  memories : Array (List UInt8) := #[]
  globals : Array (List UInt8) := #[]
  exports : Array (List UInt8) := #[]
  codes : Array (List UInt8) := #[]
  data : Array (List UInt8) := #[]
  customSections : Array (List UInt8) := #[]
  importedFunctions : Nat := 0
  start : Option Int := none
deriving DecidableEq, Repr, Inhabited

namespace Assembler

/-! ### Encodings -/

/-- An integer in unsigned LEB128, modulo 2^32. -/
def u32 (n : Int) : List UInt8 := Leb128.unsigned (Bits.unsigned32 n)

/-- An integer in signed LEB128, brought into the signed 32-bit range. -/
def s32 (n : Int) : List UInt8 := Leb128.signed (Bits.signed32 n)

/-- An integer in signed LEB128, brought into the signed 64-bit range. -/
def s64 (n : Int) : List UInt8 := Leb128.signed (Bits.signed 64 n)

def counted (bytes : List UInt8) : List UInt8 := u32 bytes.length ++ bytes

/-- A function type, from its parameters and results after their numbers. -/
def encodeType (params results : List UInt8) : List UInt8 :=
  UInt8.ofNat Binary.functionForm :: params ++ results

/-- A data segment at a constant offset, from its bytes after their number. -/
def encodeData (offset : Int) (bytes : List UInt8) : List UInt8 :=
  0x00 :: 0x41 :: s32 offset ++ 0x0b :: bytes

/-- A data segment that is not written on instantiation, from its bytes after their number. -/
def encodePassiveData (bytes : List UInt8) : List UInt8 := 0x01 :: bytes

/-- A name: the number of its bytes in UTF-8, and these bytes. -/
def encodeName (s : String) : List UInt8 := counted (Units.toUTF8 s).data.toList

/-- Limits, with a flag that says whether there is a maximum. -/
def encodeLimits (initial : Int) : (maximum : Option Int) → List UInt8
  | none => 0x00 :: u32 initial
  | some maximum => 0x01 :: u32 initial ++ u32 maximum

/-- Runs of equal items, as the item and its count. -/
def runs {α : Type} (same : α → α → Bool) : List α → List (α × Nat)
  | [] => []
  | t :: rest =>
    match runs same rest with
    | (u, count) :: more =>
      if same t u then (t, count + 1) :: more else (t, 1) :: (u, count) :: more
    | [] => [(t, 1)]

/-- Declared locals, from runs of equal types. -/
def encodeRuns (rs : List (UInt8 × Nat)) : List UInt8 :=
  u32 rs.length ++ rs.flatMap fun (type, count) => u32 count ++ [type]

/-- Declared locals as runs of equal types. -/
def encodeLocals (locals : List Int) : List UInt8 :=
  encodeRuns ((runs (· == ·) locals).map fun (type, count) => (ByteBuffer.byteOf type, count))

/-- A section: its number, the length that its content is said to have, its content. -/
def frame {α : Type} (ofByte : UInt8 → α) (id : α) (length : Int) (content : List α) : List α :=
  id :: (u32 length).map ofByte ++ content

/-! ### Adding items -/

/-- Adds an encoded function type; gives its index. -/
def pushType (a : Assembler) (item : List UInt8) : Nat × Assembler :=
  (a.types.size, { a with types := a.types.push item })

/-- Adds a function type; gives its index. -/
def addType (a : Assembler) (params results : List UInt8) : Nat × Assembler :=
  a.pushType (encodeType (counted params) (counted results))

def pushImport (a : Assembler) (module name : String) (kind : UInt8) (descriptor : List UInt8) :
    Assembler :=
  let item := encodeName module ++ encodeName name ++ kind :: descriptor
  { a with imports := a.imports.push item }

/-- Adds an imported function; gives its number among the imported functions. -/
def addImport (a : Assembler) (module name : String) (typeIndex : Int) : Nat × Assembler :=
  let a := a.pushImport module name 0 (u32 typeIndex)
  (a.importedFunctions, { a with importedFunctions := a.importedFunctions + 1 })

def addRawImport (a : Assembler) (module name : String) (kind : Int) (descriptor : List UInt8) :
    Except AssemblyError Assembler :=
  if kind = 0 then .error .functionImport
  else .ok (a.pushImport module name (ByteBuffer.byteOf kind) descriptor)

def addMemoryImport (a : Assembler) (module name : String) (initial : Int)
    (maximum : Option Int) : Assembler :=
  a.pushImport module name 2 (encodeLimits initial maximum)

/-- Adds a function without code; gives its index among all functions. -/
def addFunction (a : Assembler) (typeIndex : Int) : Nat × Assembler :=
  (a.importedFunctions + a.functions.size,
    { a with functions := a.functions.push (u32 typeIndex), codes := a.codes.push [] })

/-- Gives the function with a place among the defined ones its encoded code. -/
def setCode (a : Assembler) (place : Nat) (code : List UInt8) : Assembler :=
  { a with codes := a.codes.setIfInBounds place code }

def addCode (a : Assembler) (index : Int) (locals : List Int) (body : List UInt8) :
    Except AssemblyError Assembler :=
  let defined := index - a.importedFunctions
  if defined < 0 ∨ (a.codes.size : Int) ≤ defined then .error (.codeIndex (toString index))
  else .ok (a.setCode defined.toNat (encodeLocals locals ++ body))

/-- Adds a table; gives its index. -/
def addTable (a : Assembler) (type : UInt8) (initial : Int) (maximum : Option Int) :
    Nat × Assembler :=
  let item := type :: encodeLimits initial maximum
  (a.tables.size, { a with tables := a.tables.push item })

/-- Adds a memory; gives its index. -/
def addMemory (a : Assembler) (initial : Int) (maximum : Option Int) : Nat × Assembler :=
  (a.memories.size, { a with memories := a.memories.push (encodeLimits initial maximum) })

/-- Adds a global, whose initializer is given without its final `end`; gives its index. -/
def addGlobal (a : Assembler) (type : UInt8) (isMutable : Bool) (init : List UInt8) :
    Nat × Assembler :=
  let item := type :: (if isMutable then 1 else 0) :: init ++ [0x0b]
  (a.globals.size, { a with globals := a.globals.push item })

def addExport (a : Assembler) (name : String) (kind : UInt8) (index : Int) : Assembler :=
  { a with exports := a.exports.push (encodeName name ++ kind :: u32 index) }

/-- Adds an encoded data segment; gives its index. -/
def pushData (a : Assembler) (item : List UInt8) : Nat × Assembler :=
  (a.data.size, { a with data := a.data.push item })

/-- Adds a data segment at a constant offset; gives its index. -/
def addData (a : Assembler) (offset : Int) (bytes : List UInt8) : Nat × Assembler :=
  a.pushData (encodeData offset (counted bytes))

/-- Adds a data segment that is not written on instantiation; gives its index. -/
def addPassiveData (a : Assembler) (bytes : List UInt8) : Nat × Assembler :=
  a.pushData (encodePassiveData (counted bytes))

def addCustomSection (a : Assembler) (name : String) (bytes : List UInt8) : Assembler :=
  { a with customSections := a.customSections.push (encodeName name ++ bytes) }

def setStart (a : Assembler) (function : Int) : Assembler := { a with start := some function }

/-! ### Writing -/

def writeSection (id : SectionId) (content : List UInt8) (b : ByteBuffer) : ByteBuffer :=
  (b.pushByte (UInt8.ofNat id.number)).push (counted content)

/-- Writes a section of items, unless there are none. -/
def writeItems (id : SectionId) (items : Array (List UInt8)) (b : ByteBuffer) : ByteBuffer :=
  if items.isEmpty then b
  else writeSection id (u32 items.size ++ items.toList.flatten) b

def toBytes (a : Assembler) : ByteArray :=
  let b := (ByteBuffer.create.push Binary.magic).push Binary.version
  let b := writeItems .type a.types b
  let b := writeItems .import a.imports b
  let b := writeItems .function a.functions b
  let b := writeItems .table a.tables b
  let b := writeItems .memory a.memories b
  let b := writeItems .global a.globals b
  let b := writeItems .export a.exports b
  let b := match a.start with
    | some function => writeSection .start (u32 function) b
    | none => b
  let b := writeItems .code (a.codes.map counted) b
  let b := writeItems .data a.data b
  (a.customSections.foldl (fun b content => writeSection .custom content b) b).toBytes

end Assembler

end WasmScript
