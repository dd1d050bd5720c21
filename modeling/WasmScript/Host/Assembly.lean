/-
  WasmScript/Host/Assembly.lean
  =============================
  **Assemblers in the hands of a host** — adding items and bytes that are host values.

  A host puts any values where integers are encoded.  Each is used as a number: it loses
  its fraction and wraps, to 32 bits where it is encoded in LEB128 and to eight where it
  is a byte.  Most of what is added is kept as it is until the module is written; then a
  value that cannot be used keeps the module from being written.

  A `HostAssembler` is an assembler in which a zero stands for each such value, together
  with the `Refusal`s that say what is wrong and when it is noticed.  Sections are written
  in their order, and the items of a section are encoded before its bytes are written.
-/
import WasmScript.Host.Convert
import WasmScript.Module.Assembler

namespace WasmScript

/-- What keeps a module from being written. -/
structure Refusal where
  sectionId : SectionId
  /-- Whether it is noticed only when the bytes of the section are written. -/
  isByte : Bool
  /-- The place of the item in its section. -/
  item : Nat
  failure : Failure

namespace Refusal

/-- When a refusal is noticed: at an item of a stage of the writing. -/
def moment (r : Refusal) : Nat × Nat := (2 * r.sectionId.rank + (if r.isByte then 1 else 0), r.item)

def isBefore (a b : Nat × Nat) : Bool := a.1 < b.1 || (a.1 == b.1 && a.2 < b.2)

/-- The refusal that is noticed first; of two at one moment it is the one made first. -/
def first? : List Refusal → Option Refusal
  | [] => none
  | r :: rest =>
    match first? rest with
    | some s => some (if isBefore s.moment r.moment then s else r)
    | none => some r

end Refusal

/-- An assembler, and what keeps its module from being written. -/
structure HostAssembler where
  assembler : Assembler := {}
  refusals : List Refusal := []

namespace HostAssembler

/-- A change of an assembler that gives a value or fails. -/
abbrev Act := EStateM Failure HostAssembler

/-- What was found, unless it cannot be used. -/
def accept {α : Type} : Except Failure α → Act α
  | .ok a => pure a
  | .error e => throw e

/-! ### Values that are kept -/

def wordOf (v : HostValue) : Except Failure Int := Number.truncated <$> v.toOperand

/-- A value that is used when the module is written, as what it is converted to.  If it cannot be
used, that is noted and another value stands for it. -/
def later {α : Type} (sectionId : SectionId) (isByte : Bool) (item : Nat) (instead : α) :
    Except Failure α → Act α
  | .ok a => pure a
  | .error e => do
    modify fun h => { h with refusals := h.refusals ++ [⟨sectionId, isByte, item, e⟩] }
    pure instead

def encodedName (sectionId : SectionId) (item : Nat) (v : HostValue) : Act String :=
  later sectionId false item "" v.optionalText

def byte (sectionId : SectionId) (item : Nat) (v : HostValue) : Act UInt8 :=
  later sectionId true item 0 v.toByte

def bytes (sectionId : SectionId) (item : Nat) (vs : List HostValue) : Act (List UInt8) :=
  vs.mapM (byte sectionId item)

/-- Values that are written as bytes, after the number of them that their list says to have. -/
def counted (sectionId : SectionId) (item : Nat) (name : String) (list : HostValue) :
    Act (List UInt8) := do
  let length ← accept ((list.get "length").mapError .type)
  let length ← accept (wordOf length)
  let items ← accept (list.argumentsOf name)
  let bytes ← bytes sectionId item items
  pure (Assembler.u32 length ++ bytes)

def forget (sectionId : SectionId) (item : Nat) : Act Unit := modify fun h =>
  { h with refusals := h.refusals.filter fun r => r.sectionId ≠ sectionId || r.item != item }

/-! ### Adding items -/

/-- Changes the assembler; gives what the change gives. -/
def change {α : Type} (f : Assembler → α × Assembler) : Act α := fun h =>
  let (a, assembler) := f h.assembler
  .ok a { h with assembler }

/-- Adds an item; gives its index. -/
def add (f : Assembler → Nat × Assembler) : Act HostValue := HostValue.ofNat <$> change f

/-- Changes the assembler; gives nothing. -/
def run (f : Assembler → Assembler) : Act HostValue := change fun a => (.undefined, f a)

/-- A number of pages or of elements that may be missing. -/
def optionalWord : HostValue → Act (Option Int)
  | .undefined => pure none
  | v => some <$> accept (wordOf v)

def addType (params results : HostValue) : Act HostValue := do
  let item := (← get).assembler.types.size
  let params ← counted .type item "params" params
  let results ← counted .type item "results" results
  add (·.pushType (Assembler.encodeType params results))

def importNames (module name : HostValue) : Act (String × String) := do
  let item := (← get).assembler.imports.size
  let module ← encodedName .import item module
  let name ← encodedName .import item name
  pure (module, name)

def addImport (module name typeIndex : HostValue) : Act HostValue := do
  let typeIndex ← accept (wordOf typeIndex)
  let (module, name) ← importNames module name
  add (·.addImport module name typeIndex)

def addMemoryImport (module name initial maximum : HostValue) : Act HostValue := do
  let initial ← accept (wordOf initial)
  let maximum ← optionalWord maximum
  let (module, name) ← importNames module name
  run (·.addMemoryImport module name initial maximum)

/-- Adds an import of another kind than a function, with its descriptor. -/
def addRawImport (module name kind descriptor : HostValue) : Act HostValue := do
  if kind.isNumber (.ofInt 0) then throw (.thrown AssemblyError.functionImport.message)
  let item := (← get).assembler.imports.size
  let (module, name) ← importNames module name
  let kind ← byte .import item kind
  let items ← later .import false item [] (descriptor.itemsOf "imp.desc")
  let descriptor ← bytes .import item items
  run (·.pushImport module name kind descriptor)

def addFunction (typeIndex : HostValue) : Act HostValue := do
  let item := (← get).assembler.functions.size
  let typeIndex ← later .function false item 0 (wordOf typeIndex)
  add (·.addFunction typeIndex)

/-- The place among the defined functions that an index names.  An index that is within the code
without being a place names none. -/
def codePlace (index : HostValue) : Act (Option Nat) := do
  let a := (← get).assembler
  let n ← accept index.toOperand
  let defined := n.sub (.ofInt a.importedFunctions)
  if defined ≠ .nan ∧ (defined.lt (.ofInt 0) ∨ !defined.lt (.ofInt a.codes.size)) then
    let index ← accept index.toText
    throw (.thrown (AssemblyError.codeIndex index).message)
  pure (defined.toInteger?.map Int.toNat)

/-- Gives a function its code; locals that are the same are declared together. -/
def addCode (index locals body : HostValue) : Act HostValue := do
  let place ← codePlace index
  let locals ← accept (locals.itemsOf "locals")
  let body ← accept (body.argumentsOf "body")
  match place with
  | none => pure .undefined
  | some place => do
    forget .code place
    let runs ← (Assembler.runs HostValue.same locals).mapM fun (type, count) =>
      (fun b => (b, count)) <$> byte .code place type
    let body ← bytes .code place body
    run (·.setCode place (Assembler.encodeRuns runs ++ body))

def addTable (type initial maximum : HostValue) : Act HostValue := do
  let initial ← accept (wordOf initial)
  let maximum ← optionalWord maximum
  let type ← byte .table (← get).assembler.tables.size type
  add (·.addTable type initial maximum)

def addGlobal (type isMutable init : HostValue) : Act HostValue := do
  let item := (← get).assembler.globals.size
  let init ← accept (init.itemsOf "init")
  let type ← byte .global item type
  let init ← bytes .global item init
  add (·.addGlobal type isMutable.truthy init)

def addExport (name kind index : HostValue) : Act HostValue := do
  let item := (← get).assembler.exports.size
  let name ← encodedName .export item name
  let kind ← byte .export item kind
  let index ← later .export false item 0 (wordOf index)
  run (·.addExport name kind index)

def addData (offset content : HostValue) : Act HostValue := do
  let item := (← get).assembler.data.size
  let offset ← accept (wordOf offset)
  let content ← counted .data item "bytes" content
  add (·.pushData (Assembler.encodeData offset content))

def addPassiveData (content : HostValue) : Act HostValue := do
  let item := (← get).assembler.data.size
  let content ← counted .data item "bytes" content
  add (·.pushData (Assembler.encodePassiveData content))

/-- Adds a custom section; content that is missing is empty. -/
def addCustomSection (name content : HostValue) : Act HostValue := do
  let item := (← get).assembler.customSections.size
  let items ← match content with
    | .undefined => pure []
    | content => accept (content.itemsOf "bytes")
  let name ← encodedName .custom item name
  let content ← bytes .custom item items
  run (·.addCustomSection name content)

/-- Sets the start function, or takes it back. -/
def setStart (function : HostValue) : Act HostValue := do
  forget .start 0
  match function with
  | .undefined => run ({ · with start := none })
  | v => do
    let index ← later .start false 0 0 (wordOf v)
    run (·.setStart index)

/-! ### What a host asks for -/

/-- Does what a host asks for by name; gives what the host gets. -/
def perform (name : String) (args : List HostValue) : Act HostValue := do
  let arg (i : Nat) : HostValue := args[i]?.getD .undefined
  let word (i : Nat) : Act Int := accept (wordOf (arg i))
  match name with
  | "addType" => addType (arg 0) (arg 1)
  | "addImport" => addImport (arg 0) (arg 1) (arg 2)
  | "addRawImport" => addRawImport (arg 0) (arg 1) (arg 2) (arg 3)
  | "addMemoryImport" => addMemoryImport (arg 0) (arg 1) (arg 2) (arg 3)
  | "addFunction" => addFunction (arg 0)
  | "addCode" => addCode (arg 0) (arg 1) (arg 2)
  | "addTable" => addTable (arg 0) (arg 1) (arg 2)
  | "addMemory" => do
    let initial ← word 0
    let maximum ← optionalWord (arg 1)
    add (·.addMemory initial maximum)
  | "addGlobal" => addGlobal (arg 0) (arg 1) (arg 2)
  | "addExport" => addExport (arg 0) (arg 1) (arg 2)
  | "addData" => addData (arg 0) (arg 1)
  | "addPassiveData" => addPassiveData (arg 0)
  | "addCustomSection" => addCustomSection (arg 0) (arg 1)
  | _ => setStart (arg 0)

def toBytes (h : HostAssembler) : Except Failure ByteArray :=
  match Refusal.first? h.refusals with
  | some r => .error r.failure
  | none => .ok h.assembler.toBytes

end HostAssembler

/-! ### Encodings by themselves -/

def HostValue.ofBytes (bytes : List UInt8) : HostValue :=
  .array (bytes.map fun b => .ofNat b.toNat)

def Assembler.encode (name : String) (args : List HostValue) : Except Failure HostValue := do
  let arg (i : Nat) : HostValue := args[i]?.getD .undefined
  match name with
  | "u" => pure (.ofBytes (u32 (← HostAssembler.wordOf (arg 0))))
  | "s" => pure (.ofBytes (s32 (← HostAssembler.wordOf (arg 0))))
  | "s64" => pure (.ofBytes (s64 (← (arg 0).toBigInt)))
  | _ => do
    let length ← ((arg 1).get "length").mapError .type
    let length ← HostAssembler.wordOf length
    let content ← (arg 1).itemsOf "content"
    pure (.array (frame (fun b => .ofNat b.toNat) (arg 0) length content))

end WasmScript
