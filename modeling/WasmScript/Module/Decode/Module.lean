/-
  WasmScript/Module/Decode/Module.lean
  ====================================
  **Reading modules** — the header, the sections in their order, and what must hold
  between them.

  `Module.decode` gives the module that a byte string stands for, or the first fault in
  it.  A module that is given back is consistent: indices name what exists, every defined
  function has a body, and the names of the exports are distinct.
-/
import WasmScript.Module.Decode.Instruction

namespace WasmScript

namespace Decode

open WasmScript.Parser

/-- The pages of a 32-bit address space. -/
def maxMemoryPages : Nat := 65536

/-! ### Types and limits -/

def functionType : Parser FunctionType := do
  let pos ← position
  let form ← byte
  if form ≠ Binary.functionForm then
    if form ∈ [0x50, 0x4e, 0x5e, 0x5f] then refuse .collectedTypes pos
    else failAt (.typeForm form) pos
  else
    let params ← vector valueType
    let results ← vector valueType
    pure ⟨params.toList, results.toList⟩

def typeIndex (m : Module) : Parser Nat := do
  let pos ← position
  let index ← u32
  if index < m.types.size then pure index else failAt (.typeIndex index) pos

/-- The largest size, if the flags announce one. -/
def largest (flags : Nat) : Parser (Option Nat) := if flags = 1 then some <$> u32 else pure none

/-- The sizes of a memory or table, none above `bound`. -/
def limits (bound : Nat) (what : String) : Parser Limits := do
  let pos ← position
  let flags ← byte
  if flags = 2 ∨ flags = 3 then refuse (.shared what) pos
  else if 4 ≤ flags ∧ flags ≤ 7 then refuse (.wide what) pos
  else if 1 < flags then failAt (.limitsFlags flags) pos
  else
    let initial ← u32
    let maximum ← largest flags
    if bound < initial ∨ maximum.any fun n => decide (bound < n ∨ n < initial) then
      failAt (.limits what ⟨initial, maximum⟩) pos
    else pure ⟨initial, maximum⟩

def memoryLimits : Parser Limits := limits maxMemoryPages "memory"

def table : Parser Limits := do
  let pos ← position
  let type ← byte
  if type = 0x70 ∨ type = 0x6f then limits 0xffffffff "table" else failAt (.tableElement type) pos

/-! ### Imports, memories and globals -/

def importEntry (m : Module) : Parser Module := do
  let source ← name
  let field ← name
  let pos ← position
  match ← byte with
  | 0 => do
    let index ← typeIndex m
    pure { m with imports := m.imports.push ⟨source, field, index⟩ }
  | 1 => refuse (.importedTable source field) pos
  | 2 =>
    if m.memory.isSome then refuse .multipleMemories pos
    else do
      let found ← memoryLimits
      pure { m with memory := some found, memoryImport := some ⟨source, field⟩ }
  | 3 => refuse (.importedGlobal source field) pos
  | kind => refuse (.importKind kind) pos

def importEntries : (count : Nat) → Module → Parser Module
  | 0, m => pure m
  | count + 1, m => do importEntries count (← importEntry m)

/-- The memory section: at most one memory, unless one is imported. -/
def memory (m : Module) : Parser Module := do
  let pos ← position
  let count ← u32
  if 1 < count ∨ (count = 1 ∧ m.memory.isSome) then refuse .multipleMemories pos
  else if count = 1 then
    let found ← memoryLimits
    pure { m with memory := some found }
  else pure m

def literal (pos opcode : Nat) : Parser Value :=
  match Opcode.ofByte? opcode with
  | some .i32Const => Value.i32 <$> s32
  | some .i64Const => Value.i64 <$> s64
  | some .globalGet => refuse .globalInConstant pos
  | some .f32Const | some .f64Const => refuse .floatConstants pos
  | _ => failAt (.constantOpcode opcode) pos

/-- A constant expression of a type: one constant and an `end`. -/
def constant (type : ValueType) : Parser Value := do
  let pos ← position
  let value ← literal pos (← byte)
  if value.type ≠ type then failAt (.constantType value.type type) pos
  else
    let last ← position
    if (← byte) ≠ Opcode.endMark.byte then failAt .constantEnd last else pure value

def global : Parser Global := do
  let type ← valueType
  let pos ← position
  let flag ← byte
  if 1 < flag then failAt (.mutability flag) pos else pure ⟨type, flag = 1, ← constant type⟩

/-! ### Exports and the start function -/

def exportKind? (m : Module) : Nat → Option (ExportKind × Nat)
  | 0 => some (.function, m.functionCount)
  | 1 => some (.table, m.tables.length)
  | 2 => some (.memory, if m.memory.isSome then 1 else 0)
  | 3 => some (.global, m.globals.size)
  | _ => none

/-- An export whose name differs from those before it. -/
def exportEntry (m : Module) (before : Array Export) : Parser Export := do
  let pos ← position
  let label ← name
  if before.any fun e => e.name = label then failAt (.duplicateExport label) pos
  else
    let descriptor ← position
    let kind ← byte
    let index ← u32
    match exportKind? m kind with
    | some (kind, bound) =>
      if index < bound then pure ⟨label, kind, index⟩
      else failAt (.exportTarget label kind index) descriptor
    | none => failAt (.exportKind kind) descriptor

/-- As many exports as asked for, after those already read. -/
def exportEntries (m : Module) : (count : Nat) → Array Export → Parser (Array Export)
  | 0, read => pure read
  | count + 1, read => do exportEntries m count (read.push (← exportEntry m read))

/-- The start function, which takes and gives nothing. -/
def start (m : Module) : Parser Module := do
  let pos ← position
  let index ← u32
  if m.functionCount ≤ index then failAt (.startIndex index) pos
  else if m.functionType? index = some ⟨[], []⟩ then pure { m with start := some index }
  else failAt .startType pos

/-! ### Code and data -/

/-- As many bodies as asked for, after those already read. -/
def bodies (scope : Scope) : (count : Nat) → Array Body → Parser (Array Body)
  | 0, read => pure read
  | count + 1, read => do
    let size ← u32
    let next ← within size none (body scope)
    bodies scope count (read.push next)

/-- The code section: a body for each defined function. -/
def code (m : Module) : Parser Module := do
  let pos ← position
  let count ← u32
  if count ≠ m.functions.size then failAt (.bodyCount count m.functions.size) pos
  else
    let read ← bodies ⟨m.types, m.functionCount⟩ count #[]
    pure { m with bodies := read }

/-- Checks the flags of a data segment, which may be followed by the index of the memory. -/
def dataFlags (pos flags : Nat) : Parser Unit :=
  if flags = 1 then refuse .passiveData pos
  else if flags = 2 then memoryIndex
  else if flags ≠ 0 then failAt (.dataFlags flags) pos
  else pure ()

/-- A data segment.  Its offset is a 32-bit constant read as unsigned. -/
def dataSegment (m : Module) : Parser DataSegment := do
  let pos ← position
  dataFlags pos (← u32)
  if m.memory.isNone then failAt .dataWithoutMemory pos
  else
    let offset ← constant .i32
    let content ← bytes (← u32)
    pure ⟨Bits.unsigned 32 offset.toInt, content.data.toList⟩

/-! ### Sections -/

/-- What is known after some sections. -/
structure Progress where
  module : Module := {}
  /-- The number of data segments that a data count section announces. -/
  dataCount : Option Nat := none
  sawCode : Bool := false

def contents (id : SectionId) (p : Progress) : Parser Progress := do
  let m := p.module
  match id with
  | .custom => pure p
  | .type => pure { p with module := { m with types := ← vector functionType } }
  | .import => pure { p with module := ← importEntries (← vectorCount) m }
  | .function => pure { p with module := { m with functions := ← vector (typeIndex m) } }
  | .table => pure { p with module := { m with tables := (← vector table).toList } }
  | .memory => pure { p with module := ← memory m }
  | .global => pure { p with module := { m with globals := ← vector global } }
  | .export =>
    let entries ← exportEntries m (← vectorCount) #[]
    pure { p with module := { m with exports := entries.toList } }
  | .start => pure { p with module := ← start m }
  | .element => do
    let pos ← position
    if (← u32) ≠ 0 then refuse .elementSegments pos else pure p
  | .dataCount => pure { p with dataCount := some (← u32) }
  | .code => pure { p with module := ← code m, sawCode := true }
  | .data => pure { p with module := { m with data := (← vector (dataSegment m)).toList } }

def entering (sectionName : String) : Parser Unit :=
  fun r => .ok () { r with sectionName := sectionName }

/-- The sections up to the end of the input, each after the one of rank `last`.  Each takes at
least a byte, so as many as there are bytes are enough. -/
def sections : (fuel : Nat) → (last : Option Nat) → Progress → Parser Progress
  | 0, _, p => pure p
  | fuel + 1, last, p => do
    if (← remaining) = 0 then return p
    entering "module"
    let start ← position
    let number ← byte
    match SectionId.ofNumber? number with
    | none => failAt (.unknownSection number) start
    | some .custom =>
      entering SectionId.custom.name
      let size ← u32
      let label ← within size (some SectionId.custom.name) name
      let m := p.module
      sections fuel last
        { p with module := { m with customSections := m.customSections ++ [label] } }
    | some id =>
      entering id.name
      let size ← u32
      let p ← within size (some id.name) do
        if last.any fun rank => decide (id.rank ≤ rank) then failAt (.sectionOrder id.name) start
        else
          let p ← contents id p
          let rest ← remaining
          if rest ≠ 0 then fail (.unreadBytes id.name rest) else pure p
      sections fuel (some id.rank) p

def header : Parser Unit := do
  if (← remaining) < 8 then fail .truncatedHeader
  else if (← bytes 4).data.toList ≠ Binary.magic then failAt .invalidMagic 0
  else if (← bytes 4).data.toList ≠ Binary.version then failAt .invalidVersion 4

/-- What must hold between sections once all are read. -/
def finish (p : Progress) : Parser Module := do
  let m := p.module
  if ¬ p.sawCode ∧ 0 < m.functions.size then fail (.missingCode m.functions.size)
  else
    match p.dataCount with
    | some count =>
      if count ≠ m.data.length then fail (.dataCount count m.data.length) else pure m
    | none => pure m

def module : Parser Module := do
  header
  let left ← remaining
  finish (← sections (left + 1) none {})

end Decode

/-- The module that a byte string stands for, or the first fault in it. -/
def Module.decode (bytes : ByteArray) : Except DecodeError Module :=
  match Decode.module (Reader.ofBytes bytes "header") with
  | .ok m _ => .ok m
  | .error e _ => .error e

end WasmScript
