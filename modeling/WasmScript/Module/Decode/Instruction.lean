/-
  WasmScript/Module/Decode/Instruction.lean
  =========================================
  **Reading instructions** — one instruction after another up to the `end` that closes
  the body.

  What an instruction may refer to while it is read is its `Scope`: the types of the
  module and the number of its functions.  Everything else about a body is checked when
  it is built.  Features outside the supported subset are refused by name, at the offset
  of the opcode.
-/
import WasmScript.Module.Reader
import WasmScript.Module.Access
import WasmScript.Module.NumericOp
import WasmScript.Module.Section

namespace WasmScript

namespace Parser

def refuse {α : Type} (feature : Feature) (offset : Nat) : Parser α :=
  failAt (.unsupported feature) offset

def valueType : Parser ValueType := do
  let pos ← position
  match ← byte with
  | 0x7f => pure .i32
  | 0x7e => pure .i64
  | 0x7d | 0x7c => refuse .floatTypes pos
  | 0x7b => refuse .vectorTypes pos
  | 0x70 | 0x6f => refuse .referenceTypes pos
  | other => failAt (.valueType other) pos

end Parser

/-- What an instruction may refer to. -/
structure Scope where
  types : Array FunctionType
  functions : Nat

namespace Decode

open WasmScript.Parser

/-- A block type: nothing, a single result, or the index of a type. -/
def blockType (scope : Scope) : Parser BlockType := do
  let pos ← position
  match ← peek with
  | some 0x40 =>
    let _ ← byte
    pure ⟨[], []⟩
  | next =>
    if next.any fun b => decide (0x40 ≤ b ∧ b < 0x80) then
      pure ⟨[], [← valueType]⟩
    else
      let index ← s64
      match if 0 ≤ index then scope.types[index.toNat]? else none with
      | some type => pure type
      | none => failAt (.blockTypeIndex index) pos

def memArg (access : Access) : Parser MemArg := do
  let pos ← position
  let align ← u32
  if align.testBit 6 then refuse .multipleMemories pos
  else if access.naturalAlignment < align then
    failAt (.alignment align access.naturalAlignment) pos
  else pure ⟨align, ← u32⟩

def memoryIndex : Parser Unit := do
  let pos ← position
  if (← byte) ≠ 0 then refuse .multipleMemories pos

/-- An instruction behind the byte `0xfc`. -/
def escaped (pos : Nat) : Parser Instruction := do
  match ← u32 with
  | 10 => do
    memoryIndex
    memoryIndex
    pure .memoryCopy
  | 11 => do
    memoryIndex
    pure .memoryFill
  | 8 | 9 => refuse .passiveData pos
  | number =>
    if number < 8 then refuse .saturatingTruncation pos
    else if number ≤ 17 then refuse .tableInstructions pos
    else failAt (.unknownEscaped number) pos

def isFloatNumeric (byte : Nat) : Bool :=
  (0x5b ≤ byte ∧ byte ≤ 0x66) ∨ (0x8b ≤ byte ∧ byte ≤ 0xa6) ∨ (0xa8 ≤ byte ∧ byte ≤ 0xab)
    ∨ (0xae ≤ byte ∧ byte ≤ 0xbf)

/-- An instruction whose byte carries no immediates and is no `Opcode`. -/
def plain (pos byte : Nat) : Parser Instruction :=
  if byte = 0x12 ∨ byte = 0x13 then refuse .tailCalls pos
  else if byte = 0x25 ∨ byte = 0x26 then refuse .tableInstructions pos
  else if (NumericOp.ofOpcode? byte).isSome then pure (.numeric byte)
  else if isFloatNumeric byte then refuse .floatInstructions pos
  else if 0xd0 ≤ byte ∧ byte ≤ 0xd6 then refuse .referenceInstructions pos
  else failAt (.unknownOpcode byte) pos

def access (pos byte : Nat) : Parser Instruction :=
  match Access.ofOpcode? byte with
  | some a => do
    let arg ← memArg a
    pure (if a.isStore then .store byte arg else .load byte arg)
  | none => refuse .floatMemoryAccess pos

def operation (scope : Scope) (pos first : Nat) : Parser Instruction :=
  match Opcode.ofByte? first with
  | some .unreachable => pure .unreachable
  | some .nop => pure .nop
  | some .block => .block <$> blockType scope
  | some .loop => .loop <$> blockType scope
  | some .ifBlock => .ifBlock <$> blockType scope
  | some .elseMark => pure .elseMark
  | some .endMark => pure .endMark
  | some .br => .br <$> u32
  | some .brIf => .brIf <$> u32
  | some .brTable => do
    let depths ← vector u32
    pure (.brTable depths.toList (← u32))
  | some .ret => pure .ret
  | some .call => do
    let index ← u32
    if index < scope.functions then pure (.call index) else failAt (.callTarget index) pos
  | some .callIndirect => refuse .indirectCalls pos
  | some .drop => pure .drop
  | some .select => pure .select
  | some .selectT => do
    let types ← vector valueType
    if types.size = 1 then pure .select else failAt .selectTypes pos
  | some .localGet => .localGet <$> u32
  | some .localSet => .localSet <$> u32
  | some .localTee => .localTee <$> u32
  | some .globalGet => .globalGet <$> u32
  | some .globalSet => .globalSet <$> u32
  | some .memorySize => do
    memoryIndex
    pure .memorySize
  | some .memoryGrow => do
    memoryIndex
    pure .memoryGrow
  | some .i32Const => (fun n => .const (.i32 n)) <$> s32
  | some .i64Const => (fun n => .const (.i64 n)) <$> s64
  | some .f32Const | some .f64Const => refuse .floatConstants pos
  | some .escapeFC => escaped pos
  | some .escapeFD => refuse .vectorInstructions pos
  | some .escapeFE => refuse .atomicInstructions pos
  | some _ => access pos first
  | none => plain pos first

def instruction (scope : Scope) : Parser Located := do
  let pos ← position
  pure ⟨pos, ← operation scope pos (← byte)⟩

/-- The instructions up to the `end` that closes the body, `depth` blocks being open.  Each
takes at least a byte, so as many as there are bytes are enough. -/
def instructions (scope : Scope) :
    (fuel depth : Nat) → Array Located → Parser (Array Located)
  | 0, _, _ => fail .unexpectedEnd
  | fuel + 1, depth, read => do
    let next ← instruction scope
    let read := read.push next
    match next.instruction, depth with
    | .endMark, 0 => pure read
    | .endMark, depth + 1 => instructions scope fuel depth read
    | i, depth => instructions scope fuel (if i.opensBlock then depth + 1 else depth) read

/-- The most locals a function may declare. -/
def maxLocals : Nat := 50000

def localGroups : (groups : Nat) → Array ValueType → Parser (Array ValueType)
  | 0, locals => pure locals
  | groups + 1, locals => do
    let pos ← position
    let count ← u32
    let type ← valueType
    if maxLocals < locals.size + count then failAt (.tooManyLocals maxLocals) pos
    else localGroups groups (locals ++ Array.replicate count type)

/-- A function body, which fills its stretch. -/
def body (scope : Scope) : Parser Body := do
  let pos ← position
  let locals ← localGroups (← u32) #[]
  let code ← instructions scope ((← remaining) + 1) 0 #[]
  let rest ← remaining
  if rest ≠ 0 then fail (.bodyOverrun rest) else pure ⟨locals, code, pos⟩

end Decode

end WasmScript
