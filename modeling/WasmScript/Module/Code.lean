/-
  WasmScript/Module/Code.lean
  ===========================
  **Nested code** — a flat list of instructions with its blocks made visible.

  In a body, `block`, `loop` and `if` are closed by their own `end`.  `Code.ofBody?` reads
  this nesting off the list: each block holds the code up to its `end`, and the `end` that
  closes the function is the last instruction.  An `else` that no `if` waits for is left
  where it stands: it may only occur where no code runs.
-/
import WasmScript.Module.Basic

namespace WasmScript

/-- An instruction, or a block with the code inside. -/
inductive Code where
  | plain (instruction : Instruction)
  | block (type : BlockType) (body : List Code)
  | loop (type : BlockType) (body : List Code)
  | conditional (type : BlockType) (yes no : List Code)
deriving Repr, Inhabited

namespace Code

/-- A block that is still open: how it began, and the code before it, the last of it first. -/
inductive Open where
  | block (type : BlockType) (before : List Code)
  | loop (type : BlockType) (before : List Code)
  /-- The first arm of an `if`. -/
  | first (type : BlockType) (before : List Code)
  /-- The second arm of an `if`, after the first. -/
  | second (type : BlockType) (before yes : List Code)
deriving Repr, Inhabited

/-- The code of a list of instructions, inside some open blocks and after some code of the
innermost one, the last of it first. -/
def nest : List Instruction → List Open → List Code → Option (List Code)
  | [], _, _ => none
  | .block type :: rest, outer, code => nest rest (.block type code :: outer) []
  | .loop type :: rest, outer, code => nest rest (.loop type code :: outer) []
  | .ifBlock type :: rest, outer, code => nest rest (.first type code :: outer) []
  | .elseMark :: rest, .first type before :: outer, code =>
    nest rest (.second type before code.reverse :: outer) []
  | .endMark :: rest, .block type before :: outer, code =>
    nest rest outer (.block type code.reverse :: before)
  | .endMark :: rest, .loop type before :: outer, code =>
    nest rest outer (.loop type code.reverse :: before)
  | .endMark :: rest, .first type before :: outer, code =>
    nest rest outer (.conditional type code.reverse [] :: before)
  | .endMark :: rest, .second type before yes :: outer, code =>
    nest rest outer (.conditional type yes code.reverse :: before)
  | .endMark :: rest, [], code => if rest.isEmpty then some code.reverse else none
  | i :: rest, outer, code => nest rest outer (.plain i :: code)

def ofBody? (b : Body) : Option (List Code) :=
  nest (b.instructions.toList.map Located.instruction) [] []

end Code

end WasmScript
