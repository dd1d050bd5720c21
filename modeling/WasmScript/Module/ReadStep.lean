/-
  WasmScript/Module/ReadStep.lean
  ===============================
  **Reading step by step** — one operation of a reader at a time, with what it gives.

  A `ReadStep` is an operation as a user of readers asks for it, and `ReadStep.perform` is
  the parser that does it.
-/
import WasmScript.Module.Reader

namespace WasmScript

inductive ReadStep where
  | byte
  | peek
  | bytes (length : Nat)
  | u32
  | s32
  | s64
  | name
deriving DecidableEq, Repr, Inhabited

inductive ReadResult where
  | nothing
  | number (n : Nat)
  | integer (n : Int)
  | wide (n : Int)
  | bytes (b : ByteArray)
  | text (s : String)

namespace ReadStep

def perform : ReadStep → Parser ReadResult
  | .byte => .number <$> Parser.byte
  | .peek => (fun b => b.elim .nothing .number) <$> Parser.peek
  | .bytes length => .bytes <$> Parser.bytes length
  | .u32 => .number <$> Parser.u32
  | .s32 => .integer <$> Parser.s32
  | .s64 => .wide <$> Parser.s64
  | .name => .text <$> Parser.name

end ReadStep

end WasmScript
