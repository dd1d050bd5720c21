/-
  WasmScript/Proofs/Script/QuotedNames.lean
  =========================================
  **Names in the text of a script** — that a name stays inside its literal or its comment.

  The names of imports, exports and helpers are printed into code, those of exported
  functions into line comments as well.  `literals_text` reads the whole text of a script and
  finds exactly its names, in order and unchanged: none of them ends a literal early, runs on
  into the code after it, or leaves the comment that it stands in.
-/
import WasmScript.Proofs.Script.Readers

namespace WasmScript

open WasmScript.Units (ofString)
open Lexer (scan)

namespace Script

def ImportBinding.names (b : ImportBinding) : List String :=
  b.module :: b.field :: (b.type.params ++ b.type.results).map ValueType.name

def MemoryBinding.names : MemoryBinding → List String
  | .lent module field _ => [module, field]
  | .owned .. => []

namespace Program

/-- The texts that a script quotes outside of comments: the place of its helpers, the names of the
imports with their types, the digits of the data and the names of the exports. -/
def names (p : Program) : List String :=
  (match p.options.format with
    | .esm => [p.options.runtimeSpecifier]
    | .factory => [])
  ++ p.imports.flatMap ImportBinding.names
  ++ p.memory.toList.flatMap MemoryBinding.names
  ++ p.data.map (fun d => Hex.ofBytes d.bytes)
  ++ p.members.map Member.key

/-- A reader of a script finds its names, and no other literal. -/
theorem literals_text (p : Program) :
    scan .code (ofString p.text) = some (p.names.map ofString) := by
  rw [← TokenReader.read_literals]
  refine (read_text .literals p).trans (congrArg some ?_)
  have htypes (types : List ValueType) :
      FormReader.literals.ofTypes types = types.map fun type => ofString type.name :=
        List.map_eq_flatMap.symm
  -- An import quotes its two names, and then the types of its signature.
  have himports : p.imports.flatMap FormReader.literals.ofImport =
      (p.imports.flatMap ImportBinding.names).map ofString := by
    rw [List.map_flatMap]
    refine congrArg (p.imports.flatMap ·) (funext fun b => ?_)
    rw [FormReader.ofImport, htypes, htypes]
    simp [ImportBinding.names, FormReader.literals, Function.comp_def]
  have hmemory : p.memory.toList.flatMap FormReader.literals.ofMemory
      = (p.memory.toList.flatMap MemoryBinding.names).map ofString := by
    rw [List.map_flatMap]
    refine congrArg (p.memory.toList.flatMap ·) (funext fun b => ?_)
    cases b <;> rfl
  have hmembers : p.members.flatMap FormReader.literals.ofMember =
      (p.members.map Member.key).map ofString := by
    rw [List.map_map, List.map_eq_flatMap]
    refine congrArg (p.members.flatMap ·) (funext fun x => ?_)
    cases x <;> rfl
  have hdata :
      p.data.flatMap (fun d => FormReader.literals.ofLiteral (ofString (Hex.ofBytes d.bytes)))
      = (p.data.map fun d => Hex.ofBytes d.bytes).map ofString := by
    rw [List.map_map, List.map_eq_flatMap]
    rfl
  rw [FormReader.ofProgram, himports, hmemory, hmembers, hdata, names]
  simp only [List.map_append]
  cases p.options.format <;> simp [FormReader.literals, TokenReader.literals]

end Program

/-- A quoted text is one literal between quotes, in which no quote is free of a backslash and
nothing ends a line, and whatever comes after it, it reads back as the text.  So the names of a
script are what a reader of the script finds, each where it was printed and none cut short. -/
theorem quoted_names_read_back (text : List Nat) (h : ∀ u ∈ text, u < 0x10000) :
    let literal := ofString (Quoted.encode (Units.toText text))
    (∃ inside, literal = Lexer.quote :: inside ++ [Lexer.quote] ∧ Lexer.Guarded inside) ∧
      (∀ u ∈ literal, Lexer.endsLine u = false) ∧
      (∀ rest, scan .code (literal ++ rest) = (text :: ·) <$> scan .code rest) ∧
      ∀ p : Program, scan .code (ofString p.text) = some (p.names.map ofString) := by
  intro literal
  have hliteral : literal = Quoted.encodeUnits text := by
    rw [← Units.ofString_toText text h]
    exact Quoted.ofString_encode _
  rw [hliteral]
  refine ⟨⟨Quoted.escapeUnits text, rfl, Quoted.guarded_escapeUnits text h⟩, ?_, ?_, ?_⟩
  · exact Quoted.endsLine_encodeUnits text h
  · intro rest
    rw [scan, scan, Quoted.tokens_quoted text h]
    simp only [Option.map_eq_map, Option.map_map]
    rfl
  · exact Program.literals_text

/-- A backslash before a quote, a line separator and half of a pair. -/
theorem quoted_names_read_back_separator :
    (∀ u ∈ [0x5c, 0x22, 0x2028, 0xd800], u < 0x10000) ∧
      scan .code (ofString (Quoted.encode (Units.toText [0x5c, 0x22, 0x2028, 0xd800])) ++ [0x3b])
        = some [[0x5c, 0x22, 0x2028, 0xd800]] := by
  have hunits : ∀ u ∈ [0x5c, 0x22, 0x2028, 0xd800], u < 0x10000 := by decide
  refine ⟨hunits, ?_⟩
  obtain ⟨-, -, hread, -⟩ := quoted_names_read_back [0x5c, 0x22, 0x2028, 0xd800] hunits
  rw [hread]
  decide

end Script

end WasmScript
