/-
  WasmScript/Text/Layout.lean
  ===========================
  **Indented lines** — the sheet on which scripts and declarations are written.

  A `Sheet` is the lines written so far and the depth of the next one.  Writers are
  functions `Sheet → Sheet`, so that a block is written by handing it the writer of its
  body.  A blank line carries no indentation; `separate` writes one unless the sheet is
  empty, the last line is blank already or a block has just been opened.
-/
namespace WasmScript

/-- Lines written so far, the last one first, and the depth at which the next is written. -/
structure Sheet where
  reversed : List String := []
  depth : Nat := 0
deriving DecidableEq, Repr

namespace Sheet

def blank : Sheet := {}

def lines (s : Sheet) : List String := s.reversed.reverse

def margin (depth : Nat) : String := String.ofList (List.replicate (2 * depth) ' ')

def line (text : String) (s : Sheet) : Sheet :=
  { s with reversed := (if text = "" then "" else margin s.depth ++ text) :: s.reversed }

/-- Writes a blank line where one sets two parts of a block apart. -/
def separate (s : Sheet) : Sheet :=
  match s.reversed with
  | [] => s
  | last :: _ =>
    if last = "" ∨ last.toList.getLast? = some '\x7b' then s
    else { s with reversed := "" :: s.reversed }

/-- Writes `body` one level deeper. -/
def indent (body : Sheet → Sheet) (s : Sheet) : Sheet :=
  { body { s with depth := s.depth + 1 } with depth := s.depth }

/-- Writes a block: its header with an opening brace, its body, a closing brace. -/
def block (header : String) (body : Sheet → Sheet) (s : Sheet) : Sheet :=
  ((s.line (header ++ " \x7b")).indent body).line "\x7d"

def each {α : Type} (items : List α) (write : α → Sheet → Sheet) (s : Sheet) : Sheet :=
  items.foldl (fun sheet item => write item sheet) s

/-- The text of the sheet: its lines joined, and a final line end. -/
def text (s : Sheet) : String := "\n".intercalate s.lines ++ "\n"

end Sheet

end WasmScript
