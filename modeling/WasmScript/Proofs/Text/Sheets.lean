/-
  WasmScript/Proofs/Text/Sheets.lean
  ==================================
  **What writers add** — sheets by their lines.

  A writer leaves the lines that are there and adds more (`Sheet.Extends`).  Unless it sets parts
  apart, what it adds depends on the depth only (`Sheet.Adds`).  A writer that does so at its ends
  but not in between frames what it adds (`Sheet.Frames`).
-/
import WasmScript.Text.Layout

namespace WasmScript.Sheet

variable {write write' : Sheet → Sheet} {added added' front back : Nat → List String}

/-- A line as it stands on a sheet, so many levels deep. -/
def indented (depth : Nat) (text : String) :
    String := if text = "" then "" else margin depth ++ text

def extend (s : Sheet) (added : List String) :
    Sheet := { s with reversed := added.reverse ++ s.reversed }

def unlines (lines : List String) : String := "\n".intercalate lines ++ "\n"

theorem indented_zero (text : String) : indented 0 text = text := by
  unfold indented
  split
  · next h => exact h.symm
  · exact String.empty_append

theorem extend_extend (s : Sheet) (first second : List String) :
    (s.extend first).extend second = s.extend (first ++ second) := by
  simp [extend]

theorem text_extend_blank (added : List String) : (blank.extend added).text = unlines added := by
  simp [extend, blank, Sheet.text, lines, unlines]

/-! ### Lines that depend on the depth -/

/-- A writer that adds the same lines to all sheets of a depth. -/
def Adds (write : Sheet → Sheet) (added : Nat → List String) :
    Prop := ∀ s, write s = s.extend (added s.depth)

namespace Adds

theorem line (text : String) : Adds (Sheet.line text) fun depth => [indented depth text] :=
  fun _ => rfl

theorem comp (h : Adds write added) (h' : Adds write' added') :
    Adds (fun s => write' (write s)) fun depth => added depth ++ added' depth := by
  intro s
  refine (h' (write s)).trans ?_
  rw [h s, extend_extend]
  rfl

theorem indent (h : Adds write added) :
    Adds (Sheet.indent write) fun depth => added (depth + 1) := by
  intro s
  rw [Sheet.indent, h]
  rfl

theorem block (header : String) (h : Adds write added) :
    Adds (Sheet.block header write) fun depth =>
    indented depth (header ++ " \x7b") :: added (depth + 1) ++ [indented depth "\x7d"] :=
  ((line _).comp h.indent).comp (line _)

theorem each {α : Type} {write : α → Sheet → Sheet} {added : α → Nat → List String} (items : List α)
    (h : ∀ a, Adds (write a) (added a)) : Adds (fun s => s.each items write) fun depth =>
      items.flatMap (added · depth) := by
  induction items with
  | nil => exact fun s => rfl
  | cons a items ih => exact (h a).comp ih

theorem each_line {α : Type} (items : List α) (f : α → String) :
    Adds (fun s => s.each items fun a => Sheet.line (f a)) fun depth => items.map fun a =>
      indented depth (f a) := by
  simp only [List.map_eq_flatMap]
  exact each items fun a => line (f a)

end Adds

/-! ### Lines that depend on more -/

/-- A writer that only adds lines. -/
def Extends (write : Sheet → Sheet) : Prop := ∀ s, ∃ added, write s = s.extend added

theorem Adds.extends (h : Adds write added) : Extends write := fun s => ⟨_, h s⟩

namespace Extends

theorem refl : Extends fun s => s := fun _ => ⟨[], rfl⟩

theorem line (text : String) : Extends (Sheet.line text) := (Adds.line text).extends

theorem comp (h : Extends write) (h' : Extends write') : Extends fun s => write' (write s) := by
  intro s
  obtain ⟨first, hfirst⟩ := h s
  obtain ⟨second, hsecond⟩ := h' (s.extend first)
  refine ⟨first ++ second, ?_⟩
  rw [← extend_extend, ← hsecond, ← hfirst]

theorem indent (h : Extends write) : Extends (Sheet.indent write) := by
  intro s
  obtain ⟨added, hadded⟩ := h { s with depth := s.depth + 1 }
  exact ⟨added, by rw [Sheet.indent, hadded]; rfl⟩

theorem block (header : String) (h : Extends write) : Extends (Sheet.block header write) :=
  ((line _).comp h.indent).comp (line _)

theorem each {α : Type} {write : α → Sheet → Sheet} (items : List α) (h : ∀ a, Extends (write a)) :
    Extends fun s => s.each items write := by
  induction items with
  | nil => exact refl
  | cons a items ih => exact (h a).comp ih

theorem separate : Extends Sheet.separate := by
  intro s
  unfold Sheet.separate
  split
  · exact ⟨[], rfl⟩
  · split
    · exact ⟨[], rfl⟩
    · exact ⟨[""], rfl⟩

end Extends

/-! ### Lines around others -/

/-- A writer that adds certain lines first and last. -/
def Frames (write : Sheet → Sheet) (front back : Nat → List String) : Prop :=
  ∀ s, ∃ inner, write s = s.extend (front s.depth ++ inner ++ back s.depth)

theorem Extends.frames (h : Extends write) : Frames write (fun _ => []) fun _ => [] := by
  intro s
  obtain ⟨inner, hinner⟩ := h s
  exact ⟨inner, by rw [hinner, List.nil_append, List.append_nil]⟩

namespace Frames

theorem after (h' : Frames write' front back) (h : Adds write added) :
    Frames (fun s => write' (write s)) (fun depth => added depth ++ front depth) back := by
  intro s
  obtain ⟨inner, hinner⟩ := h' (s.extend (added s.depth))
  refine ⟨inner, (congrArg write' (h s)).trans ?_⟩
  rw [hinner, extend_extend, ← List.append_assoc, ← List.append_assoc]
  rfl

theorem before (h : Frames write front back) (h' : Adds write' added) :
    Frames (fun s => write' (write s)) front fun depth => back depth ++ added depth := by
  intro s
  obtain ⟨inner, hinner⟩ := h s
  refine ⟨inner, (h' (write s)).trans ?_⟩
  rw [hinner, extend_extend, List.append_assoc]
  rfl

theorem indent (h : Frames write front back) :
    Frames (Sheet.indent write) (fun depth => front (depth + 1)) fun depth => back (depth + 1) := by
  intro s
  obtain ⟨inner, hinner⟩ := h { s with depth := s.depth + 1 }
  refine ⟨inner, ?_⟩
  rw [Sheet.indent, hinner]
  rfl

theorem block (header : String) (h : Frames write front back) : Frames (Sheet.block header write)
    (fun depth => indented depth (header ++ " \x7b") :: front (depth + 1))
    fun depth => back (depth + 1) ++ [indented depth "\x7d"] :=
  (h.indent.after (.line _)).before (.line _)

end Frames

/-! ### Lines among others -/

/-- A writer that adds certain lines one after another, and maybe more ahead of them and behind. -/
def Includes (write : Sheet → Sheet) (added : Nat → List String) : Prop :=
  ∀ s, ∃ front back, write s = s.extend (front ++ added s.depth ++ back)

theorem Adds.includes (h : Adds write added) : Includes write added := by
  intro s
  exact ⟨[], [], by rw [h s, List.nil_append, List.append_nil]⟩

namespace Includes

theorem after (h' : Includes write' added) (h : Extends write) :
    Includes (fun s => write' (write s)) added := by
  intro s
  obtain ⟨first, hfirst⟩ := h s
  obtain ⟨front, back, hinner⟩ := h' (s.extend first)
  refine ⟨first ++ front, back, (congrArg write' hfirst).trans ?_⟩
  rw [hinner, extend_extend, List.append_assoc, List.append_assoc, List.append_assoc]
  rfl

theorem before (h : Includes write added) (h' : Extends write') :
    Includes (fun s => write' (write s)) added := by
  intro s
  obtain ⟨front, back, hinner⟩ := h s
  obtain ⟨last, hlast⟩ := h' (write s)
  refine ⟨front, back ++ last, hlast.trans ?_⟩
  rw [hinner, extend_extend, List.append_assoc _ back]

theorem block (header : String) (h : Includes write added) :
    Includes (Sheet.block header write) fun depth => added (depth + 1) := by
  have hindent : Includes (Sheet.indent write) fun depth => added (depth + 1) := by
    intro s
    obtain ⟨front, back, hinner⟩ := h { s with depth := s.depth + 1 }
    exact ⟨front, back, by rw [Sheet.indent, hinner]; rfl⟩
  exact (hindent.after (.line _)).before (.line _)

end Includes

end WasmScript.Sheet
