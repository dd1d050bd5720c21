/-
  WasmScript/Proofs/Text/Paths.lean
  =================================
  **Paths with an ending** — where a path leads if its last segment has an ending.

  A last segment that ends in more than two characters, none of them a slash, is neither `.`
  nor `..`, so it stays the last one when the path is brought into its shortest form, and all
  before it is the same whatever the ending is (`Path.exists_segments_append`).  So two paths
  with one stem lead to places that differ in the ending alone, and so they do where
  surrogates that stand alone are replaced, as an ending has none.
-/
import Mathlib.Data.List.Basic
import WasmScript.CommandLine.Console
import WasmScript.Text.Units.Lemmas

namespace WasmScript

/-! ### Surrogates -/

namespace Units

/-- Whether characters stand for themselves, none of them for a surrogate. -/
def AllPlain (cs : List Char) : Prop := ∀ c ∈ cs, surrogate? c = none

-- Given by name, as another instance may run through all characters there are.
instance (cs : List Char) : Decidable (AllPlain cs) := List.decidableBAll (surrogate? · = none) cs

theorem scalars_of_allPlain {cs : List Char} (h : AllPlain cs) : scalars cs = cs := by
  induction cs with
  | nil => rfl
  | cons c cs ih =>
    obtain ⟨hc, hcs⟩ := List.forall_mem_cons.mp h
    rw [scalars_cons hc, ih hcs]

/-- A character that is no surrogate does not pair with what is before it. -/
theorem pair?_eq_none {c d : Char} (h : surrogate? d = none) : pair? c d = none := by
  rw [pair?, h]
  cases surrogate? c <;> rfl

/-- What is no surrogate is kept behind any characters. -/
theorem scalars_append (cs : List Char) {es : List Char} (h : AllPlain es) :
    scalars (cs ++ es) = scalars cs ++ es := by
  fun_induction scalars cs with
  | case1 => exact scalars_of_allPlain h
  | case2 c =>
    cases es with
    | nil => rfl
    | cons e es =>
      rw [List.singleton_append, scalars, pair?_eq_none (h e List.mem_cons_self),
        scalars_of_allPlain h]
      rfl
  | case3 c d rest n hpair ih =>
    rw [List.cons_append, List.cons_append, scalars, hpair]
    exact congrArg (Char.ofNat n :: ·) ih
  | case4 c d rest hpair ih =>
    rw [List.cons_append, List.cons_append, scalars, hpair, ← List.cons_append, ih]
    rfl

theorem written_append (s : String) {e : String} (h : AllPlain e.toList) :
    written (s ++ e) = written s ++ e := by
  rw [written, written, String.toList_append, scalars_append _ h, String.ofList_append,
    String.ofList_toList]

end Units

namespace Path

/-! ### Segments -/

theorem splitChars_of_not_mem {cs : List Char} (h : '/' ∉ cs) : splitChars cs = [cs] := by
  induction cs with
  | nil => rfl
  | cons c cs ih =>
    obtain ⟨hc, hcs⟩ := List.ne_and_not_mem_of_not_mem_cons h
    rw [splitChars, if_neg hc.symm, ih hcs]

/-- What has no slash in it goes into the last part. -/
theorem exists_splitChars_append (cs : List Char) :
    ∃ init last, ∀ es, '/' ∉ es → splitChars (cs ++ es) = init ++ [last ++ es] := by
  induction cs with
  | nil => exact ⟨[], [], fun es hes => splitChars_of_not_mem hes⟩
  | cons c cs ih =>
    obtain ⟨init, last, hsplit⟩ := ih
    by_cases hc : c = '/'
    · refine ⟨[] :: init, last, fun es hes => ?_⟩
      rw [List.cons_append, splitChars, if_pos hc, hsplit es hes]
      rfl
    · cases init with
      | nil =>
        refine ⟨[], c :: last, fun es hes => ?_⟩
        rw [List.cons_append, splitChars, if_neg hc, hsplit es hes]
        rfl
      | cons part parts =>
        refine ⟨(c :: part) :: parts, last, fun es hes => ?_⟩
        rw [List.cons_append, splitChars, if_neg hc, hsplit es hes]
        rfl

theorem pushSegments_append (absolute : Bool) (xs ys : List String) : ∀ done : List String,
    pushSegments absolute done (xs ++ ys) =
      pushSegments absolute (pushSegments absolute done xs) ys := by
  intro done
  fun_induction pushSegments absolute done xs <;> simp_all [pushSegments]

/-- What a last segment may end in: more than two characters that are no slashes and stand for
themselves. -/
structure IsEnding (e : String) : Prop where
  length : 2 < e.toList.length
  slash : '/' ∉ e.toList
  plain : Units.AllPlain e.toList

instance (e : String) : Decidable (IsEnding e) :=
  decidable_of_iff (2 < e.toList.length ∧ '/' ∉ e.toList ∧ Units.AllPlain e.toList)
    ⟨fun ⟨hlength, hslash, hplain⟩ => ⟨hlength, hslash, hplain⟩, fun h =>
      ⟨h.length, h.slash, h.plain⟩⟩

theorem IsEnding.ne_empty {e : String} (he : IsEnding e) (stem : String) : stem ++ e ≠ "" := by
  intro hempty
  have hlength := he.length
  rw [← String.toList_eq_nil_iff, String.toList_append, List.append_eq_nil_iff] at hempty
  rw [hempty.2] at hlength
  cases hlength

/-- A segment with an ending is neither empty nor a step. -/
theorem pushSegments_ending {e : String} (he : IsEnding e) (absolute : Bool) (done : List String)
    (last : String) :
    pushSegments absolute done [last ++ e] = (last ++ e) :: done := by
  have hne {s : String} (hs : s.toList.length ≤ 2) : last ++ e ≠ s := by
    rintro rfl
    have hlength := he.length
    rw [String.toList_append, List.length_append] at hs
    omega
  rw [pushSegments.eq_def]
  simp only [if_neg (not_or.mpr ⟨hne (s := "") (by decide), hne (s := ".") (by decide)⟩),
    if_neg (hne (s := "..") (by decide))]
  rfl

theorem isAbsolute_append (q : String) {e : String} (he : '/' ∉ e.toList) :
    isAbsolute (q ++ e) = isAbsolute q := by
  unfold isAbsolute
  rw [String.toList_append]
  cases q.toList with
  | nil =>
    refine decide_eq_decide.mpr (iff_of_false (fun h => he ?_) nofun)
    exact List.mem_of_head? h
  | cons c cs => rfl

/-- **With an ending, a path leads to its last segment**, and up to that ending it is the same for
any. -/
theorem exists_segments_append (q : String) :
    ∃ init last, ∀ e, IsEnding e → segments (q ++ e) = init ++ [last ++ e] := by
  obtain ⟨init, last, hsplit⟩ := exists_splitChars_append q.toList
  refine ⟨(pushSegments (isAbsolute q) [] (init.map String.ofList)).reverse, String.ofList last,
    fun e he => ?_⟩
  have hparts : split (q ++ e) = init.map String.ofList ++ [String.ofList last ++ e] := by
    rw [split, String.toList_append, hsplit _ he.slash, List.map_append, List.map_singleton,
      String.ofList_append, String.ofList_toList]
  rw [segments, hparts, isAbsolute_append q he.slash, pushSegments_append, pushSegments_ending he,
    List.reverse_cons]

/-! ### Shortest forms -/

/-- The shortest form of a path keeps its ending. -/
theorem exists_normalize_append (q : String) {e : String} (he : IsEnding e) :
    ∃ t, normalize (q ++ e) = t ++ e := by
  obtain ⟨init, last, hsegments⟩ := exists_segments_append q
  have hjoined : ∃ t, "/".intercalate (init ++ [last ++ e]) = t ++ e := by
    by_cases hinit : init = []
    · exact ⟨last, by rw [hinit, List.nil_append, String.intercalate_singleton]⟩
    · refine ⟨"/".intercalate init ++ "/" ++ last, ?_⟩
      rw [String.intercalate_append_of_ne_nil hinit (List.cons_ne_nil _ _),
        String.intercalate_singleton]
      simp only [String.append_assoc]
  have htrailing : (q ++ e).toList.getLast? ≠ some '/' := by
    intro hlast
    have hne : e.toList ≠ [] := List.ne_nil_of_length_pos (Nat.zero_lt_of_lt he.length)
    rw [String.toList_append, List.getLast?_append_of_ne_nil _ hne] at hlast
    exact he.slash (List.mem_of_getLast? hlast)
  obtain ⟨t, ht⟩ := hjoined
  refine ⟨(if isAbsolute (q ++ e) then "/" else "") ++ t, ?_⟩
  rw [normalize, hsegments e he]
  split
  · next hnil => exact absurd hnil (List.concat_ne_nil _ _)
  · rw [ht, if_neg htrailing, String.append_empty, String.append_assoc]

theorem exists_join_append (parent q : String) {e : String} (he : IsEnding e) :
    ∃ t, join parent (q ++ e) = t ++ e := by
  by_cases hparent : parent = ""
  · rw [join, if_pos hparent]
    exact exists_normalize_append q he
  · rw [join, if_neg hparent, if_neg (he.ne_empty q), ← String.append_assoc]
    exact exists_normalize_append _ he

/-! ### Endings that a path has -/

theorem endsWith_iff {path e : String} : path.endsWith e = true ↔ ∃ t, path = t ++ e := by
  rw [String.endsWith, String.Slice.endsWith_string_iff, String.copy_toSlice]
  constructor
  · rintro ⟨t, ht⟩
    exact ⟨String.ofList t, by
      rw [← String.toList_inj, String.toList_append, String.toList_ofList, ht]⟩
  · rintro ⟨t, rfl⟩
    exact ⟨t.toList, by rw [String.toList_append]⟩

theorem withoutSuffix_append (t e : String) : withoutSuffix (t ++ e) e = t := by
  rw [withoutSuffix, if_pos (endsWith_iff.mpr ⟨t, rfl⟩), String.length_append, Nat.add_sub_cancel,
    String.toList_append, ← String.length_toList, List.take_left, String.ofList_toList]

end Path

namespace CommandLine.Directory

/-- **Paths with one stem lead to places that differ in the ending alone.** -/
theorem exists_locate_append (d : Directory) (q : String) :
    ∃ init last, ∀ e, Path.IsEnding e → d.locate (q ++ e) = init ++ [last ++ e] := by
  obtain ⟨init, last, hsegments⟩ :=
    Path.exists_segments_append (Units.written (if Path.isAbsolute q then q else d.cwd ++ "/" ++ q))
  refine ⟨init, last, fun e he => ?_⟩
  rw [← hsegments e he, locate,
    Path.isAbsolute_append q he.slash, ← Units.written_append _ he.plain]
  split
  · rfl
  · simp only [String.append_assoc]

end CommandLine.Directory

end WasmScript
