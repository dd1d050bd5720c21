/-
  WasmScript/Proofs/CommandLine/Outputs.lean
  ==========================================
  **Where outputs go** — the script of an input and its declarations have places of their own.

  The path of a script ends in one of `scriptEndings`, also where it was put together from a
  directory and a name, and its declarations have the same stem with another ending.  No path
  with the one kind of ending leads where a path with the other kind does, and declarations
  that go to one place belong to scripts that do.
-/
import WasmScript.CommandLine.Command
import WasmScript.Proofs.Text.Paths

namespace WasmScript.CommandLine

/-! ### Endings -/

theorem isEnding_of_mem : ∀ e ∈ scriptEndings, Path.IsEnding e.1 ∧ Path.IsEnding e.2 := by
  decide

/-- The last three characters of a text, the last one first; they tell all endings apart. -/
def lastThree (s : String) : List Char := s.toList.reverse.take 3

theorem lastThree_append (s : String) {e : String} (he : Path.IsEnding e) :
    lastThree (s ++ e) = lastThree e := by
  rw [lastThree, lastThree, String.toList_append, List.reverse_append]
  exact List.take_append_of_le_length (by rw [List.length_reverse]; exact he.length)

theorem lastThree_ne : ∀ e ∈ scriptEndings, ∀ f ∈ scriptEndings, lastThree e.1 ≠ lastThree f.2 := by
  decide

theorem lastThree_inj : ∀ e ∈ scriptEndings, ∀ f ∈ scriptEndings, lastThree e.2 = lastThree f.2 →
    e = f := by
  decide

/-! ### Scripts and their declarations -/

/-- The path of a script has an ending of scripts, and that of its declarations has the other one
instead. -/
theorem exists_stem {path : String} (h : isScriptPath path = true) :
    ∃ stem, ∃ e ∈ scriptEndings, path = stem ++ e.1 ∧ declarationPath path = stem ++ e.2 := by
  obtain ⟨e, he⟩ := Option.isSome_iff_exists.mp h
  have hends := List.find?_some (p := fun e : String × String => path.endsWith e.1) he
  obtain ⟨stem, rfl⟩ := Path.endsWith_iff.mp hends
  refine ⟨stem, e, List.mem_of_find?_eq_some he, rfl, ?_⟩
  simp only [declarationPath, he, Path.withoutSuffix_append]

theorem isScriptPath_append (t : String) : isScriptPath (t ++ ".js") = true := by
  refine List.find?_isSome.mpr ⟨(".js", ".d.ts"), List.mem_cons_self, ?_⟩
  exact Path.endsWith_iff.mpr ⟨t, rfl⟩

/-- Every output is a script. -/
theorem isScriptPath_outputPath (file : String) (output : Option String) :
    isScriptPath (outputPath file output) = true := by
  have hjs : Path.IsEnding ".js" := (isEnding_of_mem (".js", ".d.ts") List.mem_cons_self).1
  have hjoin (parent q : String) : isScriptPath (Path.join parent (q ++ ".js")) = true := by
    obtain ⟨t, ht⟩ := Path.exists_join_append parent q hjs
    rw [ht]
    exact isScriptPath_append t
  cases output with
  | none => exact hjoin _ _
  | some output =>
    unfold outputPath
    dsimp only
    split
    · assumption
    · exact hjoin _ _

variable {p p' : String}

/-- A script is not written where declarations are. -/
theorem locate_ne_declarationPath (d : Directory) (h : isScriptPath p = true)
    (h' : isScriptPath p' = true) :
    d.locate p ≠ d.locate (declarationPath p') := by
  obtain ⟨stem, e, he, rfl, -⟩ := exists_stem h
  obtain ⟨stem', f, hf, -, hdeclared⟩ := exists_stem h'
  obtain ⟨init, last, hlocate⟩ := d.exists_locate_append stem
  obtain ⟨init', last', hlocate'⟩ := d.exists_locate_append stem'
  have hscript := (isEnding_of_mem e he).1
  have hdeclaration := (isEnding_of_mem f hf).2
  rw [hdeclared, hlocate _ hscript, hlocate' _ hdeclaration]
  intro heq
  have hlast : last ++ e.1 = last' ++ f.2 := List.singleton_inj.mp (List.append_inj' heq rfl).2
  refine lastThree_ne e he f hf ?_
  rw [← lastThree_append last hscript, hlast, lastThree_append last' hdeclaration]

/-- Scripts whose declarations go to one place go to one place themselves. -/
theorem locate_eq_of_declarationPath (d : Directory) (h : isScriptPath p = true)
    (h' : isScriptPath p' = true)
    (heq : d.locate (declarationPath p) = d.locate (declarationPath p')) :
    d.locate p = d.locate p' := by
  obtain ⟨stem, e, he, rfl, hdeclared⟩ := exists_stem h
  obtain ⟨stem', f, hf, rfl, hdeclared'⟩ := exists_stem h'
  obtain ⟨init, last, hlocate⟩ := d.exists_locate_append stem
  obtain ⟨init', last', hlocate'⟩ := d.exists_locate_append stem'
  rw [hdeclared, hdeclared', hlocate _ (isEnding_of_mem e he).2,
    hlocate' _ (isEnding_of_mem f hf).2] at heq
  obtain ⟨rfl, hsingle⟩ := List.append_inj' heq rfl
  have hlast : last ++ e.2 = last' ++ f.2 := List.singleton_inj.mp hsingle
  obtain rfl : e = f := by
    refine lastThree_inj e he f hf ?_
    rw [← lastThree_append last (isEnding_of_mem e he).2, hlast,
      lastThree_append last' (isEnding_of_mem f hf).2]
  obtain rfl : last = last' := (String.append_left_inj _).mp hlast
  rw [hlocate _ (isEnding_of_mem e he).1, hlocate' _ (isEnding_of_mem e he).1]

end WasmScript.CommandLine
