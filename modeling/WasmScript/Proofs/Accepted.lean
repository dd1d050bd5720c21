/-
  WasmScript/Proofs/Accepted.lean
  ===============================
  **Accepted modules** — what there is of a module without findings.

  Such a module was read from bytes, so it is well-formed, and each function that it defines
  was built.  A module that has been built has a script too: writing its text cannot fail
  any more.
-/
import WasmScript.Proofs.Module.WellFormed
import WasmScript.Proofs.Script.Scoping
import WasmScript.Transpile

namespace WasmScript

namespace IR

/-- Functions that were built from indices, one by one. -/
abbrev BuiltFrom (m : Module) (indices : List Nat) (functions : List Function) : Prop :=
  List.Forall₂ (fun index f => buildFunction m index = .ok f) indices functions

/-- If no fault is found, each function is built. -/
theorem builtFrom_buildAll {m : Module} {indices : List Nat} {r : BuildResult}
    (h : buildAll m indices = .ok r) (hnone : r.diagnostics = []) :
    BuiltFrom m indices r.functions := by
  -- The induction is on the functions: one that fails leaves a diagnostic, and there is none.
  induction indices generalizing r with
  | nil =>
    cases h
    exact .nil
  | cons index rest ih =>
    rw [buildAll] at h
    split at h
    · cases h
    · next f hf =>
      cases hrest : buildAll m rest with
      | error e =>
        rw [hrest] at h
        cases h
      | ok result =>
        rw [hrest] at h
        cases h
        exact .cons hf (ih hrest hnone)
    · cases hrest : buildAll m rest with
      | error e =>
        rw [hrest] at h
        cases h
      | ok result =>
        rw [hrest] at h
        cases h
        cases hnone

/-- A function that is built keeps its index. -/
theorem Function.index_of_build {m : Module} {index : Nat} {fn : Function}
    (h : buildFunction m index = .ok fn) : fn.index = index := by
  obtain ⟨type, body, f, pend, temps, label, -, -, -, -, hfn⟩ := exists_steps_of_build h
  rw [hfn]

theorem Function.type_of_build {m : Module} {index : Nat} {fn : Function}
    (h : buildFunction m index = .ok fn) :
    m.functionType? index = some ⟨fn.params, fn.results⟩ := by
  have htype := (Function.typed_of_build h).type
  rwa [index_of_build h] at htype

theorem BuiltFrom.build_of_mem {m : Module} {indices : List Nat} {functions : List Function}
    (h : BuiltFrom m indices functions) {f : Function} (hf : f ∈ functions) :
    buildFunction m f.index = .ok f := by
  obtain ⟨i, hi, rfl⟩ := List.mem_iff_getElem.mp hf
  have hbuild := h.get (h.length_eq ▸ hi) hi
  rw [List.get_eq_getElem, List.get_eq_getElem] at hbuild
  rwa [Function.index_of_build hbuild]

end IR

namespace Script

theorem exists_functionsOf {functions : List IR.Function}
    (h : ∀ f ∈ functions, ∃ g, Function.ofBody f = .ok g) :
    ∃ gs, Program.functionsOf functions = .ok gs := by
  induction functions with
  | nil => exact ⟨[], rfl⟩
  | cons f fs ih =>
    obtain ⟨⟨g, hg⟩, hfs⟩ := List.forall_mem_cons.mp h
    obtain ⟨gs, hgs⟩ := ih hfs
    exact ⟨g :: gs, by rw [Program.functionsOf, hg, hgs]; rfl⟩

end Script

/-! ### Modules without findings -/

/-- A well-formed module, all of whose functions are built in the order in which it defines them. -/
structure Checked.Accepted (c : Checked) : Prop where
  wellFormed : c.module.WellFormed
  pages : c.options.maxPages ≤ LinearMemory.maxPages
  built : IR.BuiltFrom c.module ((List.range c.module.bodies.size).map (c.module.imports.size + ·))
    c.functions

theorem TranspileOptions.pages?_le {o : TranspileOptions} {n : Nat} (h : o.pages? = some n) :
    n ≤ LinearMemory.maxPages := by
  unfold pages? at h
  split at h
  · split at h
    · next hle =>
      cases h
      exact hle
    · cases h
  · cases h

/-- An analysis that has a module has read and built it. -/
theorem Analysis.built_of_ofBytes {bytes : ByteArray} {a : Analysis} {m : Module}
    (h : ofBytes bytes = .ok a) (hm : a.module = some m) :
    Module.decode bytes = .ok m ∧ IR.buildModule m = .ok ⟨a.functions, a.diagnostics⟩ := by
  unfold ofBytes at h
  split at h
  · cases h
    cases hm
  · next m' hdecode =>
    unfold ofModule at h
    cases hbuild : IR.buildModule m' with
    | error e =>
      rw [hbuild] at h
      cases h
    | ok r =>
      rw [hbuild] at h
      cases h
      cases hm
      exact ⟨hdecode, hbuild⟩

/-- What is checked was read, and all its functions were built. -/
theorem built_of_check {bytes : ByteArray} {options : TranspileOptions} {c : Checked}
    (h : check bytes options = .ok c) :
    Module.decode bytes = .ok c.module ∧ IR.buildModule c.module = .ok ⟨c.functions, []⟩
      ∧ options.pages? = some c.options.maxPages := by
  unfold check at h
  split at h
  · next pages hpages =>
    cases hanalysis : Analysis.ofBytes bytes with
    | error e =>
      rw [hanalysis] at h
      cases h
    | ok a =>
      rw [hanalysis] at h
      simp only [bind, Except.bind, Except.mapError] at h
      split at h
      · next m hm hnone =>
        cases h
        obtain ⟨hdecode, hbuild⟩ := Analysis.built_of_ofBytes hanalysis hm
        rw [hnone] at hbuild
        exact ⟨hdecode, hbuild, hpages⟩
      · cases h
  · cases h

theorem accepted_of_check {bytes : ByteArray} {options : TranspileOptions} {c : Checked}
    (h : check bytes options = .ok c) : c.Accepted := by
  obtain ⟨hdecode, hbuild, hpages⟩ := built_of_check h
  exact ⟨Module.wellFormed_of_decode hdecode, TranspileOptions.pages?_le hpages,
    IR.builtFrom_buildAll hbuild rfl⟩

/-- What is accepted has a script. -/
theorem Checked.Accepted.exists_generate {c : Checked} (h : c.Accepted) :
    ∃ code, generate c.module c.functions c.options = .ok code := by
  have hbodies : ∀ f ∈ c.functions, ∃ g, Script.Function.ofBody f = .ok g := by
    intro f hf
    obtain ⟨g, hg, -⟩ := Script.exists_ofBody (h.built.build_of_mem hf)
    exact ⟨g, hg⟩
  have hsorted : ∀ f ∈ c.functions.mergeSort fun f g => f.index ≤ g.index,
      ∃ g, Script.Function.ofBody f = .ok g := fun f hf => hbodies f (List.mem_mergeSort.mp hf)
  obtain ⟨gs, hgs⟩ := Script.exists_functionsOf hsorted
  unfold generate Script.Program.ofModule
  rw [hgs]
  exact ⟨_, rfl⟩

theorem exists_transpile {bytes : ByteArray} {options : TranspileOptions} {c : Checked}
    (h : check bytes options = .ok c) : ∃ out, transpile bytes options = .ok out ∧
      out.toChecked = c := by
  obtain ⟨code, hcode⟩ := (accepted_of_check h).exists_generate
  unfold transpile
  rw [h]
  simp only [bind, Except.bind, hcode, Except.mapError]
  exact ⟨_, rfl, rfl⟩

/-- What is transpiled was checked, and its script was generated. -/
theorem generate_of_transpile {bytes : ByteArray} {options : TranspileOptions} {out : Output}
    (h : transpile bytes options = .ok out) :
    check bytes options = .ok out.toChecked ∧
      generate out.module out.functions out.options = .ok out.code := by
  unfold transpile at h
  cases hcheck : check bytes options with
  | error e =>
    rw [hcheck] at h
    cases h
  | ok c =>
    rw [hcheck] at h
    cases hcode : generate c.module c.functions c.options with
    | error e =>
      simp only [bind, Except.bind, hcode, Except.mapError] at h
      cases h
    | ok code =>
      simp only [bind, Except.bind, hcode, Except.mapError] at h
      cases h
      exact ⟨rfl, hcode⟩

theorem check_of_transpile {bytes : ByteArray} {options : TranspileOptions} {out : Output}
    (h : transpile bytes options = .ok out) : check bytes options = .ok out.toChecked :=
  (generate_of_transpile h).1

/-- What is transpiled was accepted. -/
theorem accepted_of_transpile {bytes : ByteArray} {options : TranspileOptions} {out : Output}
    (h : transpile bytes options = .ok out) : out.toChecked.Accepted :=
  accepted_of_check (check_of_transpile h)

/-- Each function that an accepted module defines is built, and found where the module looks for
it. -/
theorem Checked.Accepted.exists_function {c : Checked} (h : c.Accepted) {index : Nat}
    {type : FunctionType} (himport : c.module.imports[index]? = none)
    (htype : c.module.functionType? index = some type) :
    ∃ f, c.functions.toArray[index - c.module.imports.size]? = some f
      ∧ IR.buildFunction c.module index = .ok f := by
  have hle : c.module.imports.size ≤ index := Array.getElem?_eq_none_iff.mp himport
  obtain ⟨i, rfl⟩ := Nat.exists_eq_add_of_le hle
  have hlt : i < c.module.bodies.size := by
    rw [Module.functionType?, himport, Nat.add_sub_cancel_left] at htype
    obtain ⟨t, ht, -⟩ := Option.bind_eq_some_iff.mp htype
    exact h.wellFormed.bodyCount ▸ (Array.getElem?_eq_some_iff.mp ht).1
  have hlength : i < c.functions.length := by
    rw [← h.built.length_eq]
    simpa using hlt
  have hbuild := h.built.get (i := i) (by simpa using hlt) hlength
  refine ⟨c.functions[i], by simp [hlength], ?_⟩
  simpa using hbuild

end WasmScript
