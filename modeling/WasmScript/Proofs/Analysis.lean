/-
  WasmScript/Proofs/Analysis.lean
  ===============================
  **Analyses** — what is found out about a module, function by function.

  An analysis of bytes that can be read always comes to an end.  It accounts for each
  function that the module defines: either the function is built, or there is one finding
  about it.  Neither depends on the bodies of other functions, as a body refers to the types,
  globals and memory of its module only.  And since reading has ruled out some faults,
  no finding has their numbers.
-/
import WasmScript.Proofs.IR.Faults
import WasmScript.Proofs.IR.OtherBodies
import WasmScript.Proofs.Accepted

namespace WasmScript

namespace IR

/-! ### All functions of a module -/

/-- A fault of a function that is read from bytes is one of its body. -/
theorem inBody_of_build {m : Module} (h : m.WellFormed) {i : Nat} (hi : i < m.functions.size)
    {e : BuildFailure} (he : buildFunction m (m.imports.size + i) = .error e) :
    e.InBody (m.imports.size + i) (m.exportNames (m.imports.size + i)).head? := by
  obtain ⟨type, body, htype, hbody, hwell⟩ := h.exists_function hi
  rw [buildFunction_eq htype hbody, buildBody, StateT.run] at he
  have hcalls : ∀ index < m.functionCount, (m.functionType? index).isSome := by
    intro index hindex
    obtain ⟨t, ht⟩ := h.exists_functionType hindex
    rw [ht]
    rfl
  cases hr :
      Build.instructions ⟨m, m.imports.size + i, (m.exportNames (m.imports.size + i)).head?, type,
      type.params.toArray ++ body.locals⟩ body.instructions.toList 0
      { frames := [{ kind := .function, label := -1, params := type.params, results := type.results
                     height := 0, resultSlots := [], paramSlots := [] }], pos := body.pos } with
  | error e' =>
    rw [hr] at he
    cases he
    exact Build.inBody_of_instructions hcalls body.instructions.toList 0 [] _ rfl List.not_mem_nil
      hwell.instructions hwell.closes (.inl rfl) _ hr
  | ok r =>
    rw [hr] at he
    cases he

/-- Findings about functions with some indices, one by one. -/
abbrev FoundIn (m : Module) (indices : List Nat) (diagnostics : List Diagnostic) : Prop :=
  List.Forall₂
      (fun index d => ∃ e, buildFunction m index = .error (.invalid e) ∧ d = e.toDiagnostic)
    indices diagnostics

/-- Each of some functions is built or found at fault, in order. -/
theorem exists_parts {m : Module} {indices : List Nat}
    (h : ∀ index ∈ indices, ∀ e, buildFunction m index ≠ .error (.access e)) :
    ∃ r built faulty, buildAll m indices = .ok r ∧ BuiltFrom m built r.functions
      ∧ FoundIn m faulty r.diagnostics ∧ (built ++ faulty).Perm indices
      ∧ built.Sublist indices ∧ faulty.Sublist indices := by
  induction indices with
  | nil => exact ⟨{}, [], [], rfl, .nil, .nil, .nil, .slnil, .slnil⟩
  | cons index rest ih =>
    obtain ⟨hindex, hrest⟩ := List.forall_mem_cons.mp h
    obtain ⟨r, built, faulty, hr, hbuilt, hfaulty, hperm, hsub, hsub'⟩ := ih hrest
    rw [buildAll, hr]
    -- The function joins those that are built or those that are faulty, and the rest stays in its
    -- order.
    cases hbuild : buildFunction m index with
    | ok f =>
      exact ⟨_, index :: built, faulty, rfl, .cons hbuild hbuilt, hfaulty, hperm.cons index,
        hsub.cons_cons index, hsub'.cons index⟩
    | error e =>
      cases e with
      | access e => exact (hindex e hbuild).elim
      | invalid e =>
        exact ⟨_, built, index :: faulty, rfl, hbuilt, .cons ⟨e, hbuild, rfl⟩ hfaulty,
          List.perm_middle.trans (hperm.cons index), hsub.cons index, hsub'.cons_cons index⟩

end IR

/-! ### Analyses of bytes -/

/-- The function that a finding is about, if it is about one. -/
def Diagnostic.functionIndex? (d : Diagnostic) :
    Option Nat := d.location.bind Location.functionIndex

def Module.definedIndices (m : Module) :
    List Nat := (List.range m.functions.size).map (m.imports.size + ·)

theorem Module.sorted_definedIndices (m : Module) : m.definedIndices.Pairwise (· < ·) := by
  rw [definedIndices, List.pairwise_map]
  exact List.pairwise_lt_range.imp fun h => Nat.add_lt_add_left h _

/-- What holds of the findings about a module: they are about as many functions, in order, and none
of them has a number that reading rules out. -/
theorem IR.FoundIn.facts {m : Module} (hwell : m.WellFormed) {faulty : List Nat}
    {diagnostics : List Diagnostic} (hfaulty : faulty ⊆ m.definedIndices)
    (h : IR.FoundIn m faulty diagnostics) :
    diagnostics.map Diagnostic.functionIndex? = faulty.map some
      ∧ ∀ d ∈ diagnostics, d.code ∉ IR.excludedCodes := by
  induction h with
  | nil => exact ⟨rfl, fun d hd => absurd hd List.not_mem_nil⟩
  | @cons index d rest ds hfirst hrest ih =>
    obtain ⟨hindex, hsub⟩ := List.cons_subset.mp hfaulty
    obtain ⟨hindices, hcodes⟩ := ih hsub
    obtain ⟨e, hbuild, rfl⟩ := hfirst
    obtain ⟨i, hi, rfl⟩ := List.mem_map.mp hindex
    obtain ⟨hat, -, hcause⟩ := IR.inBody_of_build hwell (List.mem_range.mp hi) hbuild
    refine ⟨?_, List.forall_mem_cons.mpr ⟨hcause.code_not_mem, hcodes⟩⟩
    rw [List.map_cons, List.map_cons, hindices, ← hat]
    rfl

/-- What is analysed comes to an end.  Each function that is defined is either built or the subject
of one finding, both in the order of the indices; its build is the same whatever the other bodies
are; and there is no finding of the kinds that reading rules out. -/
theorem analysis_accounts_for_functions {bytes : ByteArray} {m : Module}
    (h : Module.decode bytes = .ok m) :
    ∃ a, Analysis.ofBytes bytes = .ok a ∧ a.module = some m ∧
      (∃ faulty : List Nat, a.diagnostics.map Diagnostic.functionIndex? = faulty.map some
        ∧ (a.functions.map IR.Function.index ++ faulty).Perm m.definedIndices
        ∧ (a.functions.map IR.Function.index).Pairwise (· < ·) ∧ faulty.Pairwise (· < ·)) ∧
      (∀ f ∈ a.functions, IR.buildFunction m f.index = .ok f) ∧
      (∀ d ∈ a.diagnostics, ∃ e, IR.buildFunction m e.functionIndex = .error (.invalid e) ∧
        d = e.toDiagnostic) ∧
      (∀ (bodies : Array Body) (i : Nat), bodies[i]? = m.bodies[i]? →
        IR.buildFunction { m with bodies } (m.imports.size + i) =
          IR.buildFunction m (m.imports.size + i)) ∧
      ∀ d ∈ a.diagnostics, d.code ∉ [DiagnosticCode.unterminatedBody.number,
        DiagnosticCode.trailingInstructions.number, DiagnosticCode.unknownFunction.number,
        DiagnosticCode.internalCompilerError.number] := by
  have hwell := Module.wellFormed_of_decode h
  -- An opcode that is not known would end the whole build, but none is decoded.
  have haccess : ∀ index ∈ m.definedIndices, ∀ e, IR.buildFunction m index ≠
      .error (.access e) := by
    intro index hindex e he
    obtain ⟨i, hi, rfl⟩ := List.mem_map.mp hindex
    exact IR.inBody_of_build hwell (List.mem_range.mp hi) he
  obtain ⟨r, built, faulty, hr, hbuilt, hfaulty, hperm, hsub, hsub'⟩ := IR.exists_parts haccess
  obtain ⟨hindices, hcodes⟩ := hfaulty.facts hwell hsub'.subset
  have hfunctions : r.functions.map IR.Function.index = built := by
    rw [← List.forall₂_eq_eq_eq, List.forall₂_map_left_iff]
    exact hbuilt.flip.imp fun f index hbuild => IR.Function.index_of_build hbuild
  have hmodule : IR.buildModule m = .ok r := by
    rw [IR.buildModule, hwell.bodyCount]
    exact hr
  have hanalysis : Analysis.ofBytes bytes = .ok ⟨some m, r.functions, r.diagnostics⟩ := by
    rw [Analysis.ofBytes, h]
    simp only [Analysis.ofModule, hmodule]
    rfl
  refine ⟨_, hanalysis, rfl, ⟨faulty, hindices, hfunctions.symm ▸ hperm, ?_, ?_⟩, ?_, ?_,
    ?_, hcodes⟩
  · rw [hfunctions]
    exact m.sorted_definedIndices.sublist hsub
  · exact m.sorted_definedIndices.sublist hsub'
  · exact fun f hf => IR.BuiltFrom.build_of_mem hbuilt hf
  · intro d hd
    obtain ⟨i, hi, rfl⟩ := List.mem_iff_getElem.mp hd
    have hmem : faulty.get ⟨i, hfaulty.length_eq ▸ hi⟩ ∈ m.definedIndices :=
      hsub'.subset (List.getElem_mem _)
    obtain ⟨k, hk, hindex⟩ := List.mem_map.mp hmem
    obtain ⟨e, hbuild, heq⟩ := hfaulty.get (hfaulty.length_eq ▸ hi) hi
    rw [← hindex] at hbuild
    obtain ⟨hat, -, -⟩ := IR.inBody_of_build hwell (List.mem_range.mp hk) hbuild
    exact ⟨e, hat.symm ▸ hbuild, heq⟩
  · exact fun bodies i hbody => IR.buildFunction_withBodies m hbody

/-- Of two functions the first is built and the second is at fault, with a type that does not fit;
the first is built also where the second has no instructions at all. -/
theorem analysis_accounts_for_functions_two :
    ∃ a, Analysis.ofBytes IR.twoFunctionsBytes = .ok a ∧ a.functions.map IR.Function.index = [0] ∧
      a.diagnostics.map Diagnostic.functionIndex? = [some 1] ∧
      (∀ d ∈ a.diagnostics, d.code ≠ DiagnosticCode.unterminatedBody.number) ∧
      ∃ f, IR.buildFunction
        { IR.twoFunctions with bodies := IR.twoFunctions.bodies.set! 1 ⟨#[], #[], 29⟩ } 0
        = .ok f := by
  obtain ⟨a, ha, -, ⟨faulty, hfaulty, -, -, -⟩, hbuilt, -, hbodies, hcodes⟩ :=
    analysis_accounts_for_functions IR.decode_twoFunctions
  have hfacts : (Analysis.ofBytes IR.twoFunctionsBytes).toOption.map (fun a =>
      (a.functions.map IR.Function.index, a.diagnostics.map Diagnostic.functionIndex?))
        = some ([0], [some 1]) := by decide +kernel
  rw [ha] at hfacts
  obtain ⟨hfunctions, hdiagnostics⟩ := Prod.mk.inj (Option.some.inj hfacts)
  have hother := hbodies (IR.twoFunctions.bodies.set! 1 ⟨#[], #[], 29⟩) 0 rfl
  refine ⟨a, ha, hfunctions, hdiagnostics, fun d hd heq => hcodes d hd (by simp [heq]), ?_⟩
  obtain ⟨f, hf, hindex⟩ : ∃ f ∈ a.functions, f.index = 0 :=
    List.mem_map.mp (by rw [hfunctions]; exact List.mem_cons_self)
  have hbuild := hbuilt f hf
  rw [hindex] at hbuild
  exact ⟨f, hother.trans hbuild⟩

end WasmScript
