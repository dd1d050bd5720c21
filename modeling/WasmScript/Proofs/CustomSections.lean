/-
  WasmScript/Proofs/CustomSections.lean
  =====================================
  **Custom sections and scripts** — that a custom section does not show in the script.

  A module with a custom section put in between differs from the one without it by a name and by
  offsets, of which neither the script nor its declarations have anything: `insert_custom`.
-/
import WasmScript.Proofs.IR.Offsets
import WasmScript.Proofs.Module.CustomSections
import WasmScript.Transpile

namespace WasmScript

variable {k d : Nat} {names : List String} {m : Module} {bytes longer : ByteArray}
    {front : List RawSection}

theorem generate_moved (functions : List IR.Function) (options : Script.Options) :
    generate (m.moved k d names) functions options = generate m functions options := rfl

theorem declare_moved (options : Script.Options) :
    declare (m.moved k d names) options = declare m options := rfl

/-- The script of some bytes and its declarations, if there are no findings about them. -/
def scripts? (bytes : ByteArray) (options : TranspileOptions) : Option (String × Option String) :=
  (transpile bytes options).toOption.map fun out => (out.code, out.declarations)

theorem scripts?_moved (hk : 0 < k) (h : Module.decode bytes = .ok m)
    (hlonger : Module.decode longer = .ok (m.moved k d names)) (options : TranspileOptions) :
    scripts? longer options = scripts? bytes options := by
  have hbuild := IR.buildModule_moved hk d names m
  have hhere : Analysis.ofBytes bytes = Analysis.ofModule m := by rw [Analysis.ofBytes, h]
  have hthere : Analysis.ofBytes longer = Analysis.ofModule (m.moved k d names) := by
    rw [Analysis.ofBytes, hlonger]
  unfold scripts? transpile check
  rw [hhere, hthere, Analysis.ofModule, Analysis.ofModule]
  cases options.pages? with
  | none => rfl
  | some pages =>
    generalize IR.buildModule m = x, IR.buildModule (m.moved k d names) = y at hbuild ⊢
    cases hbuild with
    | error e => rfl
    | ok hall =>
      cases hall with
      | nil =>
        simp only [bind, Except.bind, pure, Except.pure, Except.mapError]
        rw [generate_moved, declare_moved]
        cases generate m _ _ <;> rfl
      | cons _ _ => rfl

theorem scripts?_of_error {e : DecodeError} (h : Module.decode bytes = .error e)
    (options : TranspileOptions) :
    scripts? bytes options = none := by
  have hanalysis : Analysis.ofBytes bytes = .ok ⟨none, [], [e.toDiagnostic]⟩ := by
    rw [Analysis.ofBytes, h]
  unfold scripts? transpile check
  rw [hanalysis]
  cases options.pages? with
  | none => rfl
  | some pages => rfl

/-- Some bytes with others put in at an offset. -/
def insertBytes (bytes : ByteArray) (k : Nat) (code : List UInt8) : ByteArray :=
  ⟨(bytes.data.toList.take k ++ code ++ bytes.data.toList.drop k).toArray⟩

/-- A custom section may be put in at any boundary between sections, and taken out again: the bytes
with it are a module just if those without it are, the two modules differ by its name and by the
offsets behind it, and they have the same script and the same declarations, if they have any. -/
theorem insert_custom
    (hfront : Decode.preamble ++ front.flatMap RawSection.bytes <+: bytes.data.toList)
    (c : CustomSection) :
    (∀ m', Module.decode (insertBytes bytes (boundary front) c.raw.bytes) = .ok m' ↔
      ∃ m, Module.decode bytes = .ok m ∧ m' = m.withCustom front c) ∧
    ∀ options, scripts? (insertBytes bytes (boundary front) c.raw.bytes) options =
      scripts? bytes options := by
  obtain ⟨rest, hrest⟩ := hfront
  have hlength : boundary front = (Decode.preamble ++ front.flatMap RawSection.bytes).length := by
    rw [List.length_append]
    rfl
  have hlonger : (insertBytes bytes (boundary front) c.raw.bytes).data.toList
      = Decode.preamble ++ front.flatMap RawSection.bytes ++ c.raw.bytes ++ rest := by
    rw [insertBytes, ← hrest, hlength, List.take_left, List.drop_left]
  have hiff (m' : Module) :
      Module.decode (insertBytes bytes (boundary front) c.raw.bytes) = .ok m' ↔
      ∃ m, Module.decode bytes = .ok m ∧ m' = m.withCustom front c :=
    Module.decode_inserted_iff c hrest.symm hlonger
  refine ⟨hiff, fun options => ?_⟩
  -- By the equivalence either both are read or neither is, and then there is no script.
  cases h : Module.decode bytes with
  | ok m =>
    exact scripts?_moved (Nat.add_pos_left (by decide) _) h ((hiff _).mpr ⟨m, h, rfl⟩) options
  | error e =>
    cases hlong : Module.decode (insertBytes bytes (boundary front) c.raw.bytes) with
    | ok m' =>
      obtain ⟨m, hm, -⟩ := (hiff m').mp hlong
      cases h.symm.trans hm
    | error e' => rw [scripts?_of_error h, scripts?_of_error hlong]

/-- The first section of the bytes of `Module.sample`, its types. -/
def sampleTypes : RawSection where
  id := .type
  size := [0x09]
  content := [0x02, 0x60, 0x01, 0x7f, 0x01, 0x7f, 0x60, 0x00, 0x00]
  sized := .last (b := 9) (by decide) (by decide)

/-- A custom section with the name `n` and two bytes of payload. -/
def sampleNote : CustomSection where
  nameSize := [0x01]
  name := "n".toByteArray
  payload := [0xff, 0x00]
  size := [0x04]
  nameSized := .last (b := 1) (by decide) (by decide)
  valid := "n".isValidUTF8
  sized := .last (b := 4) (by decide) (by decide)

/-- Behind the types of the sample that section gives it a name and moves both of its bodies by
six. -/
theorem insert_custom_sample :
    Module.decode (insertBytes Module.sampleBytes (boundary [sampleTypes]) sampleNote.raw.bytes)
        = .ok (Module.sample.withCustom [sampleTypes] sampleNote) ∧
      (Module.sample.withCustom [sampleTypes] sampleNote).customSections = ["n"] ∧
      (Module.sample.withCustom [sampleTypes] sampleNote).bodies.map Body.pos = #[71, 86] ∧
      ∀ options,
        scripts? (insertBytes Module.sampleBytes (boundary [sampleTypes]) sampleNote.raw.bytes)
          options
        = scripts? Module.sampleBytes options := by
  have hfront :
      Decode.preamble ++ [sampleTypes].flatMap RawSection.bytes <+:
        Module.sampleBytes.data.toList := by
    decide
  obtain ⟨hmodule, hscripts⟩ := insert_custom hfront sampleNote
  refine ⟨(hmodule _).mpr ⟨Module.sample, Module.decode_sample, rfl⟩, ?_, ?_, hscripts⟩
  · decide +kernel
  · decide +kernel

end WasmScript
