/-
  WasmScript/Proofs/CommandLine/Saving.lean
  =========================================
  **What is saved of a file** — the outputs of one file, and what is changed for them.

  A file is accepted if it can be read and nothing is found about its module
  (`Directory.Accepts`).  Then its script and its declarations are saved where there is room for
  them, and nothing else is changed but the directory into which they go
  (`Directory.transpileFile_spec`).  A file that is checked changes nothing at all.
-/
import WasmScript.Proofs.Accepted
import WasmScript.Proofs.CommandLine.Directories

namespace WasmScript.CommandLine

/-! ### Steps -/

section

variable {σ α β : Type} {x : Steps (StateM σ) α} {next : α → Steps (StateM σ) β} {s s' : σ}

theorem run_bind_eq : (x >>= next).run s =
    match x.run s with
    | (.ok a, s') => (next a).run s'
    | (.error message, s') => (.error message, s') := by
  rw [ExceptT.run_bind]
  simp only [bind, StateT.bind]
  cases x.run s with
  | mk r s' => cases r <;> rfl

theorem run_mk (act : StateM σ (Except String α)) :
    (ExceptT.mk act : Steps (StateM σ) α).run s = act s := rfl

theorem run_bind_ok {a : α} (h : x.run s = (.ok a, s')) : (x >>= next).run s = (next a).run s' := by
  rw [run_bind_eq, h]

theorem run_bind_error {message : String} (h : x.run s = (.error message, s')) :
    (x >>= next).run s = (.error message, s') := by
  rw [run_bind_eq, h]

end

namespace Directory

variable {d : Directory} {choices : Choices} {file : String}

-- Without these the definitions of the operations would be compared instead of their names.
theorem run_readFile (path : String) (d : Directory) :
    (ExceptT.mk (console.readFile path)).run d = readFile path d := by
  have hread : console.readFile = readFile := rfl
  rw [run_mk, hread]

theorem run_makeDirectory (path : String) (d : Directory) :
    (ExceptT.mk (console.makeDirectory path)).run d = makeDirectory path d := by
  have hmake : console.makeDirectory = makeDirectory := rfl
  rw [run_mk, hmake]

theorem run_writeFile (path text : String) (d : Directory) :
    (ExceptT.mk (console.writeFile path text)).run d = writeFile path text d := by
  have hwrite : console.writeFile = writeFile := rfl
  rw [run_mk, hwrite]

/-! ### Files that are accepted -/

/-- A file can be read, and nothing is found about its module. -/
def Accepts (d : Directory) (file : String) (m : Module) (functions : List IR.Function) : Prop :=
  ∃ bytes, (readFile file d).1 = .ok bytes ∧ Analysis.ofBytes bytes = .ok ⟨some m, functions, []⟩

/-- Findings are printed, and a module without any is given. -/
theorem report_spec (file : String) (analysis : Analysis) (d : Directory) :
    ∃ r lines, (match analysis.module, analysis.diagnostics with
        | some module, [] => pure (some (module, analysis.functions))
        | _, diagnostics => do
          ExceptT.lift (console.error (Diagnostic.textAll (some file) diagnostics))
          pure none : Steps (StateM Directory) (Option (Module × List IR.Function))).run d =
        (r, { d with lines := lines }) ∧
      ∀ m functions, r = .ok (some (m, functions)) ↔ analysis = ⟨some m, functions, []⟩ := by
  obtain ⟨module, functions, diagnostics⟩ := analysis
  cases module with
  | none => exact ⟨_, _, rfl, fun m functions => iff_of_false nofun nofun⟩
  | some module =>
    cases diagnostics with
    | cons diagnostic diagnostics => exact ⟨_, _, rfl, fun m functions => iff_of_false nofun nofun⟩
    | nil =>
      refine ⟨_, _, rfl, fun m functions' => ⟨fun h => ?_, fun h => ?_⟩⟩
      · cases h
        rfl
      · cases h
        rfl

theorem analyzeFile_spec (file : String) (verbose : Bool) (d : Directory) :
    ∃ r lines, (analyzeFile console file verbose).run d = (r, { d with lines := lines }) ∧
      ∀ m functions, r = .ok (some (m, functions)) ↔ d.Accepts file m functions := by
  obtain ⟨hstate, -⟩ := readFile_spec file d
  cases hread : readFile file d with
  | mk result after =>
    obtain rfl : after = d := by rw [← hstate, hread]
    have hstep := (run_readFile file after).trans hread
    unfold analyzeFile
    cases result with
    | error message =>
      refine ⟨.error message, after.lines, run_bind_error hstep, fun m functions =>
        iff_of_false nofun ?_⟩
      rintro ⟨bytes, hbytes, -⟩
      rw [hread] at hbytes
      cases hbytes
    | ok bytes =>
      -- What is read of a file decides whether it is accepted.
      have haccepts {m : Module} {functions : List IR.Function} :
          after.Accepts file m functions ↔
            Analysis.ofBytes bytes = .ok ⟨some m, functions, []⟩ := by
        rw [Accepts, hread]
        constructor
        · rintro ⟨bytes', hbytes, hanalysis⟩
          rwa [Except.ok.inj hbytes]
        · exact fun hanalysis => ⟨bytes, rfl, hanalysis⟩
      simp only [haccepts]
      rw [run_bind_ok hstep]
      cases hanalysis : Analysis.ofBytes bytes with
      | error e =>
        exact ⟨.error e.message, after.lines, run_bind_error rfl, fun m functions =>
          iff_of_false nofun nofun⟩
      | ok analysis =>
        have hmade : (ExceptT.mk (pure ((Except.ok analysis).mapError IR.AccessError.message)) :
            Steps (StateM Directory) Analysis).run after = (.ok analysis, after) := rfl
        rw [run_bind_ok hmade]
        simp only [Except.ok.injEq]
        cases verbose with
        | false => exact report_spec file analysis after
        | true => exact report_spec file analysis (console.error _ after).2

/-! ### Outputs that are saved -/

/-- What is saved of a script and of declarations, if they are wanted: each where there is room for
it, and declarations only with their script. -/
inductive Outputs (d : Directory) (choices : Choices) (file code declared : String) :
    List String → ByteArray → Prop where
  | script : d.HasRoom (outputPath file choices.output) →
      Outputs d choices file code declared (d.locate (outputPath file choices.output))
        (Units.toUTF8 code)
  | declarations : choices.declarations = true → d.HasRoom (outputPath file choices.output) →
      d.HasRoom (declarationPath (outputPath file choices.output)) →
      Outputs d choices file code declared
          (d.locate (declarationPath (outputPath file choices.output)))
        (Units.toUTF8 declared)

theorem outputs_iff {code declared : String} {place : List String} {bytes : ByteArray} :
    d.Outputs choices file code declared place bytes ↔ d.HasRoom (outputPath file choices.output) ∧
      (place = d.locate (outputPath file choices.output) ∧ bytes = Units.toUTF8 code ∨
        choices.declarations = true ∧ d.HasRoom (declarationPath (outputPath file choices.output)) ∧
          place = d.locate (declarationPath (outputPath file choices.output)) ∧
            bytes = Units.toUTF8 declared) := by
  constructor
  · rintro (hroom | ⟨hwanted, hroom, hroom'⟩)
    · exact ⟨hroom, Or.inl ⟨rfl, rfl⟩⟩
    · exact ⟨hroom, Or.inr ⟨hwanted, hroom', rfl, rfl⟩⟩
  · rintro ⟨hroom, ⟨hplace, hbytes⟩ | ⟨hwanted, hroom', hplace, hbytes⟩⟩
    · rw [hplace, hbytes]
      exact .script hroom
    · rw [hplace, hbytes]
      exact .declarations hwanted hroom hroom'

theorem not_concat_prefix {α : Type} {a : α} {as : List α} : ¬ as ++ [a] <+: as := by
  intro h
  have hlength := h.length_le
  rw [List.length_append, List.length_singleton] at hlength
  omega

/-- In a directory that is there a script is written, and then its declarations if they are
wanted. -/
theorem write_spec (h : d.WellFormed) {path path' : String} (code declared line : String)
    (wanted : Bool) (haround : ∀ p ∈ [path, path'], d.isDirectory (d.locate p).dropLast = true)
    (hne : d.locate path ≠ d.locate path') :
    let r := (do
      ExceptT.mk (console.writeFile path code)
      if wanted then ExceptT.mk (console.writeFile path' declared)
      ExceptT.lift (console.log line)
      pure true : Steps (StateM Directory) Bool).run d
    (r.1 = .ok true ↔ d.CanWrite path ∧ (wanted = true → d.CanWrite path')) ∧
      Changed d (fun q bytes => d.CanWrite path ∧ (q = d.locate path ∧ bytes = Units.toUTF8 code ∨
        wanted = true ∧ d.CanWrite path' ∧ q = d.locate path' ∧ bytes = Units.toUTF8 declared))
        (fun _ => False) r.2 := by
  intro r
  have hscript := haround path List.mem_cons_self
  have hdeclarations := haround path' (List.mem_cons_of_mem _ List.mem_cons_self)
  rcases h.writeFile_cases path code hscript with ⟨hwrite, hwritten⟩ | ⟨hwrite, message, hwritten⟩
  · have hstep := (run_writeFile path code d).trans hwritten
    have hfirst := Changed.put h (Units.toUTF8 code) hscript hwrite.notDirectory
    cases wanted with
    | false =>
      have hr : r = (.ok true, (print .log line (d.put (d.locate path) (Units.toUTF8 code))).2) :=
        run_bind_ok hstep
      rw [hr]
      refine ⟨iff_of_true rfl ⟨hwrite, nofun⟩, (hfirst.lines _).congr ?_ fun _ => Iff.rfl⟩
      exact fun q bytes => (and_iff_right hwrite).trans (or_iff_left nofun)
    | true =>
      -- Writing the script changes no directory, so the declarations can be written as before.
      have hwritable : (d.put (d.locate path) (Units.toUTF8 code)).CanWrite path' ↔
          d.CanWrite path' :=
        canWrite_congr rfl Iff.rfl
      rcases hfirst.wellFormed.writeFile_cases path' declared hdeclarations with
        ⟨hwrite', hwritten'⟩ | ⟨hwrite', message, hwritten'⟩
      · have hsecond :=
          Changed.put hfirst.wellFormed (Units.toUTF8 declared) hdeclarations hwrite'.notDirectory
        have hboth := hfirst.trans hsecond fun q _ _ hq hq' => hne (hq.1.symm.trans hq'.1)
        have hstep' := (run_writeFile path' declared _).trans hwritten'
        have hr : r = (.ok true, (print .log line _).2) :=
          (run_bind_ok hstep).trans (run_bind_ok hstep')
        rw [hr]
        refine ⟨iff_of_true rfl ⟨hwrite, fun _ => hwritable.mp hwrite'⟩,
          (hboth.lines _).congr ?_ ?_⟩
        · intro q bytes
          simp only [hwrite, hwritable.mp hwrite', true_and]
        · exact fun _ => (or_self False).symm.to_iff
      · have hstep' := (run_writeFile path' declared _).trans hwritten'
        have hr : r = (.error message, d.put (d.locate path) (Units.toUTF8 code)) :=
          (run_bind_ok hstep).trans (run_bind_error hstep')
        have hunwritable : ¬ d.CanWrite path' := mt hwritable.mpr hwrite'
        rw [hr]
        refine ⟨iff_of_false nofun fun hall => hunwritable (hall.2 rfl),
          hfirst.congr ?_ fun _ => Iff.rfl⟩
        exact fun q bytes => (and_iff_right hwrite).trans (or_iff_left fun hq => hunwritable hq.2.1)
  · have hstep := (run_writeFile path code d).trans hwritten
    have hr : r = (.error message, d) := run_bind_error hstep
    rw [hr]
    refine ⟨iff_of_false nofun fun hall => hwrite hall.1,
      (Changed.refl h).congr ?_ fun _ => Iff.rfl⟩
    exact fun q bytes => iff_of_false (fun hq => hwrite hq.1) id

def save (file path code declared : String) (wanted : Bool) : Steps (StateM Directory) Bool := do
  ExceptT.mk (console.makeDirectory (Path.dirname path))
  ExceptT.mk (console.writeFile path code)
  if wanted then ExceptT.mk (console.writeFile (declarationPath path) declared)
  ExceptT.lift (console.log ("Transpiled " ++ file ++ " -> " ++ path))
  pure true

/-- Outputs are saved as far as there is room for them. -/
theorem save_spec (h : d.WellFormed) (file code declared : String) (wanted : Bool) {path : String}
    (hscript : isScriptPath path = true) :
    (((save file path code declared wanted).run d).1 = .ok true ↔
        d.HasRoom path ∧ (wanted = true → d.HasRoom (declarationPath path))) ∧
      Changed d (fun q bytes => d.HasRoom path ∧ (q = d.locate path ∧ bytes = Units.toUTF8 code ∨
        wanted = true ∧ d.HasRoom (declarationPath path) ∧
          q = d.locate (declarationPath path) ∧ bytes = Units.toUTF8 declared))
        (fun q => d.CanMake (Path.dirname path) ∧ q <+: d.locate (Path.dirname path))
        ((save file path code declared wanted).run d).2 := by
  obtain ⟨hdirname, hlocate⟩ := exists_locate_outputPaths h.absolute hscript
  unfold save
  rcases makeDirectory_cases (Path.dirname path) d with ⟨hmake, hmade⟩ | ⟨hmake, message, hmade⟩
  · have hchanged := Changed.made h hmake.free
    have haround : ∀ p ∈ [path, declarationPath path],
        (d.made (d.locate (Path.dirname path))).isDirectory (d.locate p).dropLast = true := by
      intro p hp
      obtain ⟨name, hname⟩ := hlocate p hp
      rw [hname, List.dropLast_concat]
      exact isDirectory_made.mpr (Or.inr List.prefix_rfl)
    have hroom : ∀ p ∈ [path, declarationPath path],
        d.HasRoom p ↔ (d.made (d.locate (Path.dirname path))).CanWrite p := by
      intro p hp
      obtain ⟨name, hname⟩ := hlocate p hp
      have hsame : Path.dirname p = Path.dirname path := by
        rcases List.mem_pair.mp hp with rfl | rfl
        · rfl
        · exact hdirname
      -- Only directories above the output have been made, and so not the output itself.
      have hwritable : (d.made (d.locate (Path.dirname path))).CanWrite p ↔ d.CanWrite p := by
        refine canWrite_congr rfl (isDirectory_made.trans (or_iff_left ?_))
        rw [hname]
        exact not_concat_prefix
      rw [hwritable]
      exact ⟨fun hroom => hroom.file, fun hfile => ⟨hsame ▸ hmake, hfile⟩⟩
    have hstep := (run_makeDirectory (Path.dirname path) d).trans hmade
    have hne := locate_ne_declarationPath d hscript hscript
    obtain ⟨hresult, hwritten⟩ := write_spec hchanged.wellFormed code declared
      ("Transpiled " ++ file ++ " -> " ++ path) wanted haround hne
    have hpath := hroom path List.mem_cons_self
    have hdeclared := hroom _ (List.mem_cons_of_mem path List.mem_cons_self)
    rw [run_bind_ok hstep, hpath, hdeclared]
    refine ⟨hresult, (hchanged.trans hwritten nofun).congr ?_ ?_⟩
    · intro q bytes
      rw [false_or]
      rfl
    · exact fun q => (and_iff_right hmake).trans (or_iff_left id).symm
  · have hstep := (run_makeDirectory (Path.dirname path) d).trans hmade
    have hroom : ¬ d.HasRoom path := fun hroom => hmake hroom.directory
    rw [run_bind_error hstep]
    refine ⟨iff_of_false nofun fun hall => hroom hall.1, (Changed.refl h).congr ?_ ?_⟩
    · exact fun q bytes => iff_of_false (fun hq => hroom hq.1) id
    · exact fun q => iff_of_false (fun hq => hmake hq.1) id

/-! ### One file -/

/-- What is saved of a file: its script and its declarations, if it is accepted. -/
def Saves (d : Directory) (choices : Choices) (file : String) (place : List String)
    (bytes : ByteArray) : Prop :=
  ∃ m functions code, d.Accepts file m functions ∧ generate m functions choices.script = .ok code ∧
    d.Outputs choices file code (declare m choices.script) place bytes

/-- The directories that are made for a file, if it is accepted. -/
def Makes (d : Directory) (choices : Choices) (file : String) (place : List String) : Prop :=
  (∃ m functions, d.Accepts file m functions) ∧
      d.CanMake (Path.dirname (outputPath file choices.output)) ∧
    place <+: d.locate (Path.dirname (outputPath file choices.output))

/-- A file is accepted, and there is room for its outputs. -/
structure Succeeds (d : Directory) (choices : Choices) (file : String) : Prop where
  accepted : ∃ m functions, d.Accepts file m functions
  script : d.HasRoom (outputPath file choices.output)
  declarations : choices.declarations = true →
    d.HasRoom (declarationPath (outputPath file choices.output))

theorem succeeds_iff : d.Succeeds choices file ↔ (∃ m functions, d.Accepts file m functions) ∧
    d.HasRoom (outputPath file choices.output) ∧
      (choices.declarations = true →
        d.HasRoom (declarationPath (outputPath file choices.output))) :=
  ⟨fun h => ⟨h.accepted, h.script, h.declarations⟩, fun ⟨haccepted, hscript, hdeclarations⟩ =>
    ⟨haccepted, hscript, hdeclarations⟩⟩

theorem Accepts.unique {m m' : Module} {functions functions' : List IR.Function}
    (h : d.Accepts file m functions) (h' : d.Accepts file m' functions') :
    m = m' ∧ functions = functions' := by
  obtain ⟨bytes, hbytes, hanalysis⟩ := h
  obtain ⟨bytes', hbytes', hanalysis'⟩ := h'
  rw [← Except.ok.inj (hbytes.symm.trans hbytes'), hanalysis] at hanalysis'
  cases hanalysis'
  exact ⟨rfl, rfl⟩

/-- What is accepted has a script. -/
theorem Accepts.exists_generate {m : Module} {functions : List IR.Function}
    (h : d.Accepts file m functions) {options : Script.Options}
    (hpages : options.maxPages ≤ LinearMemory.maxPages) :
    ∃ code, generate m functions options = .ok code := by
  obtain ⟨bytes, -, hanalysis⟩ := h
  obtain ⟨hdecode, hbuild⟩ := Analysis.built_of_ofBytes hanalysis rfl
  exact Checked.Accepted.exists_generate (c := ⟨m, functions, options⟩)
    ⟨Module.wellFormed_of_decode hdecode, hpages, IR.builtFrom_buildAll hbuild rfl⟩

/-- An accepted file is saved after some lines were printed. -/
theorem exists_save {m : Module} {functions : List IR.Function} {code : String}
    (h : d.Accepts file m functions) (hcode : generate m functions choices.script = .ok code) :
    ∃ lines, (transpileFile console choices file).run d =
      (save file (outputPath file choices.output) code
        (declare m choices.script) choices.declarations).run
        { d with lines := lines } := by
  obtain ⟨analyzed, lines, hanalyzed, haccepts⟩ := analyzeFile_spec file choices.verbose d
  obtain rfl := (haccepts m functions).mpr h
  have hgenerated (d' : Directory) :
      (ExceptT.mk (pure ((generate m functions choices.script).mapError
      Script.FormError.message)) : Steps (StateM Directory) String).run d' = (.ok code, d') := by
    rw [hcode]
    rfl
  unfold transpileFile
  rw [run_bind_ok hanalyzed]
  dsimp only
  rw [run_bind_ok (hgenerated _)]
  -- Showing the time changes the lines that were printed, and nothing else.
  cases choices.verbose with
  | false => exact ⟨lines, rfl⟩
  | true =>
    have hprinted (d' : Directory) (line : String) :
        (ExceptT.lift (console.error line) : Steps (StateM Directory) Unit).run d' =
          (.ok (), { d' with lines := (.error, line) :: d'.lines }) := rfl
    have helapsed (d' : Directory) :
        (ExceptT.lift console.elapsed : Steps (StateM Directory) String).run d' =
        (.ok "<time>ms", d') := rfl
    rw [if_pos rfl, run_bind_ok (helapsed _), run_bind_ok (hprinted _ _)]
    exact ⟨_, rfl⟩

theorem saves_iff {m : Module} {functions : List IR.Function} {code : String}
    (h : d.Accepts file m functions) (hcode : generate m functions choices.script = .ok code)
    (place : List String) (bytes : ByteArray) :
    d.Saves choices file place bytes ↔
      d.Outputs choices file code (declare m choices.script) place bytes := by
  constructor
  · rintro ⟨m', functions', code', h', hcode', houtputs⟩
    obtain ⟨rfl, rfl⟩ := h.unique h'
    rwa [Except.ok.inj (hcode.symm.trans hcode')]
  · exact fun houtputs => ⟨m, functions, code, h, hcode, houtputs⟩

/-- A file that is transpiled saves what it has to, and changes nothing else. -/
theorem transpileFile_spec (h : d.WellFormed)
    (hpages : choices.script.maxPages ≤ LinearMemory.maxPages) (file : String) :
    let r := (transpileFile console choices file).run d
    (r.1 = .ok true ↔ d.Succeeds choices file) ∧
      Changed d (d.Saves choices file) (d.Makes choices file) r.2 := by
  intro r
  by_cases haccepted : ∃ m functions, d.Accepts file m functions
  · obtain ⟨m, functions, hm⟩ := haccepted
    obtain ⟨code, hcode⟩ := hm.exists_generate hpages
    obtain ⟨lines, hr⟩ := exists_save hm hcode
    have hlines := (Changed.refl h).lines lines
    -- What has been printed does not matter to what can be saved.
    have hroom (path : String) : ({ d with lines := lines } : Directory).HasRoom path ↔
        d.HasRoom path :=
      hasRoom_congr rfl Iff.rfl Iff.rfl
    have hmake (path : String) : ({ d with lines := lines } : Directory).CanMake path ↔
        d.CanMake path :=
      canMake_congr rfl Iff.rfl
    obtain ⟨hresult, hsaved⟩ :=
      save_spec hlines.wellFormed file code (declare m choices.script) choices.declarations
        (isScriptPath_outputPath file choices.output)
    rw [← hr, hroom, hroom] at hresult
    rw [← hr] at hsaved
    have hfound : ∃ m functions, d.Accepts file m functions := ⟨m, functions, hm⟩
    refine ⟨hresult.trans ((and_iff_right hfound).symm.trans succeeds_iff.symm),
      (hlines.trans hsaved nofun).congr ?_ ?_⟩
    · intro q bytes
      rw [saves_iff hm hcode, false_or, outputs_iff, hroom, hroom]
      rfl
    · intro q
      rw [Makes, and_iff_right hfound, false_or, hmake]
      rfl
  · obtain ⟨analyzed, lines, hanalyzed, haccepts⟩ := analyzeFile_spec file choices.verbose d
    have hfailed : r.1 ≠ .ok true ∧ r.2 = { d with lines := lines } := by
      cases analyzed with
      | error message =>
        have hr : r = (.error message, { d with lines := lines }) := run_bind_error hanalyzed
        rw [hr]
        exact ⟨nofun, rfl⟩
      | ok found =>
        cases found with
        | none =>
          have hr : r = (.ok false, { d with lines := lines }) := run_bind_ok hanalyzed
          rw [hr]
          exact ⟨nofun, rfl⟩
        | some found => exact absurd ⟨_, _, (haccepts found.1 found.2).mp rfl⟩ haccepted
    rw [hfailed.2]
    refine ⟨iff_of_false hfailed.1 fun hall => haccepted hall.accepted,
      ((Changed.refl h).lines lines).congr ?_ ?_⟩
    · exact fun q bytes =>
        iff_of_false (fun ⟨m, functions, code, hm, _⟩ => haccepted ⟨m, functions, hm⟩) id
    · exact fun q => iff_of_false (fun hq => haccepted hq.1) id

/-- A file that is checked is valid just if it is accepted, and nothing is changed. -/
theorem checkFile_spec (verbose : Bool) (file : String) (d : Directory) :
    ∃ r lines, (checkFile console verbose file).run d = (r, { d with lines := lines }) ∧
      (r = .ok true ↔ ∃ m functions, d.Accepts file m functions) := by
  obtain ⟨analyzed, lines, hanalyzed, haccepts⟩ := analyzeFile_spec file verbose d
  unfold checkFile
  cases analyzed with
  | error message =>
    refine ⟨.error message, lines, run_bind_error hanalyzed, iff_of_false nofun ?_⟩
    exact fun ⟨m, functions, hm⟩ => nomatch (haccepts m functions).mpr hm
  | ok found =>
    rw [run_bind_ok hanalyzed]
    cases found with
    | none =>
      refine ⟨.ok false, lines, rfl, iff_of_false nofun ?_⟩
      exact fun ⟨m, functions, hm⟩ => nomatch (haccepts m functions).mpr hm
    | some found =>
      exact ⟨.ok true, _, rfl, iff_of_true rfl ⟨_, _, (haccepts found.1 found.2).mp rfl⟩⟩

theorem accepts_lines {m : Module} {functions : List IR.Function} (d : Directory)
    (lines : List (Stream × String)) :
    ({ d with lines := lines } : Directory).Accepts file m functions ↔
      d.Accepts file m functions := by
  have husable : ({ d with lines := lines } : Directory).Usable file (Path.resolve d.cwd file) ↔
      d.Usable file (Path.resolve d.cwd file) :=
    ⟨fun ⟨hzero, hlong⟩ => ⟨hzero, hlong⟩, fun ⟨hzero, hlong⟩ => ⟨hzero, hlong⟩⟩
  have hread (bytes : ByteArray) :
      (readFile file { d with lines := lines }).1 = .ok bytes ↔
        (readFile file d).1 = .ok bytes := by
    rw [(readFile_spec file { d with lines := lines }).2, (readFile_spec file d).2, husable]
    rfl
  simp only [Accepts, hread]

end Directory

end WasmScript.CommandLine
