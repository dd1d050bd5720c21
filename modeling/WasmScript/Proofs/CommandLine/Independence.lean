/-
  WasmScript/Proofs/CommandLine/Independence.lean
  ===============================================
  **One file after another** — what becomes of a file does not depend on the others.

  What one file saves and makes leaves any other file what it is, if its outputs go elsewhere
  (`Directory.same_of_changed`): the directory into which outputs go is the same for all files, or
  it is there before, as a file that was read is in it.  So after any number of steps each file has
  saved what it would have saved alone, and the exit code says whether all of them have.
-/
import WasmScript.Proofs.CommandLine.Clashes
import WasmScript.Proofs.CommandLine.Saving

namespace WasmScript.CommandLine

namespace Directory

variable {d d' : Directory} {choices : Choices} {file : String}

/-! ### Other files -/

def target (d : Directory) (output : Option String) (file : String) : List String :=
  d.locate (Path.dirname (outputPath file output))

theorem Accepts.content?_ne_none {m : Module} {functions : List IR.Function} (h : d.WellFormed)
    (haccepts : d.Accepts file m functions) : d.content? (d.locate file) ≠ none := by
  obtain ⟨bytes, hbytes, -⟩ := haccepts
  obtain ⟨-, -, -, hfile⟩ := h.readFile_eq_ok_iff.mp hbytes
  rw [hfile]
  nofun

/-- Outputs go into one directory, or into directories that are there because a file is in each. -/
theorem WellFormed.target_cases (h : d.WellFormed) (output : Option String) :
    (∀ file other, d.target output file = d.target output other) ∨
      ∀ file, d.content? (d.locate file) ≠ none → d.Free (d.target output file) →
        d.isDirectory (d.target output file) = true := by
  have htarget (file : String) := locate_dirname_outputPath h.absolute file output
  cases output with
  | some output => exact Or.inl fun file other => (htarget file).trans (htarget other).symm
  | none =>
    refine Or.inr fun file hfile hfree => ?_
    rw [target, htarget file] at hfree ⊢
    rcases locate_dirname_cases h.absolute file with hplace | hplace | ⟨name, hplace⟩
    · have hprefix : d.locate file <+: d.locate (Path.dirname file) := by rw [hplace]
      exact absurd (hfree _ hprefix) hfile
    · have hprefix : d.locate file <+: d.locate (Path.dirname file) := by
        rw [hplace]
        exact List.dropLast_prefix _
      exact absurd (hfree _ hprefix) hfile
    · refine h.around _ hfile _ ?_
      rw [hplace, List.dropLast_concat]

theorem Saves.exists_path {place : List String} {bytes : ByteArray}
    (h : d.Saves choices file place bytes) :
    ∃ path ∈ outputPaths choices.output file, place = d.locate path ∧ d.HasRoom path := by
  obtain ⟨m, functions, code, -, -, houtputs⟩ := h
  obtain ⟨hroom, ⟨hplace, -⟩ | ⟨-, hroom', hplace, -⟩⟩ := outputs_iff.mp houtputs
  · exact ⟨outputPath file choices.output, List.mem_cons_self, hplace, hroom⟩
  · exact ⟨declarationPath _, List.mem_cons_of_mem _ List.mem_cons_self, hplace, hroom'⟩

/-- Where outputs go is a step from the directory for them. -/
theorem exists_locate_target (hcwd : Path.isAbsolute d.cwd = true) (output : Option String)
    (file : String) :
    ∀ path ∈ outputPaths output file, Path.dirname path = Path.dirname (outputPath file output) ∧
      ∃ name, d.locate path = d.target output file ++ [name] := by
  obtain ⟨hdirname, hlocate⟩ := exists_locate_outputPaths hcwd (isScriptPath_outputPath file output)
  intro path hpath
  refine ⟨?_, hlocate path hpath⟩
  rcases List.mem_pair.mp hpath with rfl | rfl
  · rfl
  · exact hdirname

theorem outputs_congr {code declared : String} {place : List String} {bytes : ByteArray}
    (hcwd : d'.cwd = d.cwd)
    (hroom : ∀ path ∈ outputPaths choices.output file, d'.HasRoom path ↔ d.HasRoom path) :
    d'.Outputs choices file code declared place bytes ↔
      d.Outputs choices file code declared place bytes := by
  have hdeclaration := hroom _ (List.mem_cons_of_mem _ List.mem_cons_self)
  rw [outputs_iff, outputs_iff, hroom _ List.mem_cons_self, hdeclaration, locate_congr hcwd,
    locate_congr hcwd]

section

variable {other : String} (h : d.WellFormed)
    (hchanged : Changed d (d.Saves choices file) (d.Makes choices file) d')

include h hchanged

/-- A file that is handled takes no directory from another one. -/
theorem free_target_iff (hother : d.content? (d.locate other) ≠ none) :
    d'.Free (d.target choices.output other) ↔ d.Free (d.target choices.output other) := by
  constructor
  · exact fun hfree around haround => hchanged.content?_eq_none (hfree around haround)
  · intro hfree around haround
    rw [hchanged.kept around fun bytes hsaves => ?_]
    · exact hfree around haround
    · obtain ⟨path, hpath, hplace, hroom⟩ := hsaves.exists_path
      rw [hplace] at haround
      rcases h.target_cases choices.output with hsame | hthere
      · obtain ⟨-, name, hname⟩ := exists_locate_target h.absolute choices.output file path hpath
        rw [hname, hsame file other] at haround
        exact not_concat_prefix haround
      · have hdirectory := h.closed _ (hthere other hother hfree) _ haround
        exact Bool.eq_false_iff.mp hroom.file.notDirectory hdirectory

/-- A file that is handled makes no directory where another one has an output. -/
theorem isDirectory_output_iff {path : String} (hpath : path ∈ outputPaths choices.output other) :
    d'.isDirectory (d.locate path) = true ↔ d.isDirectory (d.locate path) = true := by
  refine (hchanged.directories _).trans (or_iff_left_of_imp ?_)
  rintro ⟨⟨m, functions, haccepts⟩, hmake, hprefix⟩
  rcases h.target_cases choices.output with hsame | hthere
  · obtain ⟨-, name, hname⟩ := exists_locate_target h.absolute choices.output other path hpath
    rw [hname, ← hsame file other] at hprefix
    exact absurd hprefix not_concat_prefix
  · exact h.closed _ (hthere file (haccepts.content?_ne_none h) hmake.free) _ hprefix

theorem accepts_iff {m : Module} {functions : List IR.Function}
    (hinput : ∀ path ∈ outputPaths choices.output file, d.locate path ≠ d.locate other) :
    d'.Accepts other m functions ↔ d.Accepts other m functions := by
  have hkept : d'.content? (d.locate other) = d.content? (d.locate other) := by
    refine hchanged.kept _ fun bytes hsaves => ?_
    obtain ⟨path, hpath, hplace, -⟩ := hsaves.exists_path
    exact hinput path hpath hplace.symm
  have hread (bytes : ByteArray) : (readFile other d').1 = .ok bytes ↔
      (readFile other d).1 = .ok bytes := by
    rw [hchanged.wellFormed.readFile_eq_ok_iff, h.readFile_eq_ok_iff, locate_congr hchanged.cwd,
      hchanged.cwd, hkept]
  simp only [Accepts, hread]

/-- **A file that is handled leaves to another what it has**, if its outputs go elsewhere. -/
theorem same_of_changed
    (hinput : ∀ path ∈ outputPaths choices.output file, d.locate path ≠ d.locate other) :
    (∀ place bytes, d'.Saves choices other place bytes ↔ d.Saves choices other place bytes) ∧
      (∀ place, d'.Makes choices other place ↔ d.Makes choices other place) ∧
      (d'.Succeeds choices other ↔ d.Succeeds choices other) := by
  have haccepts {m : Module} {functions : List IR.Function} :
      d'.Accepts other m functions ↔ d.Accepts other m functions := accepts_iff h hchanged hinput
  have hlocate (path : String) := locate_congr hchanged.cwd path
  -- A file that is not accepted saves and makes nothing, neither before nor after.
  by_cases haccepted : ∃ m functions, d.Accepts other m functions
  · obtain ⟨m, functions, hm⟩ := haccepted
    have hfree := free_target_iff h hchanged (hm.content?_ne_none h)
    have hroom : ∀ path ∈ outputPaths choices.output other, d'.HasRoom path ↔ d.HasRoom path := by
      intro path hpath
      obtain ⟨hdirname, -⟩ := exists_locate_target h.absolute choices.output other path hpath
      refine hasRoom_congr hchanged.cwd ?_ (isDirectory_output_iff h hchanged hpath)
      rw [hdirname]
      exact hfree
    refine ⟨fun place bytes => ?_, fun place => ?_, ?_⟩
    · simp only [Saves, haccepts, outputs_congr hchanged.cwd hroom]
    · simp only [Makes, haccepts, canMake_congr hchanged.cwd hfree, hlocate]
    · have hscript := hroom _ List.mem_cons_self
      have hdeclarations := hroom _ (List.mem_cons_of_mem _ List.mem_cons_self)
      rw [succeeds_iff, succeeds_iff, hscript, hdeclarations]
      simp only [haccepts]
  · have haccepted' : ¬ ∃ m functions, d'.Accepts other m functions := by
      simpa only [haccepts] using haccepted
    refine ⟨fun place bytes => iff_of_false ?_ ?_, fun place => iff_of_false ?_ ?_,
      iff_of_false ?_ ?_⟩
    · rintro ⟨m, functions, code, hm, -⟩
      exact haccepted' ⟨m, functions, hm⟩
    · rintro ⟨m, functions, code, hm, -⟩
      exact haccepted ⟨m, functions, hm⟩
    · exact fun hmakes => haccepted' hmakes.1
    · exact fun hmakes => haccepted hmakes.1
    · exact fun hsucceeds => haccepted' hsucceeds.accepted
    · exact fun hsucceeds => haccepted hsucceeds.accepted

end

/-! ### All files -/

/-- All files were handled well if the first one was and the others were, after a line perhaps that
complains. -/
theorem forFiles_cons (handle : String → Steps (StateM Directory) Bool) (file : String)
    (rest : List String) (d : Directory) :
    ∃ lines after, after = { ((handle file).run d).2 with lines := lines } ∧
      ((forFiles console handle (file :: rest) d).1 = true ↔
        ((handle file).run d).1 = .ok true ∧ (forFiles console handle rest after).1 = true) ∧
      (forFiles console handle (file :: rest) d).2 = (forFiles console handle rest after).2 := by
  cases hr : (handle file).run d with
  | mk r after =>
    -- A file at fault is complained about, and the ones after it have their turn all the same.
    cases r with
    | error message =>
      have hstep : forFiles console handle (file :: rest) d =
          (false, (forFiles console handle rest
            (console.error (file ++ ": " ++ message) after).2).2) := by
        rw [forFiles]
        simp only [bind, StateT.bind]
        rw [hr]
        rfl
      refine ⟨(.error, file ++ ": " ++ message) :: after.lines, _, rfl, ?_⟩
      rw [hstep]
      exact ⟨iff_of_false nofun nofun, rfl⟩
    | ok good =>
      have hstep : forFiles console handle (file :: rest) d =
          (good && (forFiles console handle rest after).1,
            (forFiles console handle rest after).2) := by
        rw [forFiles]
        simp only [bind, StateT.bind]
        rw [hr]
        rfl
      refine ⟨after.lines, _, rfl, ?_⟩
      rw [hstep]
      refine ⟨Bool.and_eq_true_iff.trans (and_congr_left fun _ => ?_), rfl⟩
      exact ⟨congrArg Except.ok, Except.ok.inj⟩

/-- The outputs of files have places of their own, and none is that of an input. -/
structure Apart (d : Directory) (output : Option String) (files : List String) : Prop where
  outputs : ((files.flatMap (outputPaths output)).map d.locate).Nodup
  inputs : ∀ file ∈ files, d.locate file ∉ (files.flatMap (outputPaths output)).map d.locate

section

variable {output : Option String} {other : String} {rest : List String}

theorem Apart.tail (h : d.Apart output (file :: rest)) (hcwd : d'.cwd = d.cwd) :
    d'.Apart output rest := by
  have hlocate : d'.locate = d.locate := funext (locate_congr hcwd)
  obtain ⟨houtputs, hinputs⟩ := h
  rw [List.flatMap_cons, List.map_append] at houtputs hinputs
  constructor
  · rw [hlocate]
    exact (List.nodup_append.mp houtputs).2.1
  · intro other hother hmem
    rw [hlocate] at hmem
    exact hinputs other (List.mem_cons_of_mem file hother) (List.mem_append_right _ hmem)

/-- An output is that of one file. -/
theorem Apart.file_eq {files : List String} (h : d.Apart output files) (hfile : file ∈ files)
    (hother : other ∈ files) {path path' : String} (hpath : path ∈ outputPaths output file)
    (hpath' : path' ∈ outputPaths output other) (heq : d.locate path = d.locate path') :
    file = other := by
  have houtputs := h.outputs
  rw [List.map_flatMap, List.nodup_flatMap] at houtputs
  have : Std.Symm
      (Function.onFun List.Disjoint fun file => (outputPaths output file).map d.locate) :=
    ⟨fun _ _ hdisjoint => hdisjoint.symm⟩
  by_contra hne
  have hdisjoint := houtputs.2.forall hfile hother hne
  exact hdisjoint (List.mem_map_of_mem hpath) (List.mem_map.mpr ⟨path', hpath', heq.symm⟩)

theorem Apart.inputs_head (h : d.Apart output (file :: rest)) (hother : other ∈ rest) :
    ∀ path ∈ outputPaths output file, d.locate path ≠ d.locate other := by
  intro path hpath heq
  refine h.inputs other (List.mem_cons_of_mem file hother) (List.mem_map.mpr ⟨path, ?_, heq⟩)
  exact List.mem_flatMap.mpr ⟨file, List.mem_cons_self, hpath⟩

theorem Apart.outputs_head (h : d.Apart output (file :: rest)) (hother : other ∈ rest) :
    ∀ path ∈ outputPaths output file, ∀ path' ∈ outputPaths output other, d.locate path ≠
      d.locate path' := by
  intro path hpath path' hpath'
  have houtputs := h.outputs
  rw [List.flatMap_cons, List.map_append] at houtputs
  refine (List.nodup_append.mp houtputs).2.2 _ (List.mem_map_of_mem hpath)
    _ (List.mem_map_of_mem ?_)
  exact List.mem_flatMap.mpr ⟨other, hother, hpath'⟩

end

theorem exists_mem_cons_congr {p p' : String → Prop} {rest : List String}
    (h : ∀ other ∈ rest, p' other ↔ p other) :
    (∃ f ∈ file :: rest, p f) ↔ p file ∨ ∃ other ∈ rest, p' other := by
  simp only [List.mem_cons, exists_eq_or_imp]
  exact or_congr_right
    (exists_congr fun other => and_congr_right fun hother => (h other hother).symm)

/-- Files save what they have to, whatever else is asked for. -/
theorem forFiles_spec (hpages : choices.script.maxPages ≤ LinearMemory.maxPages)
    (files : List String) :
    ∀ {d : Directory}, d.WellFormed → d.Apart choices.output files →
      let r := forFiles console (transpileFile console choices) files d
      (r.1 = true ↔ ∀ file ∈ files, d.Succeeds choices file) ∧
        Changed d (fun place bytes => ∃ file ∈ files, d.Saves choices file place bytes)
          (fun place => ∃ file ∈ files, d.Makes choices file place) r.2 := by
  -- The induction is on the files: what one of them saves is neither read nor saved over by the
  -- later ones.
  induction files with
  | nil =>
    intro d h _
    refine ⟨iff_of_true rfl nofun, (Changed.refl h).congr ?_ ?_⟩
    · simp
    · simp
  | cons file rest ih =>
    intro d h hapart
    obtain ⟨lines, after, hafter, hgood, hstate⟩ :=
      forFiles_cons (transpileFile console choices) file rest d
    obtain ⟨hfirst, hchanged⟩ := transpileFile_spec h hpages file
    have hprinted : Changed d (d.Saves choices file) (d.Makes choices file) after := by
      rw [hafter]
      exact hchanged.lines lines
    obtain ⟨hothers, hrest⟩ := ih hprinted.wellFormed (hapart.tail hprinted.cwd)
    have hsame (other : String) (hother : other ∈ rest) :=
      same_of_changed h hprinted (hapart.inputs_head hother)
    constructor
    · rw [hgood, hfirst, hothers, List.forall_mem_cons]
      exact and_congr_right fun _ => forall₂_congr fun other hother => (hsame other hother).2.2
    · have hdisjoint : ∀ place bytes bytes', d.Saves choices file place bytes →
          ¬ ∃ other ∈ rest, after.Saves choices other place bytes' := by
        rintro place bytes bytes' hsaves ⟨other, hother, hsaves'⟩
        obtain ⟨path, hpath, hplace, -⟩ := hsaves.exists_path
        obtain ⟨path', hpath', hplace', -⟩ :=
          (((hsame other hother).1 place bytes').mp hsaves').exists_path
        exact hapart.outputs_head hother path hpath path' hpath' (hplace.symm.trans hplace')
      rw [hstate]
      refine (hprinted.trans hrest hdisjoint).congr (fun place bytes => ?_) fun place => ?_
      · exact exists_mem_cons_congr fun other hother => (hsame other hother).1 place bytes
      · exact exists_mem_cons_congr fun other hother => (hsame other hother).2.1 place

/-- Files that are checked are valid just if each is accepted, and nothing is changed. -/
theorem forFiles_checkFile_spec (verbose : Bool) (files : List String) : ∀ d : Directory,
    ∃ r lines, forFiles console (checkFile console verbose) files d =
      (r, { d with lines := lines }) ∧
      (r = true ↔ ∀ file ∈ files, ∃ m functions, d.Accepts file m functions) := by
  induction files with
  | nil => exact fun d => ⟨true, d.lines, rfl, iff_of_true rfl nofun⟩
  | cons file rest ih =>
    intro d
    obtain ⟨lines, after, hafter, hgood, hstate⟩ :=
      forFiles_cons (checkFile console verbose) file rest d
    obtain ⟨r, printed, hr, haccepts⟩ := checkFile_spec verbose file d
    obtain ⟨others, printed', hothers, hrest⟩ := ih after
    rw [hr] at hafter hgood
    rw [hothers] at hgood hstate
    cases hall : forFiles console (checkFile console verbose) (file :: rest) d with
    | mk good final =>
      rw [hall] at hgood hstate
      have hfinal : final = { d with lines := printed' } := by
        rw [hafter] at hstate
        exact hstate
      refine ⟨good, printed', by rw [hfinal], hgood.trans ?_⟩
      rw [haccepts, hrest, List.forall_mem_cons, hafter]
      simp only [accepts_lines]

end Directory

/-! ### Commands -/

/-- Arguments that ask for a command on some files. -/
structure Requests (args : List String) (command : String) (files : List String)
    (s : Settings) : Prop where
  settings : Settings.ofArguments args = .ok s
  noHelp : s.help = false
  positionals : s.positionals = command :: files

/-- Settings that are valid for a transpilation, with what they choose. -/
structure Settings.Chooses (s : Settings) (choices : Choices) : Prop where
  format : Script.Format.ofName? s.format = some choices.script.format
  pages : pages s = .ok choices.script.maxPages
  runtime : choices.script.runtimeSpecifier = s.runtime
  output : choices.output = s.output
  declarations : choices.declarations = !s.noDeclarations
  verbose : choices.verbose = s.verbose

section

variable {args files : List String} {s : Settings} {choices : Choices} {m : Type → Type} [Monad m]

theorem Requests.run_transpile (h : Requests args "transpile" files s)
    (hchoices : s.Chooses choices) (c : Console m) :
    run c args = transpileCommand c choices files := by
  obtain ⟨output, ⟨format, maxPages, runtime⟩, declarations, verbose⟩ := choices
  obtain ⟨hformat, hpages, rfl, rfl, rfl, rfl⟩ := hchoices
  rw [run, h.settings]
  simp only [h.noHelp, Bool.false_eq_true, if_false, h.positionals, runTranspile, hformat, hpages]

theorem Requests.run_check (h : Requests args "check" files s) (c : Console m) :
    run c args = checkCommand c s.verbose files := by
  rw [run, h.settings]
  simp only [h.noHelp, Bool.false_eq_true, if_false, h.positionals]

theorem pagesOf?_le {text : String} {n : Nat} (h : pagesOf? text = some n) :
    n ≤ LinearMemory.maxPages := by
  unfold pagesOf? at h
  split at h
  · dsimp only at h
    split at h
    · next hle =>
      rw [← Option.some.inj h]
      exact hle
    · cases h
  · cases h

theorem Settings.Chooses.pages_le (h : s.Chooses choices) :
    choices.script.maxPages ≤ LinearMemory.maxPages := by
  have hpages := h.pages
  unfold CommandLine.pages at hpages
  split at hpages
  · rw [← Except.ok.inj hpages]
    decide
  · split at hpages
    · next hfound =>
      rw [← Except.ok.inj hpages]
      exact pagesOf?_le hfound
    · cases hpages

theorem outputs_sublist (output : Option String) (files : List String) :
    (files.map fun file => outputPath file output).Sublist
    (files.flatMap (outputPaths output)) := by
  induction files with
  | nil => exact .slnil
  | cons file files ih =>
    have hfile : [outputPath file output].Sublist (outputPaths output file) :=
      (List.nil_sublist _).cons_cons _
    exact hfile.append ih

theorem exitCode_eq_zero_iff (good : Bool) : exitCode good = 0 ↔ good = true := by
  cases good <;> decide

end

/-! ### Files that are independent -/

/-- What becomes of files that are transpiled: what each saves is there, and all else is as it
was. -/
structure Transpiled (d : Directory) (choices : Choices) (files : List String)
    (r : Nat × Directory) : Prop where
  exists_generate : ∀ file ∈ files, ∀ m functions, d.Accepts file m functions →
    ∃ code, generate m functions choices.script = .ok code
  saved : ∀ file ∈ files, ∀ place bytes, d.Saves choices file place bytes →
    r.2.content? place = some bytes
  unsaved : ∀ file ∈ files, ∀ path ∈ outputPaths choices.output file,
    (∀ bytes, ¬ d.Saves choices file (d.locate path) bytes) →
      r.2.content? (d.locate path) = d.content? (d.locate path)
  kept : ∀ place, place ∉ (files.flatMap (outputPaths choices.output)).map d.locate →
    r.2.content? place = d.content? place
  exitCode : r.1 = 0 ↔ ∀ file ∈ files, d.Succeeds choices file

/-- What becomes of files that are checked: nothing. -/
structure AllChecked (d : Directory) (files : List String) (r : Nat × Directory) : Prop where
  sameFiles : r.2.files = d.files
  sameDirectories : r.2.directories = d.directories
  exitCode : r.1 = 0 ↔ ∀ file ∈ files, ∃ m functions, d.Accepts file m functions

/-- **What becomes of a file depends on that file alone**, whatever the others are. -/
theorem files_independent {d : Directory} (hd : d.WellFormed) {args args' files : List String}
    {s s' : Settings} {choices : Choices} (h : Requests args "transpile" files s)
    (hchoices : s.Chooses choices) (h' : Requests args' "check" files s') (hne : files ≠ [])
    (hapart : d.Apart choices.output files) :
    let r := run Directory.console args d
    let r' := run Directory.console args' d
    Transpiled d choices files r ∧ AllChecked d files r' ∧
      ((∀ file ∈ files, d.HasRoom (outputPath file choices.output) ∧
        (choices.declarations = true →
            d.HasRoom (declarationPath (outputPath file choices.output)))) →
          (r.1 = 0 ↔ r'.1 = 0)) := by
  intro r r'
  have hpaths : ¬ SamePath choices.output files :=
    not_not.mpr
      ((List.Nodup.of_map _ hapart.outputs).sublist (outputs_sublist choices.output files))
  obtain ⟨hgood, hchanged⟩ := Directory.forFiles_spec hchoices.pages_le files hd hapart
  obtain ⟨good, lines, hcheck, haccepts⟩ := Directory.forFiles_checkFile_spec s'.verbose files d
  have hr : r = Prod.map exitCode id
      (forFiles Directory.console (transpileFile Directory.console choices) files d) := by
    have hcommand := transpileCommand_of_not_samePath Directory.console choices hpaths hne
    exact congrFun ((h.run_transpile hchoices Directory.console).trans hcommand) d
  have hr' : r' = (exitCode good, { d with lines := lines }) := by
    have hcommand : checkCommand Directory.console s'.verbose files =
        exitCode <$> forFiles Directory.console (checkFile Directory.console s'.verbose) files :=
      if_neg (mt List.isEmpty_iff.mp hne)
    have hrun := congrFun ((h'.run_check Directory.console).trans hcommand) d
    exact hrun.trans (congrArg (Prod.map exitCode id) hcheck)
  have htranspiled : Transpiled d choices files r := by
    rw [hr]
    refine ⟨fun file _ m functions haccepts => haccepts.exists_generate hchoices.pages_le, ?_,
      ?_, ?_, ?_⟩
    · exact fun file hfile place bytes hsaves => hchanged.saved place bytes ⟨file, hfile, hsaves⟩
    · intro file hfile path hpath hnone
      -- Another file that saves there has this place as well, and is this one as the places are
      -- apart.
      refine hchanged.kept _ fun bytes ⟨other, hother, hsaves⟩ => ?_
      obtain ⟨path', hpath', hplace, -⟩ := hsaves.exists_path
      rw [← hapart.file_eq hfile hother hpath hpath' hplace] at hsaves
      exact hnone bytes hsaves
    · refine fun place hplace => hchanged.kept place fun bytes ⟨file, hfile, hsaves⟩ => hplace ?_
      obtain ⟨path, hpath, hlocate, -⟩ := hsaves.exists_path
      exact List.mem_map.mpr ⟨path, List.mem_flatMap.mpr ⟨file, hfile, hpath⟩, hlocate.symm⟩
    · exact (exitCode_eq_zero_iff _).trans hgood
  have hchecked : AllChecked d files r' := by
    rw [hr']
    exact ⟨rfl, rfl, (exitCode_eq_zero_iff good).trans haccepts⟩
  refine ⟨htranspiled, hchecked, fun hroom => ?_⟩
  rw [htranspiled.exitCode, hchecked.exitCode]
  refine forall₂_congr fun file hfile => ?_
  exact Directory.succeeds_iff.trans (and_iff_left (hroom file hfile))

namespace Directory

def emptyBytes : ByteArray := ⟨#[0, 97, 115, 109, 1, 0, 0, 0]⟩

theorem accepts_emptyBytes {d : Directory} (h : d.WellFormed) {file : String}
    (hzero : '\x00' ∉ (Path.resolve d.cwd file).toList)
    (hshort : (Units.toUTF8 file).size ≤ maxPathBytes) (hnames : ShortNames (d.locate file))
    (hfile : d.content? (d.locate file) = some emptyBytes) :
    d.Accepts file {} [] := by
  have hdecode : Module.decode emptyBytes = .ok {} := by
    have hfound : (Module.decode emptyBytes).toOption = some {} := by decide +kernel
    cases hdecode : Module.decode emptyBytes with
    | error e =>
      rw [hdecode] at hfound
      cases hfound
    | ok m =>
      rw [hdecode] at hfound
      rw [Option.some.inj hfound]
  refine ⟨emptyBytes, h.readFile_eq_ok_iff.mpr ⟨hzero, hshort, hnames, hfile⟩, ?_⟩
  rw [Analysis.ofBytes, hdecode]
  rfl

end Directory

/-- Of two files the first is transpiled, although the second is no module. -/
theorem files_independent_pair :
    let root : Directory := { cwd := "/work" }
    let d := (root.addFile "a.wasm" Directory.emptyBytes).addFile "b.wasm" ⟨#[]⟩
    let files := ["a.wasm", "b.wasm"]
    let r := run Directory.console ("transpile" :: "--" :: files) d
    let r' := run Directory.console ("check" :: "--" :: files) d
    d.WellFormed ∧ d.Apart none files ∧ d.Accepts "a.wasm" {} [] ∧
      r.2.content? ["work", "a.d.ts"] = some (Units.toUTF8 (declare {} {})) ∧
      r.2.content? ["work", "b.js"] = none ∧ r.1 ≠ 0 ∧ r'.1 ≠ 0 := by
  intro root d files r r'
  have hfirst : (root.addFile "a.wasm" Directory.emptyBytes).WellFormed :=
    (Directory.wellFormed_of_cwd (by decide)).addFile _ (by decide +kernel) (by decide +kernel)
  have hd : d.WellFormed := hfirst.addFile _ (by decide +kernel) (by decide +kernel)
  have hapart : d.Apart none files := ⟨by decide +kernel, by decide +kernel⟩
  have haccepts : d.Accepts "a.wasm" {} [] :=
    Directory.accepts_emptyBytes hd (by decide +kernel) (by decide +kernel) (by decide +kernel)
      (by decide +kernel)
  have hscript : d.HasRoom (outputPath "a.wasm" none) := by decide +kernel
  have hdeclarations : d.HasRoom (declarationPath (outputPath "a.wasm" none)) := by decide +kernel
  have hrequests :
      Requests ("transpile" :: "--" :: files) "transpile" files
        { positionals := "transpile" :: files } :=
    ⟨(asks_of_files files).settings, rfl, rfl⟩
  have hrequests' :
      Requests ("check" :: "--" :: files) "check" files { positionals := "check" :: files } :=
    ⟨by cbv, rfl, rfl⟩
  have hchoices :
      Settings.Chooses { positionals := "transpile" :: files } ⟨none, {}, true, false⟩ :=
    ⟨rfl, rfl, rfl, rfl, rfl, rfl⟩
  -- The second file has no bytes, and so no header.
  have hrejects : ¬ ∃ m functions, d.Accepts "b.wasm" m functions := by
    rintro ⟨m, functions, bytes, hread, hanalysis⟩
    obtain ⟨-, -, -, hfile⟩ := hd.readFile_eq_ok_iff.mp hread
    have hempty : d.content? (d.locate "b.wasm") = some ⟨#[]⟩ := by decide +kernel
    have hnone : (Module.decode ⟨#[]⟩).toOption = none := by decide +kernel
    rw [← Option.some.inj (hempty.symm.trans hfile)] at hanalysis
    rw [(Analysis.built_of_ofBytes hanalysis rfl).1] at hnone
    cases hnone
  obtain ⟨htranspiled, hchecked, -⟩ :=
    files_independent hd hrequests hchoices hrequests' (List.cons_ne_nil _ _) hapart
  have hmem : "b.wasm" ∈ files := List.mem_cons_of_mem _ List.mem_cons_self
  refine ⟨hd, hapart, haccepts, ?_, ?_, fun hcode => ?_, fun hcode => ?_⟩
  · obtain ⟨code, hcode⟩ := htranspiled.exists_generate "a.wasm" List.mem_cons_self {} [] haccepts
    refine htranspiled.saved "a.wasm" List.mem_cons_self _ _ ⟨{}, [], code, haccepts, hcode, ?_⟩
    exact Directory.outputs_iff.mpr ⟨hscript, Or.inr ⟨rfl, hdeclarations, by decide +kernel, rfl⟩⟩
  · have hplace : d.locate (outputPath "b.wasm" none) = ["work", "b.js"] := by decide +kernel
    rw [← hplace, htranspiled.unsaved "b.wasm" hmem _ List.mem_cons_self ?_]
    · decide +kernel
    · rintro bytes ⟨m, functions, code, haccepts', -⟩
      exact hrejects ⟨m, functions, haccepts'⟩
  · exact hrejects (htranspiled.exitCode.mp hcode "b.wasm" hmem).accepted
  · exact hrejects (hchecked.exitCode.mp hcode "b.wasm" hmem)

/-- Outputs are not written where there is no room for them, and a command without files is
refused. -/
theorem files_refused :
    let root : Directory := { cwd := "/work" }
    let d := (root.addFile "add.wasm" Directory.emptyBytes).addFile "out" ⟨#[]⟩
    let r := run Directory.console ["transpile", "add.wasm", "-o", "out"] d
    let r' := run Directory.console ["check", "add.wasm"] d
    d.WellFormed ∧ d.Apart (some "out") ["add.wasm"] ∧ d.Accepts "add.wasm" {} [] ∧
      r.2.content? (d.locate (outputPath "add.wasm" (some "out"))) = none ∧ r.1 = 1 ∧ r'.1 = 0 ∧
      (run Directory.console ["transpile"] d).1 = 1 := by
  intro root d r r'
  have hfirst : (root.addFile "add.wasm" Directory.emptyBytes).WellFormed :=
    (Directory.wellFormed_of_cwd (by decide)).addFile _ (by decide +kernel) (by decide +kernel)
  have hd : d.WellFormed := hfirst.addFile _ (by decide +kernel) (by decide +kernel)
  have haccepts : d.Accepts "add.wasm" {} [] :=
    Directory.accepts_emptyBytes hd (by decide +kernel) (by decide +kernel) (by decide +kernel)
      (by decide +kernel)
  have hr :
      r = transpileCommand Directory.console ⟨some "out", {}, true, false⟩ ["add.wasm"] d := by
    have hsettings : Settings.ofArguments ["transpile", "add.wasm", "-o", "out"] =
        .ok { output := some "out", positionals := ["transpile", "add.wasm"] } := by cbv
    have hrequests : Requests ["transpile", "add.wasm", "-o", "out"] "transpile" ["add.wasm"]
        { output := some "out", positionals := ["transpile", "add.wasm"] } := ⟨hsettings, rfl, rfl⟩
    exact congrFun (hrequests.run_transpile ⟨rfl, rfl, rfl, rfl, rfl, rfl⟩ Directory.console) d
  have hr' : r' = checkCommand Directory.console false ["add.wasm"] d := by
    have hrequests :
        Requests ["check", "add.wasm"] "check" ["add.wasm"]
          { positionals := ["check", "add.wasm"] } :=
      ⟨by cbv, rfl, rfl⟩
    exact congrFun (hrequests.run_check Directory.console) d
  have hnone : run Directory.console ["transpile"] d =
      transpileCommand Directory.console ⟨none, {}, true, false⟩ [] d := by
    have hrequests : Requests ["transpile"] "transpile" [] { positionals := ["transpile"] } :=
      ⟨by cbv, rfl, rfl⟩
    exact congrFun (hrequests.run_transpile ⟨rfl, rfl, rfl, rfl, rfl, rfl⟩ Directory.console) d
  rw [hr, hr', hnone]
  exact ⟨hd, ⟨by decide +kernel, by decide +kernel⟩, haccepts, by decide +kernel, by decide +kernel,
    by decide +kernel, by decide +kernel⟩

end WasmScript.CommandLine
