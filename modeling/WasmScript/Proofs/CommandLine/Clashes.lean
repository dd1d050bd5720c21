/-
  WasmScript/Proofs/CommandLine/Clashes.lean
  ==========================================
  **Inputs with one output** — when no output is written over another.

  A console that is traced remembers what a command did with it.  Files that are handled are
  each read, and what is written for one of them goes to its script or to its declarations
  (`Handled`).  Inputs with one path for their outputs are refused before anything is read,
  but whether outputs go to one place is not asked: a path may be written in many ways.  So a
  command refuses all inputs that clash, and writes each place once, just if outputs of one
  place have one path as well.
-/
import Mathlib
import WasmScript.Proofs.CommandLine.Outputs

namespace WasmScript.CommandLine

variable {σ α β : Type}

/-! ### What a command does -/

/-- What is done with a console. -/
inductive Event where
  | log (line : String)
  | error (line : String)
  | read (path : String)
  | makeDirectory (path : String)
  | write (path text : String)
  | elapsed
deriving DecidableEq

def Event.path? : Event → Option String
  | .write path _ => some path
  | _ => none

/-- The paths that were written, in order. -/
def writtenPaths (es : List Event) : List String := es.filterMap Event.path?

/-- Actions that remember what was done. -/
abbrev Traced (σ : Type) := StateM (σ × List Event)

/-- Does something that is remembered. -/
def Traced.record (e : Event) (act : StateM σ α) : Traced σ α := fun s =>
  let r := act s.1
  (r.1, r.2, s.2 ++ [e])

/-- A console that remembers what was done with it. -/
def Console.traced (c : Console (StateM σ)) : Console (Traced σ) :=
  { log := fun line => .record (.log line) (c.log line)
    error := fun line => .record (.error line) (c.error line)
    readFile := fun path => .record (.read path) (c.readFile path)
    makeDirectory := fun path => .record (.makeDirectory path) (c.makeDirectory path)
    writeFile := fun path text => .record (.write path text) (c.writeFile path text)
    elapsed := .record .elapsed c.elapsed }

/-- Each of some inputs was read, and some outputs at most were written, in order. -/
structure Handled (inputs outputs : List String) (es : List Event) : Prop where
  reads : ∀ file ∈ inputs, Event.read file ∈ es
  writes : (writtenPaths es).Sublist outputs

theorem Handled.append {inputs inputs' outputs outputs' : List String} {es es' : List Event}
    (h : Handled inputs outputs es) (h' : Handled inputs' outputs' es') :
    Handled (inputs ++ inputs') (outputs ++ outputs') (es ++ es') := by
  constructor
  · intro file hfile
    rcases List.mem_append.mp hfile with hfile | hfile
    · exact List.mem_append_left _ (h.reads file hfile)
    · exact List.mem_append_right _ (h'.reads file hfile)
  · rw [writtenPaths, List.filterMap_append]
    exact h.writes.append h'.writes

/-- Nothing is handled where nothing is written. -/
theorem Handled.of_unwritten {e : Event} (he : e.path? = none) : Handled [] [] [e] := by
  refine ⟨nofun, ?_⟩
  rw [writtenPaths, List.filterMap_cons_none he]
  exact .slnil

/-- An action adds to what was done that inputs are handled. -/
def Handles (inputs outputs : List String) (act : Traced σ α) : Prop :=
  ∀ s, ∃ es, (act s).2.2 = s.2 ++ es ∧ Handled inputs outputs es

namespace Handles

variable {inputs inputs' outputs outputs' : List String}

theorem pure (a : α) : Handles [] [] (Pure.pure a : Traced σ α) := by
  intro s
  refine ⟨[], (List.append_nil _).symm, ⟨nofun, .slnil⟩⟩

theorem record {e : Event} (he : Handled inputs outputs [e]) (act : StateM σ α) :
    Handles inputs outputs (Traced.record e act) :=
  fun _ => ⟨[e], rfl, he⟩

theorem bind {act : Traced σ α} {next : α → Traced σ β} (h : Handles inputs outputs act)
    (hnext : ∀ a, Handles inputs' outputs' (next a)) :
    Handles (inputs ++ inputs') (outputs ++ outputs') (act >>= next) := by
  intro s
  obtain ⟨es, hes, hhandled⟩ := h s
  obtain ⟨es', hes', hhandled'⟩ := hnext (act s).1 (act s).2
  refine ⟨es ++ es', ?_, hhandled.append hhandled'⟩
  change (next (act s).1 (act s).2).2.2 = _
  rw [hes', hes, List.append_assoc]

theorem of_nothing {act : Traced σ α} (h : Handles [] [] act) (outputs : List String) :
    Handles [] outputs act := by
  intro s
  obtain ⟨es, hes, hhandled⟩ := h s
  exact ⟨es, hes, hhandled.reads, hhandled.writes.trans (List.nil_sublist _)⟩

theorem map {act : Traced σ α} (h : Handles inputs outputs act) (f : α → β) :
    Handles inputs outputs (f <$> act) := h

/-- Something quiet is done. -/
theorem quiet {e : Event} (he : e.path? = none) (act : StateM σ α) :
    Handles [] [] (Traced.record e act) :=
  record (.of_unwritten he) act

/-- The first of some steps, which may be the last one because it fails. -/
theorem steps {act : Steps (Traced σ) α} {next : α → Steps (Traced σ) β}
    (h : Handles inputs outputs act.run) (hnext : ∀ a, Handles [] outputs' (next a).run) :
    Handles inputs (outputs ++ outputs') (act >>= next).run := by
  rw [ExceptT.run_bind, ← List.append_nil inputs]
  refine h.bind fun r => ?_
  cases r with
  | ok a => exact hnext a
  | error message => exact (pure _).of_nothing outputs'

/-- A first step that writes nothing. -/
theorem steps_unwritten {act : Steps (Traced σ) α} {next : α → Steps (Traced σ) β}
    (h : Handles inputs [] act.run) (hnext : ∀ a, Handles [] outputs (next a).run) :
    Handles inputs outputs (act >>= next).run :=
  steps h hnext

/-- A first step that writes one output. -/
theorem steps_written {path : String} {act : Steps (Traced σ) α} {next : α → Steps (Traced σ) β}
    (h : Handles inputs [path] act.run) (hnext : ∀ a, Handles [] outputs (next a).run) :
    Handles inputs (path :: outputs) (act >>= next).run :=
  steps h hnext

end Handles

/-! ### Handling files -/

variable (c : Console (StateM σ))

/-- What is made of an analysis: its findings are shown, if there are any. -/
def reported (c : Console (StateM σ)) (file : String) (analysis : Analysis) :
    Steps (Traced σ) (Option (Module × List IR.Function)) :=
  match analysis.module, analysis.diagnostics with
  | some module, [] => pure (some (module, analysis.functions))
  | _, diagnostics => do
    ExceptT.lift (c.traced.error (Diagnostic.textAll (some file) diagnostics))
    pure none

theorem handles_reported (file : String) (analysis : Analysis) :
    Handles [] [] (reported c file analysis).run := by
  unfold reported
  split
  · exact .pure _
  · exact Handles.steps_unwritten ((Handles.quiet rfl _).map _) fun _ => .pure _

/-- A file is read before anything else is done with it. -/
theorem handles_analyzeFile (file : String) (verbose : Bool) :
    Handles [file] [] (analyzeFile c.traced file verbose).run := by
  have hread : Handled [file] [] [Event.read file] := ⟨by simp, .slnil⟩
  unfold analyzeFile
  refine Handles.steps_unwritten (.record hread _) fun bytes => ?_
  refine Handles.steps_unwritten (.pure _) fun analysis => ?_
  cases verbose with
  | false => exact handles_reported c file analysis
  | true =>
    refine Handles.steps_unwritten ((Handles.quiet rfl _).map _) fun time => ?_
    exact Handles.steps_unwritten ((Handles.quiet rfl _).map _) fun _ =>
      handles_reported c file analysis

def outputPaths (output : Option String) (file : String) : List String :=
  [outputPath file output, declarationPath (outputPath file output)]

/-- A file that is transpiled is read, and its outputs alone are written. -/
theorem handles_transpileFile (choices : Choices) (file : String) :
    Handles [file] (outputPaths choices.output file) (transpileFile c.traced choices file).run := by
  have hwrite (path text : String) : Handled [] [path] [Event.write path text] := ⟨nofun, .refl _⟩
  unfold transpileFile
  refine Handles.steps_unwritten (handles_analyzeFile c file choices.verbose) fun analyzed => ?_
  -- A file with findings has been reported by now, and nothing is written for it.
  cases analyzed with
  | none => exact (Handles.pure _).of_nothing _
  | some analyzed =>
    refine Handles.steps_unwritten (.pure _) fun code => ?_
    have hsave : Handles (σ := σ) [] (outputPaths choices.output file) (do
        ExceptT.mk (c.traced.makeDirectory (Path.dirname (outputPath file choices.output)))
        ExceptT.mk (c.traced.writeFile (outputPath file choices.output) code)
        if choices.declarations then
          ExceptT.mk (c.traced.writeFile (declarationPath (outputPath file choices.output))
            (declare analyzed.1 choices.script))
        ExceptT.lift
          (c.traced.log ("Transpiled " ++ file ++ " -> " ++ outputPath file choices.output))
        pure true : Steps (Traced σ) Bool).run := by
      refine Handles.steps_unwritten (.quiet rfl _) fun _ => ?_
      refine Handles.steps_written (.record (hwrite _ _) _) fun _ => ?_
      have hlog : Handles (σ := σ) [] [] (do
          ExceptT.lift
            (c.traced.log ("Transpiled " ++ file ++ " -> " ++ outputPath file choices.output))
          pure true : Steps (Traced σ) Bool).run :=
        Handles.steps_unwritten ((Handles.quiet rfl _).map _) fun _ => .pure _
      cases choices.declarations with
      | false => exact hlog.of_nothing _
      | true => exact Handles.steps_written (.record (hwrite _ _) _) fun _ => hlog
    -- Showing the time only adds a line.
    cases choices.verbose with
    | false => exact hsave
    | true =>
      refine Handles.steps_unwritten ((Handles.quiet rfl _).map _) fun time => ?_
      exact Handles.steps_unwritten ((Handles.quiet rfl _).map _) fun _ => hsave

/-- Files are handled one after another, whatever becomes of each. -/
theorem handles_forFiles (choices : Choices) (files : List String) :
    Handles files (files.flatMap (outputPaths choices.output))
      (forFiles c.traced (transpileFile c.traced choices) files) := by
  induction files with
  | nil => exact .pure _
  | cons file files ih =>
    have hrest (good : Bool) : Handles files (files.flatMap (outputPaths choices.output)) (do
        let others ← forFiles c.traced (transpileFile c.traced choices) files
        pure (good && others)) := by
      have hothers := ih.bind fun others => .pure (good && others)
      rwa [List.append_nil, List.append_nil] at hothers
    refine (handles_transpileFile c choices file).bind fun r => ?_
    cases r with
    | ok good => exact (Handles.pure good).bind hrest
    | error message => exact (Handles.quiet rfl _).bind fun _ => (Handles.pure false).bind hrest

/-! ### Inputs with one output -/

/-- Two of some inputs would be written to one path. -/
def SamePath (output : Option String) (files : List String) : Prop :=
  ¬ (files.map fun file => outputPath file output).Nodup

/-- Two of some inputs would be written to one place, as their paths are seen from a directory. -/
def SamePlace (d : Directory) (output : Option String) (files : List String) : Prop :=
  ¬ (files.map fun file => d.locate (outputPath file output)).Nodup

/-- What can be said about inputs with one output. -/
inductive ClashReport (output : Option String) (files : List String) : String → Prop where
  | oneFile : ClashReport output files "--output names a file but several inputs were given"
  | samePath {previous file : String} : [previous, file].Sublist files →
      outputPath previous output = outputPath file output →
      ClashReport output files
        (previous ++ " and " ++ file ++ " would both be written to " ++ outputPath file output)

section

variable {output : Option String}

/-- Two inputs are found only if their outputs have one path. -/
theorem clash?_eq_some {previous file path : String} {files : List String} :
    ∀ {seen : List (String × String)}, (∀ e ∈ seen, e.1 = outputPath e.2 output) →
      clash? output seen files = some (previous, file, path) →
      [previous, file].Sublist ((seen.map Prod.snd).reverse ++ files) ∧
        outputPath previous output = outputPath file output ∧ path = outputPath file output := by
  -- The induction is on the files, and what has been seen are the outputs of those before them.
  induction files with
  | nil => exact fun _ h => by cases h
  | cons next files ih =>
    intro seen hseen h
    rw [clash?] at h
    cases hlookup : seen.lookup (outputPath next output) with
    | some earlier =>
      rw [hlookup] at h
      cases h
      obtain ⟨before, after, hsplit, -⟩ := List.lookup_eq_some_iff.mp hlookup
      have hmem : (outputPath file output, previous) ∈ seen := by
        rw [hsplit]
        exact List.mem_append_right _ List.mem_cons_self
      have hprevious : [previous].Sublist (seen.map Prod.snd).reverse :=
        List.singleton_sublist.mpr (List.mem_reverse.mpr (List.mem_map.mpr ⟨_, hmem, rfl⟩))
      exact ⟨hprevious.append ((List.nil_sublist files).cons_cons file), (hseen _ hmem).symm, rfl⟩
    | none =>
      rw [hlookup] at h
      have hmore := ih (List.forall_mem_cons.mpr ⟨rfl, hseen⟩) h
      rwa [List.map_cons, List.reverse_cons, List.append_assoc] at hmore

theorem lookup_eq_none_iff {seen : List (String × String)} {path : String} :
    seen.lookup path = none ↔ path ∉ seen.map Prod.fst := by
  rw [List.lookup_eq_none_iff, List.mem_map]
  simp only [bne_iff_ne, not_exists, not_and]
  exact forall₂_congr fun _ _ => ne_comm

/-- No two inputs are found just if all outputs have paths of their own. -/
theorem clash?_eq_none_iff {files : List String} : ∀ {seen : List (String × String)},
    clash? output seen files = none ↔
      (files.map fun file => outputPath file output).Nodup ∧
        ∀ file ∈ files, outputPath file output ∉ seen.map Prod.fst := by
  induction files with
  | nil => exact fun {_} => iff_of_true rfl ⟨.nil, nofun⟩
  | cons next files ih =>
    intro seen
    have hstep : clash? output seen (next :: files) = none ↔
        seen.lookup (outputPath next output) = none ∧
          clash? output ((outputPath next output, next) :: seen) files = none := by
      rw [clash?]
      cases seen.lookup (outputPath next output) with
      | some earlier => exact iff_of_false nofun nofun
      | none => exact (and_iff_right rfl).symm
    rw [hstep, lookup_eq_none_iff, ih, List.map_cons, List.map_cons, List.nodup_cons,
      List.forall_mem_cons]
    simp only [List.mem_cons, not_or, List.mem_map, not_exists, not_and]
    constructor
    · rintro ⟨hnew, hnodup, hothers⟩
      exact ⟨⟨fun file hfile => (hothers file hfile).1, hnodup⟩, hnew, fun file hfile =>
        (hothers file hfile).2⟩
    · rintro ⟨⟨hnext, hnodup⟩, hnew, hothers⟩
      exact ⟨hnew, hnodup, fun file hfile => ⟨hnext file hfile, hothers file hfile⟩⟩

end

/-! ### Refusing inputs -/

/-- Inputs whose outputs have one path are refused, whatever the console is. -/
theorem transpileCommand_of_samePath {m : Type → Type} [Monad m] (c : Console m) (choices : Choices)
    {files : List String} (h : SamePath choices.output files) :
    ∃ message, ClashReport choices.output files message ∧
      transpileCommand c choices files = complain c message := by
  have hne : files.isEmpty = false := by
    cases files with
    | nil => exact absurd .nil h
    | cons file files => rfl
  unfold transpileCommand
  rw [hne]
  simp only [Bool.false_eq_true, if_false]
  by_cases hfile : (choices.output.any isScriptPath && decide (1 < files.length)) = true
  · rw [if_pos hfile]
    exact ⟨_, .oneFile, rfl⟩
  · rw [if_neg hfile]
    cases hclash : clash? choices.output [] files with
    | none => exact absurd (clash?_eq_none_iff.mp hclash).1 h
    | some found =>
      obtain ⟨previous, file, path⟩ := found
      obtain ⟨hsublist, hsame, rfl⟩ :=
        clash?_eq_some (fun _ hmem => absurd hmem List.not_mem_nil) hclash
      exact ⟨_, .samePath hsublist hsame, rfl⟩

/-- Several inputs have one path for their outputs if that is given as the path of a script. -/
theorem samePath_of_isScriptPath {output : Option String} {files : List String}
    (h : (output.any isScriptPath && decide (1 < files.length)) = true) :
    SamePath output files := by
  obtain ⟨houtput, hlength⟩ := Bool.and_eq_true_iff.mp h
  obtain ⟨path, rfl, hpath⟩ := (Option.any_eq_true _ _).mp houtput
  have hsame (file : String) : outputPath file (some path) = path := if_pos hpath
  match files, hlength with
  | first :: second :: files, _ =>
    intro hnodup
    refine (List.nodup_cons.mp hnodup).1 (List.mem_map.mpr ⟨second, List.mem_cons_self, ?_⟩)
    exact (hsame second).trans (hsame first).symm

/-- Some inputs whose outputs have paths of their own are handled, whatever the console is. -/
theorem transpileCommand_of_not_samePath {m : Type → Type} [Monad m] (c : Console m)
    (choices : Choices) {files : List String} (h : ¬ SamePath choices.output files)
    (hne : files ≠ []) :
    transpileCommand c choices files = exitCode <$> forFiles c (transpileFile c choices) files := by
  have hclash : clash? choices.output [] files = none :=
    clash?_eq_none_iff.mpr ⟨not_not.mp h, fun _ _ => List.not_mem_nil⟩
  have hfile : (choices.output.any isScriptPath && decide (1 < files.length)) = false :=
    Bool.eq_false_iff.mpr (mt samePath_of_isScriptPath h)
  unfold transpileCommand
  rw [List.isEmpty_eq_false_iff.mpr hne, hfile, hclash]
  simp only [Bool.false_eq_true, if_false]

/-- Outputs have places of their own if the scripts among them have. -/
theorem nodup_places (d : Directory) {output : Option String} {files : List String}
    (h : ¬ SamePlace d output files) :
    ((files.flatMap (outputPaths output)).map d.locate).Nodup := by
  have hscript (file : String) := isScriptPath_outputPath file output
  have hmap (file : String) : (outputPaths output file).map d.locate =
      [d.locate (outputPath file output), d.locate (declarationPath (outputPath file output))] :=
        rfl
  have hplaces : files.Pairwise fun a b => d.locate (outputPath a output) ≠
      d.locate (outputPath b output) :=
    List.pairwise_map.mp (not_not.mp h)
  rw [List.map_flatMap, List.nodup_flatMap]
  simp only [hmap]
  refine ⟨fun file _ => ?_, hplaces.imp fun {a b} hab => ?_⟩
  · refine List.nodup_cons.mpr ⟨fun hmem => ?_, List.nodup_singleton _⟩
    exact locate_ne_declarationPath d (hscript file) (hscript file) (List.mem_singleton.mp hmem)
  · simp only [Function.onFun, List.disjoint_left, List.mem_pair]
    rintro place (hplace | hplace) (hplace' | hplace')
    · exact hab (hplace.symm.trans hplace')
    · exact locate_ne_declarationPath d (hscript a) (hscript b) (hplace.symm.trans hplace')
    · exact locate_ne_declarationPath d (hscript b) (hscript a) (hplace'.symm.trans hplace)
    · exact hab (locate_eq_of_declarationPath d (hscript a) (hscript b) (hplace.symm.trans hplace'))

/-! ### Arguments -/

/-- Arguments that ask for files to be transpiled, with an output or without. -/
structure Asks (args : List String) (output : Option String) (files : List String)
    (s : Settings) : Prop where
  settings : Settings.ofArguments args = .ok s
  noHelp : s.help = false
  output : s.output = output
  positionals : s.positionals = "transpile" :: files
  knownFormat : ∃ format, Script.Format.ofName? s.format = some format
  knownPages : ∃ n, pages s = .ok n

/-- Positional arguments are taken as they are. -/
theorem takeAll_positional (s : Settings) (files : List String) :
    s.takeAll (files.map .positional) = .ok { s with positionals := s.positionals ++ files } := by
  induction files generalizing s with
  | nil => rw [List.append_nil]; rfl
  | cons file files ih =>
    change Settings.takeAll { s with positionals := s.positionals ++ [file] }
      (files.map .positional) = _
    rw [ih]
    simp only [List.append_assoc, List.singleton_append]

theorem tokens_transpile (args : List String) :
    tokens [] ("transpile" :: args) = .positional "transpile" :: tokens [] args := by
  have hshape : shapeOf (Units.singles "transpile") = .plain := by decide
  rw [tokens, hshape]

theorem tokens_rest (files : List String) : tokens [] ("--" :: files) = files.map .positional := by
  have hshape : shapeOf (Units.singles "--") = .terminator := by decide
  rw [tokens, hshape]

theorem tokens_output (output : String) (args : List String) :
    tokens [] ("--output" :: output :: args) =
      .option "output" "--output" (some output) false :: tokens [] args := by
  have hshape : shapeOf (Units.singles "--output") = .long "output" := by decide
  have htakes : nameTakesValue "output" = true := by decide
  rw [tokens, hshape]
  simp only [htakes]

/-- Any files can be asked for. -/
theorem asks_of_files (files : List String) :
    Asks ("transpile" :: "--" :: files) none files { positionals := "transpile" :: files } := by
  refine ⟨?_, rfl, rfl, rfl, ⟨.esm, rfl⟩, ⟨_, rfl⟩⟩
  rw [Settings.ofArguments, tokens_transpile, tokens_rest]
  exact takeAll_positional _ files

/-- Any files can be asked for with any output that does not look like an option. -/
theorem asks_of_output {output : String} (h : Settings.looksLikeOption output = false)
    (files : List String) :
    Asks ("transpile" :: "--output" :: output :: "--" :: files) (some output) files
      { output := some output, positionals := "transpile" :: files } := by
  refine ⟨?_, rfl, rfl, rfl, ⟨.esm, rfl⟩, ⟨_, rfl⟩⟩
  have htake :
      Settings.take { positionals := ["transpile"] }
        (.option "output" "--output" (some output) false) =
      .ok { output := some output, positionals := ["transpile"] } := by
    have hname : Setting.ofName? "output" = some .output := by decide
    simp only [Settings.take, hname, Setting.takesValue, h]
    rfl
  rw [Settings.ofArguments, tokens_transpile, tokens_output, tokens_rest]
  change (Settings.take { positionals := ["transpile"] } _ >>= _) = _
  rw [htake]
  exact takeAll_positional _ files

/-- The command that such arguments are. -/
theorem Asks.exists_choices {args files : List String} {output : Option String} {s : Settings}
    (h : Asks args output files s) : ∃ choices : Choices, choices.output = output ∧
      ∀ {m : Type → Type} [Monad m] (c : Console m),
        run c args = transpileCommand c choices files := by
  obtain ⟨hsettings, hhelp, rfl, hpositionals, ⟨format, hformat⟩, ⟨n, hn⟩⟩ := h
  refine ⟨⟨s.output, ⟨format, n, s.runtime⟩, !s.noDeclarations, s.verbose⟩, rfl, fun {m} _ c => ?_⟩
  rw [run, hsettings]
  simp only [hhelp, Bool.false_eq_true, if_false, hpositionals, runTranspile, hformat, hn]

/-! ### Outputs with one place -/

/-- Inputs are refused: the one thing that is done is to say why, and the exit code is one. -/
def Refused (output : Option String) (files : List String) (r : Nat × σ × List Event) : Prop :=
  r.1 = 1 ∧ ∃ message, ClashReport output files message ∧ r.2.2 = [.error ("Error: " ++ message)]

/-- **Inputs with one place for their outputs are refused, and no place is written twice, just if
those inputs have one path for their outputs as well.**  A path that is written in another way is
not recognised, and one output replaces the other. -/
theorem clash_refused_iff {args files : List String} {output : Option String} {settings : Settings}
    (h : Asks args output files settings) (c : Console (StateM σ)) (d : Directory) (s : σ) :
    let r := run c.traced args (s, [])
    (SamePlace d output files → Refused output files r) ∧
        ((writtenPaths r.2.2).map d.locate).Nodup ↔
      (SamePlace d output files → SamePath output files) := by
  obtain ⟨choices, rfl, hrun⟩ := h.exists_choices
  intro r
  have hr : r = transpileCommand c.traced choices files (s, []) := congrFun (hrun c.traced) (s, [])
  by_cases hpath : SamePath choices.output files
  · obtain ⟨message, hreport, hcommand⟩ := transpileCommand_of_samePath c.traced choices hpath
    have hevents :
        r = (1, (c.error ("Error: " ++ message) s).2, [.error ("Error: " ++ message)]) := by
      rw [hr, hcommand]
      rfl
    rw [hevents]
    exact iff_of_true ⟨fun _ => ⟨rfl, message, hreport, rfl⟩, .nil⟩ fun _ => hpath
  -- Without files there are no outputs, and with some the first one is read before anything is
  -- written.
  · by_cases hne : files = []
    · have hevents : r = (1, (c.error "Error: No input files specified" s).2,
          [.error "Error: No input files specified"]) := by
        rw [hr, hne]
        rfl
      have hplace : ¬ SamePlace d choices.output files := by
        rw [hne]
        exact not_not.mpr .nil
      rw [hevents]
      exact iff_of_true ⟨fun h => absurd h hplace, .nil⟩ fun h => absurd h hplace
    · have hcommand := transpileCommand_of_not_samePath c.traced choices hpath hne
      obtain ⟨es, hes, hhandled⟩ := handles_forFiles c choices files (s, [])
      have hevents : r.2.2 = es := by
        rw [hr, hcommand]
        exact hes
      rw [hevents]
      constructor
      · rintro ⟨hrefused, -⟩ hplace
        obtain ⟨-, message, -, herror⟩ := hrefused hplace
        obtain ⟨file, hfile⟩ := List.exists_mem_of_ne_nil files hne
        have hread := hhandled.reads file hfile
        rw [← hevents, herror] at hread
        cases List.mem_singleton.mp hread
      · intro hplace
        have hplaces : ¬ SamePlace d choices.output files := mt hplace hpath
        exact ⟨fun h => absurd h hplaces,
          (nodup_places d hplaces).sublist (hhandled.writes.map d.locate)⟩

/-- One file under two names is refused where these come to one path for the output. -/
theorem clash_refused_iff_dotted :
    let d : Directory := { cwd := "/work" }
    let files := ["a.wasm", "./a.wasm"]
    let settings : Settings := { positionals := "transpile" :: files }
    let args := "transpile" :: "--" :: files
    let r := run Directory.console.traced args (d, [])
    Asks args none files settings ∧ SamePlace d none files ∧ Refused none files r := by
  intro d files settings args r
  have hasks : Asks args none files settings := asks_of_files files
  have hpath : SamePath none files := by
    unfold SamePath
    decide +kernel
  have hplace : SamePlace d none files := by
    unfold SamePlace
    decide +kernel
  exact ⟨hasks, hplace,
    ((clash_refused_iff hasks Directory.console d d).mpr fun _ => hpath).1 hplace⟩

/-- Files are transpiled and nothing is refused, but two outputs are written to one place. -/
structure WrittenOver (d : Directory) (files paths : List String) : Prop where
  samePlace : SamePlace d none files
  accepted : (run Directory.console.traced ("transpile" :: files) (d, [])).1 = 0
  written : writtenPaths (run Directory.console.traced ("transpile" :: files) (d, [])).2.2 = paths
  twice : ¬ (paths.map d.locate).Nodup

theorem writtenOver_of_outcome {d : Directory} {files paths : List String}
    (hplace : SamePlace d none files)
    (hsettings : Settings.ofArguments ("transpile" :: files) =
      .ok { positionals := "transpile" :: files })
    (houtcome : let r :=
      transpileCommand Directory.console.traced ⟨none, {}, true, false⟩ files (d, [])
      (r.1, writtenPaths r.2.2) = (0, paths))
    (htwice : ¬ (paths.map d.locate).Nodup) : WrittenOver d files paths := by
  obtain ⟨hcode, hwritten⟩ := Prod.mk.inj houtcome
  have hrun : run Directory.console.traced ("transpile" :: files) =
      transpileCommand Directory.console.traced ⟨none, {}, true, false⟩ files := by
    rw [run, hsettings]
    rfl
  exact ⟨hplace, by rwa [hrun], by rwa [hrun], htwice⟩

/-- A file under a relative and an absolute name has two paths for its output and one place, and so
have two names that differ in a surrogate that stands alone: what was written for the first name is
written over. -/
theorem outputs_written_over :
    let bytes : ByteArray := ⟨#[0, 97, 115, 109, 1, 0, 0, 0]⟩
    let d : Directory := { cwd := "/work" }
    let first := String.singleton (Units.alone 0xD800)
    let second := String.singleton (Units.alone 0xD801)
    WrittenOver (d.addFile "a.wasm" bytes) ["a.wasm", "/work/a.wasm"]
      ["a.js", "a.d.ts", "/work/a.js", "/work/a.d.ts"] ∧
    WrittenOver ((d.addFile "\uFFFD.wasm" bytes).addFile "\uFFFD" bytes) [first ++ ".wasm", second]
      [first ++ ".js", first ++ ".d.ts", second ++ ".js", second ++ ".d.ts"] := by
  intro bytes d first second
  constructor
  · refine writtenOver_of_outcome ?_ (by cbv) (by decide +kernel) (by decide +kernel)
    unfold SamePlace
    decide +kernel
  · refine writtenOver_of_outcome ?_ (by cbv) (by decide +kernel) (by decide +kernel)
    unfold SamePlace
    decide +kernel

end WasmScript.CommandLine
