/-
  WasmScript/Proofs/CommandLine/Directories.lean
  ==============================================
  **Files in a directory** — when a file is read or written, and what that changes.

  In a well-formed directory there are only directories around a file.  Then it is said by the
  names and by what stands at the places around them whether a directory can be made (`CanMake`)
  and whether a file can be written into it (`HasRoom`).  Where it can, just that directory and
  that file are there afterwards; where it cannot, nothing has changed.
-/
import WasmScript.Proofs.CommandLine.Places

namespace WasmScript.CommandLine

/-! ### Tables -/

section

variable {α β : Type} [BEq α] [LawfulBEq α]

/-- What is found among the entries whose keys are kept. -/
theorem lookup_filter_keys (keep : α → Bool) (a : α) (entries : List (α × β)) :
    (entries.filter fun e => keep e.1).lookup a = if keep a then entries.lookup a else none := by
  induction entries with
  | nil => exact (ite_self none).symm
  | cons e entries ih =>
    obtain ⟨key, value⟩ := e
    rw [List.filter_cons, List.lookup_cons]
    by_cases ha : a = key
    · rw [ha] at ih ⊢
      cases hkeep : keep key
      · rwa [hkeep] at ih
      · simp only [if_true, List.lookup_cons, beq_self_eq_true]
    · have hne : (a == key) = false := beq_eq_false_iff_ne.mpr ha
      cases keep key
      · rw [hne]
        exact ih
      · simp only [if_true, List.lookup_cons, hne, ih]

end

namespace Directory

variable {d : Directory} {place around : List String}

/-! ### Well-formed directories -/

/-- Files and directories as a system has them: nothing is both, and all around either are
directories. -/
structure WellFormed (d : Directory) : Prop where
  absolute : Path.isAbsolute d.cwd = true
  closed : ∀ place, d.isDirectory place = true → ∀ around, around <+: place →
    d.isDirectory around = true
  around : ∀ place, d.content? place ≠ none → ∀ around, around <+: place.dropLast →
    d.isDirectory around = true
  apart : ∀ place, d.content? place ≠ none → d.isDirectory place = false

def made (d : Directory) (place : List String) : Directory :=
  { d with directories := d.directories ++ withParents place }

/-- A file is put in the place of one that is there. -/
def put (d : Directory) (place : List String) (bytes : ByteArray) : Directory :=
  { d with files := (place, bytes) :: d.files.filter fun f => f.1 ≠ place }

theorem mem_withParents : around ∈ withParents place ↔ around <+: place := by
  simp only [withParents, List.mem_map, List.mem_range, Nat.lt_succ_iff]
  constructor
  · rintro ⟨n, -, rfl⟩
    exact List.take_prefix n place
  · intro h
    exact ⟨around.length, h.length_le, (List.prefix_iff_eq_take.mp h).symm⟩

theorem isDirectory_iff :
    d.isDirectory place = true ↔ place ∈ d.directories ∨ place <+: Path.segments d.cwd := by
  rw [isDirectory, Bool.or_eq_true, List.contains_iff_mem, List.isPrefixOf_iff_prefix]

theorem isDirectory_nil (d : Directory) : d.isDirectory [] = true :=
  isDirectory_iff.mpr (Or.inr List.nil_prefix)

theorem isDirectory_made {q : List String} :
    (d.made place).isDirectory q = true ↔ d.isDirectory q = true ∨ q <+: place := by
  rw [isDirectory_iff, isDirectory_iff, made, List.mem_append, mem_withParents, or_right_comm]

theorem content?_put (q : List String) (bytes : ByteArray) :
    (d.put place bytes).content? q = if q = place then some bytes else d.content? q := by
  have hothers := lookup_filter_keys (fun k => decide (k ≠ place)) q d.files
  by_cases hq : q = place
  · rw [if_pos hq, content?, put, List.lookup_cons, beq_iff_eq.mpr hq]
  · rw [if_neg hq, content?, put, List.lookup_cons, beq_eq_false_iff_ne.mpr hq]
    exact hothers.trans (if_pos (decide_eq_true hq))

/-- There is no file at a place nor around it. -/
def Free (d : Directory) (place : List String) :
    Prop := ∀ around, around <+: place → d.content? around = none

theorem WellFormed.made (h : d.WellFormed) (hfree : d.Free place) : (d.made place).WellFormed where
  absolute := h.absolute
  closed q hq around haround := by
    rcases isDirectory_made.mp hq with hq | hq
    · exact isDirectory_made.mpr (Or.inl (h.closed q hq around haround))
    · exact isDirectory_made.mpr (Or.inr (haround.trans hq))
  around q hq around haround := isDirectory_made.mpr (Or.inl (h.around q hq around haround))
  apart q hq := by
    refine Bool.eq_false_iff.mpr fun hdirectory => ?_
    rcases isDirectory_made.mp hdirectory with hdirectory | hprefix
    · exact Bool.eq_false_iff.mp (h.apart q hq) hdirectory
    · exact hq (hfree q hprefix)

theorem WellFormed.put (h : d.WellFormed) (bytes : ByteArray)
    (haround : d.isDirectory place.dropLast = true) (hplace : d.isDirectory place = false) :
    (d.put place bytes).WellFormed where
  absolute := h.absolute
  closed := h.closed
  around q hq around hprefix := by
    rw [content?_put] at hq
    by_cases heq : q = place
    · exact h.closed _ haround around (heq ▸ hprefix)
    · exact h.around q (by rwa [if_neg heq] at hq) around hprefix
  apart q hq := by
    rw [content?_put] at hq
    by_cases heq : q = place
    · exact heq ▸ hplace
    · exact h.apart q (by rwa [if_neg heq] at hq)

theorem wellFormed_of_cwd {cwd : String} (h : Path.isAbsolute cwd = true) :
    ({ cwd } : Directory).WellFormed where
  absolute := h
  closed place hplace around haround := by
    rw [isDirectory_iff] at hplace ⊢
    exact Or.inr (haround.trans (hplace.resolve_left List.not_mem_nil))
  around place hplace := absurd rfl hplace
  apart place hplace := absurd rfl hplace

/-- A file may be added with all around it. -/
theorem WellFormed.addFile (h : d.WellFormed) {path : String} (bytes : ByteArray)
    (hfree : d.Free (d.locate path).dropLast) (hplace : d.isDirectory (d.locate path) = false) :
    (d.addFile path bytes).WellFormed := by
  have hmade := h.made hfree
  have hnot : (d.made (d.locate path).dropLast).isDirectory (d.locate path) = false := by
    refine Bool.eq_false_iff.mpr fun hdirectory => ?_
    -- The directories that are made lie around the place, so they are shorter than it is.
    rcases isDirectory_made.mp hdirectory with hdirectory | hprefix
    · exact Bool.eq_false_iff.mp hplace hdirectory
    · have hnil : d.locate path ≠ [] := by
        intro hnil
        rw [hnil, isDirectory_nil] at hplace
        cases hplace
      have hlength := hprefix.length_le
      rw [List.length_dropLast] at hlength
      have hpos := List.length_pos_iff.mpr hnil
      omega
  have hput := hmade.put bytes (isDirectory_made.mpr (Or.inr List.prefix_rfl)) hnot
  -- Only the contents at the place differ.
  have hcontent (q : List String) : (d.addFile path bytes).content? q =
      ((d.made (d.locate path).dropLast).put (d.locate path) bytes).content? q := by
    rw [content?_put]
    by_cases hq : q = d.locate path
    · rw [if_pos hq, content?, Directory.addFile, List.lookup_cons, beq_iff_eq.mpr hq]
    · rw [if_neg hq, content?, Directory.addFile, List.lookup_cons, beq_eq_false_iff_ne.mpr hq]
      rfl
  refine ⟨h.absolute, hput.closed, fun q hq => hput.around q ?_, fun q hq => hput.apart q ?_⟩
  · rwa [← hcontent]
  · rwa [← hcontent]

/-! ### Names -/

/-- What a system takes as a path: not too long, and with no zero byte to end it early. -/
structure IsPath (path : String) : Prop where
  zero : '\x00' ∉ path.toList
  short : (Units.toUTF8 path).size ≤ maxPathBytes

/-- No name of a place is too long. -/
def ShortNames (place : List String) : Prop := ∀ name ∈ place, name.utf8ByteSize ≤ maxNameBytes

theorem checkPath_eq_ok (path : String) : checkPath path = .ok () ↔ '\x00' ∉ path.toList := by
  rw [checkPath]
  split
  · next hzero => exact iff_of_false nofun (not_not.mpr (List.contains_iff_mem.mp hzero))
  · next hzero => exact iff_of_true rfl (mt List.contains_iff_mem.mpr hzero)

theorem take_prefix_dropLast {n : Nat} (h : n < place.length) :
    place.take n <+: place.dropLast := by
  rw [List.dropLast_eq_take]
  exact List.take_prefix_take_left (Nat.le_sub_one_of_lt h)

theorem isTooLong_eq_false_of_shortNames {path : String}
    (hsize : (Units.toUTF8 path).size ≤ maxPathBytes) (hnames : ShortNames (d.locate path)) :
    d.isTooLong path = false := by
  refine Bool.or_eq_false_iff.mpr ⟨decide_eq_false (Nat.not_lt.mpr hsize), List.any_eq_false.mpr ?_⟩
  rintro ⟨name, n⟩ hname
  have hshort := hnames name (List.fst_mem_of_mem_zipIdx hname)
  simp [Nat.not_lt.mpr hshort]

/-- Where there are directories around a place, each of its names may be too long. -/
theorem isTooLong_eq_false_iff {path : String}
    (haround : ∀ around, around <+: (d.locate path).dropLast → d.isDirectory around = true) :
    d.isTooLong path = false ↔ (Units.toUTF8 path).size ≤ maxPathBytes ∧
      ShortNames (d.locate path) := by
  refine ⟨fun h => ?_, fun ⟨hsize, hnames⟩ => isTooLong_eq_false_of_shortNames hsize hnames⟩
  obtain ⟨hsize, hnames⟩ := Bool.or_eq_false_iff.mp h
  refine ⟨Nat.not_lt.mp (of_decide_eq_false hsize), fun name hname => ?_⟩
  obtain ⟨n, hn, rfl⟩ := List.mem_iff_getElem.mp hname
  have hentry :=
    List.any_eq_false.mp hnames
      _ (List.mk_mem_zipIdx_iff_getElem?.mpr (List.getElem?_eq_getElem hn))
  simpa [haround _ (take_prefix_dropLast hn)] using hentry

theorem isBlocked_eq_false_iff :
    d.isBlocked place = false ↔ ∀ n < place.length, d.content? (place.take n) = none := by
  simp only [isBlocked, List.any_eq_false, List.mem_range, Option.not_isSome_iff_eq_none]

theorem free_iff : d.Free place ↔ d.isBlocked place = false ∧ d.content? place = none := by
  rw [isBlocked_eq_false_iff]
  constructor
  · exact fun h => ⟨fun n _ => h _ (List.take_prefix n place), h place List.prefix_rfl⟩
  · rintro ⟨haround, hplace⟩ around hprefix
    rw [List.prefix_iff_eq_take.mp hprefix]
    rcases Nat.lt_or_ge around.length place.length with hlt | hge
    · exact haround _ hlt
    · rwa [List.take_of_length_le hge]

/-- There is no file where there is a directory, nor around it. -/
theorem WellFormed.free (h : d.WellFormed) (hplace : d.isDirectory place = true) :
    d.Free place := by
  intro around hprefix
  by_contra hfile
  exact Bool.eq_false_iff.mp (h.apart around hfile) (h.closed place hplace around hprefix)

/-! ### Operations -/

/-- A path that can be looked up, as complaints show it. -/
structure Usable (d : Directory) (path shown : String) : Prop where
  zero : '\x00' ∉ shown.toList
  notTooLong : d.isTooLong path = false

/-- Nothing is done with what is no path. -/
theorem onPath_cases {α : Type} (path shown call : String)
    (act : Directory → StateM Directory (Except String α)) (d : Directory) :
    (d.Usable path shown ∧ onPath path shown call act d = act d d) ∨
      (¬ d.Usable path shown ∧ ∃ message, onPath path shown call act d = (.error message, d)) := by
  unfold onPath
  cases hcheck : checkPath shown with
  | error message =>
    refine Or.inr ⟨fun h => ?_, message, rfl⟩
    rw [(checkPath_eq_ok shown).mpr h.zero] at hcheck
    cases hcheck
  | ok _ =>
    simp only [bind, StateT.bind, get, getThe, MonadStateOf.get, StateT.get, pure]
    cases hlong : d.isTooLong path with
    | true => exact Or.inr ⟨fun h => Bool.false_ne_true (h.notTooLong.symm.trans hlong), _, rfl⟩
    | false => exact Or.inl ⟨⟨(checkPath_eq_ok shown).mp hcheck, hlong⟩, rfl⟩

instance (path : String) : Decidable (IsPath path) :=
  decidable_of_iff ('\x00' ∉ path.toList ∧ (Units.toUTF8 path).size ≤ maxPathBytes)
    ⟨fun ⟨hzero, hshort⟩ => ⟨hzero, hshort⟩, fun h => ⟨h.zero, h.short⟩⟩

instance (place : List String) : Decidable (ShortNames place) :=
  List.decidableBAll (fun name : String => name.utf8ByteSize ≤ maxNameBytes) place

instance (d : Directory) (place : List String) :
    Decidable (d.Free place) := decidable_of_iff _ free_iff.symm

/-- When a directory can be made. -/
structure CanMake (d : Directory) (path : String) : Prop where
  isPath : IsPath path
  names : ShortNames (d.locate path)
  free : d.Free (d.locate path)

theorem makeDirectory_cases (path : String) (d : Directory) :
    (d.CanMake path ∧ makeDirectory path d = (.ok (), d.made (d.locate path))) ∨
      (¬ d.CanMake path ∧ ∃ message, makeDirectory path d = (.error message, d)) := by
  unfold makeDirectory
  -- What keeps a directory from being made is looked for in the order of the system.
  rcases onPath_cases path path "mkdir" _ d with ⟨⟨hzero, hlong⟩, hact⟩ | ⟨hunusable, hmessage⟩
  · rw [hact]
    split
    · next hblocked =>
      refine Or.inr ⟨fun h => ?_, _, rfl⟩
      rw [(free_iff.mp h.free).1] at hblocked
      cases hblocked
    · next hblocked =>
      split
      · next hfile =>
        refine Or.inr ⟨fun h => ?_, _, rfl⟩
        rw [(free_iff.mp h.free).2] at hfile
        cases hfile
      · next hfile =>
        split
        · next hnames =>
          refine Or.inr ⟨fun h => ?_, _, rfl⟩
          obtain ⟨name, hname, hsize⟩ := List.any_eq_true.mp hnames
          exact absurd (h.names name hname) (Nat.not_le.mpr (of_decide_eq_true hsize))
        · next hnames =>
          refine Or.inl ⟨⟨⟨hzero, ?_⟩, fun name hname => ?_, ?_⟩, rfl⟩
          · exact Nat.not_lt.mp (of_decide_eq_false (Bool.or_eq_false_iff.mp hlong).1)
          · have hsize := List.any_eq_false.mp (Bool.eq_false_iff.mpr hnames) name hname
            exact Nat.not_lt.mp (by simpa using hsize)
          · exact free_iff.mpr
              ⟨Bool.eq_false_iff.mpr hblocked, Option.not_isSome_iff_eq_none.mp hfile⟩
  · have husable (h : d.CanMake path) : d.Usable path path :=
      ⟨h.isPath.zero, isTooLong_eq_false_of_shortNames h.isPath.short h.names⟩
    exact Or.inr ⟨mt husable hunusable, hmessage⟩

instance (d : Directory) (path : String) : Decidable (d.CanMake path) :=
  decidable_of_iff (IsPath path ∧ ShortNames (d.locate path) ∧ d.Free (d.locate path))
    ⟨fun ⟨hpath, hnames, hfree⟩ => ⟨hpath, hnames, hfree⟩, fun h => ⟨h.isPath, h.names, h.free⟩⟩

/-- When a file can be written to a path, if there is a directory for it. -/
structure CanWrite (d : Directory) (path : String) : Prop where
  isPath : IsPath path
  names : ShortNames (d.locate path)
  notDirectory : d.isDirectory (d.locate path) = false

instance (d : Directory) (path : String) : Decidable (d.CanWrite path) :=
  decidable_of_iff
      (IsPath path ∧ ShortNames (d.locate path) ∧ d.isDirectory (d.locate path) = false)
    ⟨fun ⟨hpath, hnames, hnot⟩ => ⟨hpath, hnames, hnot⟩, fun h =>
      ⟨h.isPath, h.names, h.notDirectory⟩⟩

/-- Where there is a directory for it, a file is written if its path and what stands there allow
it. -/
theorem WellFormed.writeFile_cases (h : d.WellFormed) (path text : String)
    (haround : d.isDirectory (d.locate path).dropLast = true) :
    (d.CanWrite path ∧ writeFile path text d =
      (.ok (), d.put (d.locate path) (Units.toUTF8 text))) ∨
      (¬ d.CanWrite path ∧ ∃ message, writeFile path text d = (.error message, d)) := by
  have hlong : d.isTooLong path = false ↔ (Units.toUTF8 path).size ≤ maxPathBytes ∧
      ShortNames (d.locate path) :=
    isTooLong_eq_false_iff (h.closed _ haround)
  have hblocked : d.isBlocked (d.locate path) = false :=
    isBlocked_eq_false_iff.mpr fun n hn => h.free haround _ (take_prefix_dropLast hn)
  unfold writeFile
  rcases onPath_cases path path "open" _ d with ⟨husable, hact⟩ | ⟨hunusable, hmessage⟩
  · obtain ⟨hsize, hnames⟩ := hlong.mp husable.notTooLong
    rw [hact]
    simp only [hblocked, haround]
    cases hdirectory : d.isDirectory (d.locate path) with
    | true =>
      exact Or.inr ⟨fun h => Bool.false_ne_true (h.notDirectory.symm.trans hdirectory), _, rfl⟩
    | false => exact Or.inl ⟨⟨⟨husable.zero, hsize⟩, hnames, hdirectory⟩, rfl⟩
  · have husable (h : d.CanWrite path) : d.Usable path path :=
      ⟨h.isPath.zero, hlong.mpr ⟨h.isPath.short, h.names⟩⟩
    exact Or.inr ⟨mt husable hunusable, hmessage⟩

theorem readFile_spec (path : String) (d : Directory) :
    (readFile path d).2 = d ∧ ∀ bytes, (readFile path d).1 = .ok bytes ↔
      d.Usable path (Path.resolve d.cwd path) ∧ d.content? (d.locate path) = some bytes := by
  unfold readFile
  simp only [bind, StateT.bind, get, getThe, MonadStateOf.get, StateT.get, pure]
  rcases onPath_cases path (Path.resolve d.cwd path) "open" _ d with
    ⟨husable, hact⟩ | ⟨hunusable, message, hact⟩
  · rw [hact]
    simp only [husable, true_and]
    cases hfile : d.content? (d.locate path) with
    | some found =>
      refine ⟨rfl, fun bytes => ⟨fun h => ?_, fun h => ?_⟩⟩
      · exact congrArg some (Except.ok.inj h)
      · exact congrArg Except.ok (Option.some.inj h)
    | none =>
      dsimp only
      split
      · exact ⟨rfl, fun bytes => iff_of_false nofun nofun⟩
      · split <;> exact ⟨rfl, fun bytes => iff_of_false nofun nofun⟩
  · rw [hact]
    exact ⟨rfl, fun bytes => iff_of_false nofun fun h => hunusable h.1⟩

/-- What is read of a file does not depend on any other. -/
theorem WellFormed.readFile_eq_ok_iff (h : d.WellFormed) {path : String} {bytes : ByteArray} :
    (readFile path d).1 = .ok bytes ↔ '\x00' ∉ (Path.resolve d.cwd path).toList ∧
      (Units.toUTF8 path).size ≤ maxPathBytes ∧ ShortNames (d.locate path) ∧
        d.content? (d.locate path) = some bytes := by
  rw [(readFile_spec path d).2]
  constructor
  · rintro ⟨⟨hzero, hlong⟩, hfile⟩
    have haround := h.around _ (by rw [hfile]; nofun)
    obtain ⟨hsize, hnames⟩ := (isTooLong_eq_false_iff haround).mp hlong
    exact ⟨hzero, hsize, hnames, hfile⟩
  · rintro ⟨hzero, hsize, hnames, hfile⟩
    exact ⟨⟨hzero, isTooLong_eq_false_of_shortNames hsize hnames⟩, hfile⟩

/-- When a file can be written to a path and the directory for it made before. -/
structure HasRoom (d : Directory) (path : String) : Prop where
  directory : d.CanMake (Path.dirname path)
  file : d.CanWrite path

instance (d : Directory) (path : String) : Decidable (d.HasRoom path) :=
  decidable_of_iff (d.CanMake (Path.dirname path) ∧ d.CanWrite path)
    ⟨fun ⟨hmake, hwrite⟩ => ⟨hmake, hwrite⟩, fun h => ⟨h.directory, h.file⟩⟩

/-! ### Changes -/

theorem locate_congr {d' : Directory} (hcwd : d'.cwd = d.cwd) (path : String) :
    d'.locate path = d.locate path := by
  rw [locate, locate, hcwd]

theorem canMake_congr {d' : Directory} {path : String} (hcwd : d'.cwd = d.cwd)
    (hfree : d'.Free (d.locate path) ↔ d.Free (d.locate path)) : d'.CanMake path ↔
      d.CanMake path := by
  have hlocate := locate_congr hcwd path
  constructor
  · exact fun h => ⟨h.isPath, hlocate ▸ h.names, hfree.mp (hlocate ▸ h.free)⟩
  · exact fun h => ⟨h.isPath, hlocate.symm ▸ h.names, hlocate.symm ▸ hfree.mpr h.free⟩

theorem canWrite_congr {d' : Directory} {path : String} (hcwd : d'.cwd = d.cwd)
    (hdirectory : d'.isDirectory (d.locate path) = true ↔ d.isDirectory (d.locate path) = true) :
    d'.CanWrite path ↔ d.CanWrite path := by
  have hlocate := locate_congr hcwd path
  have hnot := Bool.eq_iff_iff.mpr hdirectory
  constructor
  · exact fun h => ⟨h.isPath, hlocate ▸ h.names, hnot ▸ hlocate ▸ h.notDirectory⟩
  · exact fun h => ⟨h.isPath, hlocate.symm ▸ h.names, by rw [hlocate, hnot]; exact h.notDirectory⟩

theorem hasRoom_congr {d' : Directory} {path : String} (hcwd : d'.cwd = d.cwd)
    (hfree : d'.Free (d.locate (Path.dirname path)) ↔ d.Free (d.locate (Path.dirname path)))
    (hdirectory : d'.isDirectory (d.locate path) = true ↔ d.isDirectory (d.locate path) = true) :
    d'.HasRoom path ↔ d.HasRoom path := by
  have hmake := canMake_congr hcwd hfree
  have hwrite := canWrite_congr hcwd hdirectory
  exact ⟨fun h => ⟨hmake.mp h.directory, hwrite.mp h.file⟩, fun h =>
    ⟨hmake.mpr h.directory, hwrite.mpr h.file⟩⟩

/-- What has changed: some contents were saved and some directories made, and all else is as it
was. -/
structure Changed (d : Directory) (saves : List String → ByteArray → Prop)
    (makes : List String → Prop) (d' : Directory) : Prop where
  wellFormed : d'.WellFormed
  cwd : d'.cwd = d.cwd
  saved : ∀ place bytes, saves place bytes → d'.content? place = some bytes
  kept : ∀ place, (∀ bytes, ¬ saves place bytes) → d'.content? place = d.content? place
  directories : ∀ place, d'.isDirectory place = true ↔ d.isDirectory place = true ∨ makes place

namespace Changed

variable {d₁ d₂ : Directory} {saves saves' : List String → ByteArray → Prop}
    {makes makes' : List String → Prop}

theorem congr (h : Changed d saves makes d₁)
    (hsaves : ∀ place bytes, saves' place bytes ↔ saves place bytes)
    (hmakes : ∀ place, makes' place ↔ makes place) : Changed d saves' makes' d₁ where
  wellFormed := h.wellFormed
  cwd := h.cwd
  saved place bytes hplace := h.saved place bytes ((hsaves place bytes).mp hplace)
  kept place hplace := h.kept place fun bytes hbytes =>
    hplace bytes ((hsaves place bytes).mpr hbytes)
  directories place := (h.directories place).trans (or_congr_right (hmakes place).symm)

theorem trans (h : Changed d saves makes d₁) (h' : Changed d₁ saves' makes' d₂)
    (hdisjoint : ∀ place bytes bytes', saves place bytes → ¬ saves' place bytes') :
    Changed d (fun place bytes => saves place bytes ∨ saves' place bytes)
      (fun place => makes place ∨ makes' place) d₂ where
  wellFormed := h'.wellFormed
  cwd := h'.cwd.trans h.cwd
  saved place bytes hplace := by
    rcases hplace with hplace | hplace
    · rw [h'.kept place fun bytes' => hdisjoint place bytes bytes' hplace]
      exact h.saved place bytes hplace
    · exact h'.saved place bytes hplace
  kept place hplace := by
    rw [h'.kept place fun bytes hbytes => hplace bytes (Or.inr hbytes)]
    exact h.kept place fun bytes hbytes => hplace bytes (Or.inl hbytes)
  directories place := by rw [h'.directories, h.directories, or_assoc]

/-- A place without a file had none before. -/
theorem content?_eq_none (h : Changed d saves makes d₁) (hplace : d₁.content? place = none) :
    d.content? place = none := by
  rw [← h.kept place fun bytes hbytes => ?_, hplace]
  rw [h.saved place bytes hbytes] at hplace
  cases hplace

theorem refl (h : d.WellFormed) : Changed d (fun _ _ => False) (fun _ => False) d where
  wellFormed := h
  cwd := rfl
  saved _ _ hplace := hplace.elim
  kept _ _ := rfl
  directories _ := (or_iff_left id).symm

/-- Lines that are printed change nothing. -/
theorem lines (h : Changed d saves makes d₁) (lines : List (Stream × String)) :
    Changed d saves makes { d₁ with lines := lines } where
  wellFormed :=
    ⟨h.wellFormed.absolute, h.wellFormed.closed, h.wellFormed.around, h.wellFormed.apart⟩
  cwd := h.cwd
  saved := h.saved
  kept := h.kept
  directories := h.directories

theorem made (h : d.WellFormed) (hfree : d.Free place) :
    Changed d (fun _ _ => False) (· <+: place) (d.made place) where
  wellFormed := h.made hfree
  cwd := rfl
  saved _ _ hplace := hplace.elim
  kept _ _ := rfl
  directories _ := isDirectory_made

theorem put (h : d.WellFormed) (bytes : ByteArray) (haround : d.isDirectory place.dropLast = true)
    (hplace : d.isDirectory place = false) :
    Changed d (fun q found => q = place ∧ found = bytes) (fun _ => False) (d.put place bytes) where
  wellFormed := h.put bytes haround hplace
  cwd := rfl
  saved q found hq := by rw [content?_put, if_pos hq.1, hq.2]
  kept q hq := by rw [content?_put, if_neg fun heq => hq bytes ⟨heq, rfl⟩]
  directories _ := (or_iff_left id).symm

end Changed

end Directory

end WasmScript.CommandLine
