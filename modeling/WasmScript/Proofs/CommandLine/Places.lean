/-
  WasmScript/Proofs/CommandLine/Places.lean
  =========================================
  **Where paths lead** — the place of a path, and that of the directory around it.

  A path is walked segment by segment from where it starts, the root or the working directory:
  `Directory.locate_eq`.  The shortest form of a path is walked to the same place, and the last
  segment of a path is one more step from the directory that is written before it.  So a script
  that is written beside an input goes to the directory of the input, and scripts that are written
  to one directory go to one place.
-/
import WasmScript.Proofs.CommandLine.Outputs

namespace WasmScript

/-! ### Characters alone -/

namespace Units

theorem paired_ge (high low : Nat) (h : isHighSurrogate high = true)
    (l : isLowSurrogate low = true) :
    0x80 ≤ (Char.ofNat (paired high low)).toNat := by
  have hhigh : 0xD800 ≤ high ∧ high < 0xDC00 := by simpa [isHighSurrogate] using h
  have hlow : 0xDC00 ≤ low ∧ low < 0xE000 := by simpa [isLowSurrogate] using l
  have hpaired : 0xE000 ≤ paired high low ∧ paired high low < 0x110000 := by
    unfold paired
    omega
  have hcode := toNat_ofNat (Or.inr hpaired)
  omega

theorem pair?_ge {c d : Char} {n : Nat} (h : pair? c d = some n) : 0x80 ≤ (Char.ofNat n).toNat := by
  unfold pair? at h
  split at h
  · next high low _ _ =>
    split at h
    · next hhalves =>
      obtain ⟨hhigh, hlow⟩ := Bool.and_eq_true_iff.mp hhalves
      rw [← Option.some.inj h]
      exact paired_ge high low hhigh hlow
    · cases h
  · cases h

/-- A text of small characters is not written for any other text. -/
theorem scalars_eq_self {cs : List Char} (h : ∀ c ∈ scalars cs, c.toNat < 0x80) :
    scalars cs = cs := by
  have hkept {c : Char} (hc : (if (surrogate? c).isSome then '\uFFFD' else c).toNat < 0x80) :
      (if (surrogate? c).isSome then '\uFFFD' else c) = c := by
    split
    · next hsome =>
      rw [if_pos hsome] at hc
      exact absurd hc (by decide)
    · rfl
  fun_induction scalars cs with
  | case1 => rfl
  | case2 c => rw [hkept (h _ List.mem_cons_self)]
  | case3 c d rest n hpair ih =>
    exact absurd (h _ List.mem_cons_self) (Nat.not_lt.mpr (pair?_ge hpair))
  | case4 c d rest hpair ih =>
    obtain ⟨hc, hrest⟩ := List.forall_mem_cons.mp h
    rw [hkept hc, ih hrest]

theorem written_eq_iff {s t : String} (h : ∀ c ∈ t.toList, c.toNat < 0x80) : written s = t ↔
    s = t := by
  constructor
  · intro hs
    have hscalars : scalars s.toList = t.toList := by rw [← hs, written, String.toList_ofList]
    rw [← hs, written, scalars_eq_self (hscalars ▸ h), String.ofList_toList]
  · rintro rfl
    have hplain : AllPlain s.toList := by
      intro c hc
      have hsmall := h c hc
      have hreserved : isReserved c.toNat = false := by
        simp only [isReserved, Bool.and_eq_false_iff, decide_eq_false_iff_not]
        omega
      rw [surrogate?, hreserved]
      rfl
    rw [written, scalars_of_allPlain hplain, String.ofList_toList]

/-- A character that is no surrogate stands between what is before it and what is behind. -/
theorem scalars_append_cons {c : Char} (h : surrogate? c = none) (xs ys : List Char) :
    scalars (xs ++ c :: ys) = scalars xs ++ c :: scalars ys := by
  fun_induction scalars xs with
  | case1 => exact scalars_cons h ys
  | case2 d =>
    rw [List.singleton_append, scalars, pair?_eq_none h, scalars_cons h]
    rfl
  | case3 d e rest n hpair ih =>
    rw [List.cons_append, List.cons_append, scalars, hpair]
    exact congrArg (Char.ofNat n :: ·) ih
  | case4 d e rest hpair ih =>
    rw [List.cons_append, List.cons_append, scalars, hpair, ← List.cons_append, ih]
    rfl

theorem slash_not_mem_scalars {cs : List Char} (h : '/' ∉ cs) : '/' ∉ scalars cs := by
  have hkept {c : Char} (hc : '/' ≠ c) : '/' ≠ if (surrogate? c).isSome then '\uFFFD' else c := by
    split
    · decide
    · exact hc
  fun_induction scalars cs with
  | case1 => exact h
  | case2 c =>
    rw [List.mem_singleton] at h ⊢
    exact hkept h
  | case3 c d rest n hpair ih =>
    obtain ⟨-, hrest⟩ := List.ne_and_not_mem_of_not_mem_cons h
    refine List.not_mem_cons_of_ne_of_not_mem ?_ (ih (List.not_mem_of_not_mem_cons hrest))
    intro heq
    have hlarge := pair?_ge hpair
    rw [← heq] at hlarge
    exact absurd hlarge (by decide)
  | case4 c d rest hpair ih =>
    obtain ⟨hc, hrest⟩ := List.ne_and_not_mem_of_not_mem_cons h
    exact List.not_mem_cons_of_ne_of_not_mem (hkept hc) (ih hrest)

end Units

namespace Path

open WasmScript.Units (written scalars)

/-! ### Parts of paths -/

theorem splitChars_slash (cs ds : List Char) :
    splitChars (cs ++ '/' :: ds) = splitChars cs ++ splitChars ds := by
  induction cs with
  | nil => rfl
  | cons c cs ih =>
    rw [List.cons_append, splitChars, splitChars, ih]
    split
    · rfl
    · have hne : splitChars cs ≠ [] := by
        cases cs with
        | nil => exact List.cons_ne_nil _ _
        | cons c cs =>
          rw [splitChars]
          split
          · exact List.cons_ne_nil _ _
          · split <;> exact List.cons_ne_nil _ _
      obtain ⟨part, parts, hparts⟩ := List.exists_cons_of_ne_nil hne
      rw [hparts]
      rfl

theorem split_slash (p q : String) : split (p ++ "/" ++ q) = split p ++ split q := by
  have hslash : "/".toList = ['/'] := by decide
  simp only [split, String.toList_append, hslash, List.append_assoc, List.singleton_append,
    splitChars_slash, List.map_append]

theorem split_of_not_mem {s : String} (h : '/' ∉ s.toList) : split s = [s] := by
  rw [split, splitChars_of_not_mem h, List.map_singleton, String.ofList_toList]

theorem slash_not_mem_splitChars (cs : List Char) : ∀ part ∈ splitChars cs, '/' ∉ part := by
  induction cs with
  | nil => simp [splitChars]
  | cons c cs ih =>
    rw [splitChars]
    split
    · exact List.forall_mem_cons.mpr ⟨List.not_mem_nil, ih⟩
    · next hc =>
      split
      · next part parts hparts =>
        rw [hparts] at ih
        obtain ⟨hpart, hrest⟩ := List.forall_mem_cons.mp ih
        exact List.forall_mem_cons.mpr
          ⟨List.not_mem_cons_of_ne_of_not_mem (Ne.symm hc) hpart, hrest⟩
      · exact List.forall_mem_cons.mpr
          ⟨List.not_mem_cons_of_ne_of_not_mem (Ne.symm hc) List.not_mem_nil, List.forall_mem_nil _⟩

theorem slash_not_mem_split (p : String) : ∀ part ∈ split p, '/' ∉ part.toList := by
  intro part hpart
  obtain ⟨cs, hcs, rfl⟩ := List.mem_map.mp hpart
  rw [String.toList_ofList]
  exact slash_not_mem_splitChars _ cs hcs

theorem splitChars_scalars (cs : List Char) :
    splitChars (scalars cs) = (splitChars cs).map scalars := by
  by_cases hslash : '/' ∈ cs
  · obtain ⟨before, rest, hcs⟩ := List.append_of_mem hslash
    rw [hcs, Units.scalars_append_cons (by decide), splitChars_slash, splitChars_slash,
      List.map_append, splitChars_scalars before, splitChars_scalars rest]
  · rw [splitChars_of_not_mem hslash, splitChars_of_not_mem (Units.slash_not_mem_scalars hslash),
      List.map_singleton]
termination_by cs.length
decreasing_by all_goals
  rw [hcs, List.length_append, List.length_cons]
  omega

/-- Surrogates that stand alone are replaced part by part. -/
theorem split_written (p : String) : split (written p) = (split p).map written := by
  rw [split, split, written, String.toList_ofList, splitChars_scalars, List.map_map, List.map_map]
  refine List.map_congr_left fun cs _ => ?_
  rw [Function.comp_apply, Function.comp_apply, written, String.toList_ofList]

theorem split_slash_empty (p : String) : split (p ++ "/") = split p ++ [""] := by
  have hsplit := split_slash p ""
  rwa [String.append_empty] at hsplit

theorem split_intercalate {parts : List String} (hne : parts ≠ [])
    (h : ∀ s ∈ parts, '/' ∉ s.toList) :
    split ("/".intercalate parts) = parts := by
  induction parts with
  | nil => exact absurd rfl hne
  | cons s parts ih =>
    obtain ⟨hs, hparts⟩ := List.forall_mem_cons.mp h
    by_cases hnil : parts = []
    · rw [hnil, String.intercalate_singleton, split_of_not_mem hs]
    · rw [String.intercalate_cons_of_ne_nil hnil, split_slash, split_of_not_mem hs, ih hnil hparts,
        List.singleton_append]

theorem isAbsolute_iff {p : String} : isAbsolute p = true ↔ ∃ cs, p.toList = '/' :: cs :=
  decide_eq_true_iff.trans List.head?_eq_some_iff

/-- Before the first slash of an absolute path there is nothing. -/
theorem exists_split_of_isAbsolute {p : String} (h : isAbsolute p = true) :
    ∃ rest, split p = "" :: rest := by
  obtain ⟨cs, hcs⟩ := isAbsolute_iff.mp h
  exact ⟨_, by rw [split, hcs, splitChars, if_pos rfl, List.map_cons, String.ofList_nil]⟩

theorem isAbsolute_written {p : String} (h : isAbsolute p = true) :
    isAbsolute (written p) = true := by
  obtain ⟨cs, hcs⟩ := isAbsolute_iff.mp h
  rw [isAbsolute, written, String.toList_ofList, hcs, Units.scalars_cons (by decide)]
  exact decide_eq_true rfl

theorem isAbsolute_append_of_ne {p : String} (hne : p ≠ "") (q : String) :
    isAbsolute (p ++ q) = isAbsolute p := by
  have hchars : p.toList ≠ [] := mt String.toList_eq_nil_iff.mp hne
  rw [isAbsolute, isAbsolute, String.toList_append, List.head?_append_of_ne_nil _ hchars]

theorem isAbsolute_append_left {p : String} (h : isAbsolute p = true) (q : String) :
    isAbsolute (p ++ q) = true := by
  refine (isAbsolute_append_of_ne ?_ q).trans h
  rintro rfl
  cases h

theorem not_isAbsolute_of_not_mem {p : String} (h : '/' ∉ p.toList) : isAbsolute p = false :=
  decide_eq_false fun hhead => h (List.mem_of_head? hhead)

/-! ### Walks -/

section

variable {absolute : Bool} {done : List String} {s : String}

theorem pushSegments_stays {parts : List String} (h : ∀ s ∈ parts, s = "" ∨ s = ".") :
    pushSegments absolute done parts = done := by
  induction parts with
  | nil => rfl
  | cons s parts ih =>
    obtain ⟨hs, hparts⟩ := List.forall_mem_cons.mp h
    simp only [pushSegments, if_pos hs, ih hparts]

theorem pushSegments_stay (h : s = "" ∨ s = ".") : pushSegments absolute done [s] = done :=
  pushSegments_stays (List.forall_mem_singleton.mpr h)

theorem pushSegments_back {top : String} (h : top ≠ "..") :
    pushSegments absolute (top :: done) [".."] = done := by
  simp [pushSegments, h]

theorem pushSegments_name (hstay : ¬ (s = "" ∨ s = ".")) (hback : s ≠ "..") :
    pushSegments absolute done [s] = s :: done := by
  simp only [pushSegments, if_neg hstay, if_neg hback]

/-- One step stays, goes back or goes on. -/
theorem pushSegments_cases (absolute : Bool) (done : List String) (s : String) :
    pushSegments absolute done [s] = done ∨ pushSegments absolute done [s] = done.tail ∨
      ∃ name, pushSegments absolute done [s] = name :: done := by
  by_cases hstay : s = "" ∨ s = "."
  · exact Or.inl (pushSegments_stay hstay)
  · by_cases hback : s = ".."
    · rw [hback]
      cases done with
      | nil =>
        cases absolute
        · exact Or.inr (Or.inr ⟨"..", rfl⟩)
        · exact Or.inl rfl
      | cons top done =>
        by_cases htop : top = ".."
        · exact Or.inr (Or.inr ⟨"..", by simp [pushSegments, htop]⟩)
        · exact Or.inr (Or.inl (pushSegments_back htop))
    · exact Or.inr (Or.inr ⟨s, pushSegments_name hstay hback⟩)

theorem pushSegments_cons (rest : List String) :
    pushSegments absolute done (s :: rest) =
      pushSegments absolute (pushSegments absolute done [s]) rest :=
  pushSegments_append absolute [s] rest done

theorem pushSegments_written (absolute : Bool) (done parts : List String) :
    pushSegments absolute (done.map written) (parts.map written) =
      (pushSegments absolute done parts).map written := by
  have hempty {s : String} : written s = "" ↔ s = "" := Units.written_eq_iff (by simp)
  have hdot {s : String} : written s = "." ↔ s = "." := Units.written_eq_iff (by simp)
  have hdots {s : String} : written s = ".." ↔ s = ".." := Units.written_eq_iff (by simp)
  have hback : written ".." = ".." := hdots.mpr rfl
  fun_induction pushSegments absolute done parts with
  | case3 rest _ ih =>
    rw [← ih]
    cases absolute <;> simp [pushSegments, hback]
  | case4 rest below _ ih =>
    rw [← ih]
    simp [pushSegments, hback]
  | _ => simp_all [pushSegments]

/-- What was put together is no empty segment and no step that stays. -/
theorem forall_mem_pushSegments {P : String → Prop} {parts : List String} (hdone : ∀ s ∈ done, P s)
    (hparts : ∀ s ∈ parts, s ≠ "" → s ≠ "." → P s) (hback : P "..") :
    ∀ s ∈ pushSegments absolute done parts, P s := by
  fun_induction pushSegments absolute done parts with
  | case1 done => exact hdone
  | case2 done s rest _ ih => exact ih hdone (List.forall_mem_cons.mp hparts).2
  | case3 rest _ ih =>
    refine ih ?_ (List.forall_mem_cons.mp hparts).2
    cases absolute
    · exact List.forall_mem_singleton.mpr hback
    · exact List.forall_mem_nil _
  | case4 rest below _ ih =>
    exact ih (List.forall_mem_cons.mpr ⟨hback, hdone⟩) (List.forall_mem_cons.mp hparts).2
  | case5 rest top below _ _ ih =>
    exact ih (List.forall_mem_cons.mp hdone).2 (List.forall_mem_cons.mp hparts).2
  | case6 done s rest hstay _ ih =>
    obtain ⟨hs, hrest⟩ := List.forall_mem_cons.mp hparts
    obtain ⟨hempty, hdot⟩ := not_or.mp hstay
    exact ih (List.forall_mem_cons.mpr ⟨hs hempty hdot, hdone⟩) hrest

/-- The shortest form of some segments leads where they lead. -/
theorem pushSegments_shortest {start : List String} (parts : List String)
    (hstart : absolute = true → start = []) (hdone : ∀ s ∈ done, ¬ (s = "" ∨ s = ".")) :
    pushSegments true start (pushSegments absolute done parts).reverse =
      pushSegments true (pushSegments true start done.reverse) parts := by
  -- The last segment of one path may as well be the first one of the path after it.
  have hlast {done : List String} (s : String) (rest : List String) :
      pushSegments true (pushSegments true start (s :: done).reverse) rest =
        pushSegments true (pushSegments true start done.reverse) (s :: rest) := by
    rw [List.reverse_cons, pushSegments_append, ← pushSegments_cons]
  have hback : ¬ (".." = "" ∨ ".." = ".") := by decide
  -- The induction is on the segments that are left, of which `..` takes back one that was kept.
  fun_induction pushSegments absolute done parts with
  | case1 done => rfl
  | case2 done s rest hstay ih => rw [ih hdone, pushSegments_cons rest, pushSegments_stay hstay]
  | case3 rest _ ih =>
    cases absolute with
    | false => exact (ih (List.forall_mem_singleton.mpr hback)).trans (hlast ".." rest)
    | true =>
      rw [hstart rfl] at ih ⊢
      exact ih (List.forall_mem_nil _)
  | case4 rest below _ ih =>
    exact (ih (List.forall_mem_cons.mpr ⟨hback, hdone⟩)).trans (hlast ".." rest)
  | case5 rest top below htop _ ih =>
    obtain ⟨hname, hbelow⟩ := List.forall_mem_cons.mp hdone
    rw [ih hbelow, hlast, pushSegments_cons, pushSegments_name hname htop, pushSegments_cons,
      pushSegments_back htop]
  | case6 done s rest hstay _ ih =>
    exact (ih (List.forall_mem_cons.mpr ⟨hstay, hdone⟩)).trans (hlast s rest)

end

/-! ### Shortest forms -/

theorem not_mem_slash_segments {p : String} :
    ∀ s ∈ segments p, ¬ (s = "" ∨ s = ".") ∧ '/' ∉ s.toList := by
  have hpushed : ∀ s ∈ pushSegments (isAbsolute p) [] (split p), ¬ (s = "" ∨ s = ".") ∧
      '/' ∉ s.toList :=
    forall_mem_pushSegments (List.forall_mem_nil _)
      (fun s hs hempty hdot => ⟨not_or.mpr ⟨hempty, hdot⟩, slash_not_mem_split p s hs⟩) (by decide)
  exact fun s hs => hpushed s (List.mem_reverse.mp hs)

/-- Slashes around some segments add empty ones. -/
theorem split_around {parts : List String} (hne : parts ≠ []) (h : ∀ s ∈ parts, '/' ∉ s.toList)
    (absolute trailing : Prop) [Decidable absolute] [Decidable trailing] :
    split ((if absolute then "/" else "") ++ "/".intercalate parts ++
      if trailing then "/" else "") =
      (if absolute then [""] else []) ++ parts ++ if trailing then [""] else [] := by
  have hsplit := split_intercalate hne h
  have hfront : split ("/" ++ "/".intercalate parts) = "" :: parts := by
    have hslash := split_slash "" ("/".intercalate parts)
    rw [hsplit] at hslash
    exact hslash
  by_cases habsolute : absolute <;> by_cases htrailing : trailing <;>
    simp only [habsolute, htrailing, if_true, if_false, String.empty_append, String.append_empty,
      split_slash_empty, hsplit, hfront] <;> simp

/-- The shortest form of a path starts where the path does, and leads where it leads. -/
theorem normalize_spec (p : String) :
    isAbsolute (normalize p) = isAbsolute p ∧
      ∀ done, pushSegments true done (split (normalize p)) =
        pushSegments true done (segments p) := by
  unfold normalize
  dsimp only
  split
  · next hnil =>
    rw [hnil]
    have hstays {q : String} (h : ∀ s ∈ split q, s = "" ∨ s = ".") (done : List String) :
        pushSegments true done (split q) = pushSegments true done [] := pushSegments_stays h
    split
    · next habsolute => exact ⟨habsolute.symm ▸ by decide, hstays (by decide)⟩
    · next habsolute =>
      rw [Bool.eq_false_iff.mpr habsolute]
      split
      · exact ⟨by decide, hstays (by decide)⟩
      · exact ⟨by decide, hstays (by decide)⟩
  · next hne =>
    have hplain : ∀ s ∈ segments p, '/' ∉ s.toList := fun s hs => (not_mem_slash_segments s hs).2
    have hsplit := split_around hne hplain (isAbsolute p = true) (p.toList.getLast? = some '/')
    constructor
    · cases habsolute : isAbsolute p with
      | true =>
        simp only [if_true, String.append_assoc]
        exact isAbsolute_append_left (by decide) _
      | false =>
        rw [habsolute] at hsplit
        refine Bool.eq_false_iff.mpr fun h => ?_
        -- An absolute path starts with an empty segment, but no segment that is kept is empty.
        obtain ⟨rest, hrest⟩ := exists_split_of_isAbsolute h
        obtain ⟨first, others, hfirst⟩ := List.exists_cons_of_ne_nil hne
        rw [hsplit, hfirst] at hrest
        refine (not_mem_slash_segments first (hfirst ▸ List.mem_cons_self)).1 (Or.inl ?_)
        exact (List.cons.inj hrest).1
    · intro done
      have hempty (c : Prop) [Decidable c] (done : List String) :
          pushSegments true done (if c then [""] else []) = done := by
        refine pushSegments_stays ?_
        split <;> simp
      rw [hsplit, pushSegments_append, pushSegments_append, hempty, hempty]

/-! ### Parts of a path as it is written -/

/-- Slashes at the end of a path mean nothing. -/
theorem pushSegments_slashes (absolute : Bool) (done : List String) (p : String) (n : Nat) :
    pushSegments absolute done (split (p ++ String.ofList (List.replicate n '/'))) =
      pushSegments absolute done (split p) := by
  induction n with
  | zero => rw [List.replicate_zero, String.ofList_nil, String.append_empty]
  | succ n ih =>
    have hslash : String.ofList ['/'] = "/" := by decide
    rw [List.replicate_succ', String.ofList_append, ← String.append_assoc, hslash,
      split_slash_empty, pushSegments_append, ih, pushSegments_stay (Or.inl rfl)]

/-- Only slashes are cut off the end of a path. -/
theorem exists_slashes (p : String) :
    ∃ n, p.toList = (reversedTrimmed p).reverse ++ List.replicate n '/' := by
  have hslashes : ∀ c ∈ p.toList.reverse.takeWhile (· = '/'), c = '/' :=
    fun c hc => of_decide_eq_true (List.all_eq_true.mp List.all_takeWhile c hc)
  refine ⟨(p.toList.reverse.takeWhile (· = '/')).length, ?_⟩
  calc p.toList
      = (p.toList.reverse.takeWhile (· = '/') ++ p.toList.reverse.dropWhile (· = '/')).reverse := by
        rw [List.takeWhile_append_dropWhile, List.reverse_reverse]
    _ = (reversedTrimmed p).reverse ++ (p.toList.reverse.takeWhile (· = '/')).reverse := by
        rw [List.reverse_append, reversedTrimmed]
    _ = _ := by
        rw [List.eq_replicate_iff.mpr ⟨rfl, hslashes⟩, List.reverse_replicate,
          List.length_replicate]

/-- What stands around the last segment of a path, and how the directory of the path is written. -/
inductive Parted (p : String) (slashes : List Char) : Prop where
  | alone : p = basename p ++ String.ofList slashes →
      dirname p = (if isAbsolute p then "/" else ".") → Parted p slashes
  | inside (before directory : String) : p = before ++ "/" ++ basename p ++ String.ofList slashes →
      dirname p = directory →
      (before = directory ∧ before ≠ "" ∨ (before, directory) ∈ [("", "/"), ("/", "//")]) →
        Parted p slashes

/-- A path is its last segment with slashes behind it and perhaps, before a slash, a directory. -/
theorem exists_parted (p : String) : ∃ n, Parted p (List.replicate n '/') := by
  obtain ⟨n, hn⟩ := exists_slashes p
  refine ⟨n, ?_⟩
  have htrimmed : (reversedTrimmed p).reverse =
      ((reversedTrimmed p).dropWhile (· ≠ '/')).reverse ++ (basename p).toList := by
    rw [basename, String.toList_ofList, ← List.reverse_append, List.takeWhile_append_dropWhile]
  rw [htrimmed] at hn
  -- Either the path is its last segment, or a slash stands before it.
  cases hrest : (reversedTrimmed p).dropWhile (· ≠ '/') with
  | nil =>
    refine .alone ?_ ?_
    · rw [← String.toList_inj, hn, hrest, String.toList_append, String.toList_ofList,
        List.reverse_nil, List.nil_append]
    · rw [dirname, hrest]
  | cons c before =>
    obtain rfl : c = '/' := by
      have hhead := List.head?_dropWhile_not (fun c : Char => decide (c ≠ '/')) (reversedTrimmed p)
      rw [hrest] at hhead
      exact not_not.mp (of_decide_eq_false hhead)
    have hwhole :
        p = String.ofList before.reverse ++ "/" ++ basename p ++
          String.ofList (List.replicate n '/') := by
      rw [← String.toList_inj, hn, hrest]
      simp
    have hdirname := dirname.eq_1 p
    rw [hrest] at hdirname
    dsimp only at hdirname
    split at hdirname
    · exact .inside "" "/" hwhole hdirname (by decide)
    · exact .inside "/" "//" hwhole hdirname (by decide)
    · next hne _ =>
      refine .inside _ _ hwhole hdirname (Or.inl ⟨rfl, fun hempty => hne ?_⟩)
      simpa using hempty

theorem slash_not_mem_basename (p : String) : '/' ∉ (basename p).toList := by
  rw [basename, String.toList_ofList, List.mem_reverse]
  intro hmem
  have hslash := List.all_eq_true.mp List.all_takeWhile _ hmem
  exact of_decide_eq_true hslash rfl

section

variable (p : String) {e : String}

theorem reversedTrimmed_append (he : '/' ∉ e.toList) (hne : e ≠ "") :
    reversedTrimmed (p ++ e) = e.toList.reverse ++ p.toList.reverse := by
  obtain ⟨c, cs, hcs⟩ : ∃ c cs, e.toList.reverse = c :: cs :=
    List.exists_cons_of_ne_nil (List.reverse_ne_nil_iff.mpr (mt String.toList_eq_nil_iff.mp hne))
  have hc : c ≠ '/' := by
    rintro rfl
    exact he (List.mem_reverse.mp (hcs ▸ List.mem_cons_self))
  rw [reversedTrimmed, String.toList_append, List.reverse_append, hcs, List.cons_append,
    List.dropWhile_cons_of_neg (by simpa using hc)]

theorem not_slash_of_mem_reverse (he : '/' ∉ e.toList) :
    ∀ c ∈ e.toList.reverse, decide (c ≠ '/') = true :=
  fun _ hc => decide_eq_true fun heq => he (heq ▸ List.mem_reverse.mp hc)

/-- What has no slash in it goes into the last segment. -/
theorem exists_basename_append (he : '/' ∉ e.toList) (hne : e ≠ "") :
    ∃ b, basename (p ++ e) = b ++ e := by
  refine ⟨String.ofList (p.toList.reverse.takeWhile (· ≠ '/')).reverse, ?_⟩
  rw [basename, reversedTrimmed_append p he hne,
    List.takeWhile_append_of_pos (not_slash_of_mem_reverse he), List.reverse_append,
      List.reverse_reverse, String.ofList_append, String.ofList_toList]

/-- What has no slash in it has no part in the directory around a path. -/
theorem dirname_append {f : String} (he : '/' ∉ e.toList) (hne : e ≠ "") (hf : '/' ∉ f.toList)
    (hf_ne : f ≠ "") :
    dirname (p ++ e) = dirname (p ++ f) := by
  rw [dirname, dirname, reversedTrimmed_append p he hne, reversedTrimmed_append p hf hf_ne,
    List.dropWhile_append_of_pos (not_slash_of_mem_reverse he),
    List.dropWhile_append_of_pos (not_slash_of_mem_reverse hf), isAbsolute_append p he,
      isAbsolute_append p hf]

end

end Path

namespace CommandLine.Directory

open WasmScript.Path
open WasmScript.Units (written)

/-- Where the walk along a path starts, the last segment first. -/
def start (d : Directory) (path : String) : List String :=
  if isAbsolute path then [] else pushSegments true [] (Path.split d.cwd)

/-- The walk along a path, the last segment first. -/
def walk (d : Directory) (path : String) :
    List String := pushSegments true (d.start path) (Path.split path)

variable {d : Directory}

/-- The place of a path is where it is walked to. -/
theorem locate_eq (hcwd : isAbsolute d.cwd = true) (path : String) :
    d.locate path = ((d.walk path).map written).reverse := by
  have hwalk {whole : String} (habsolute : isAbsolute whole = true) :
      segments (written whole) =
        ((pushSegments true [] (Path.split whole)).map written).reverse := by
    rw [segments, isAbsolute_written habsolute, split_written, ← pushSegments_written, List.map_nil]
  rw [locate, walk, start]
  split
  · next habsolute => exact hwalk habsolute
  · have habsolute : isAbsolute (d.cwd ++ "/" ++ path) = true := by
      rw [String.append_assoc]
      exact isAbsolute_append_left hcwd _
    rw [hwalk habsolute, split_slash, pushSegments_append]

theorem start_congr {path path' : String} (h : isAbsolute path = isAbsolute path') :
    d.start path = d.start path' := by
  rw [start, start, h]

/-- The shortest form of a path is walked to where the path is. -/
theorem walk_normalize (d : Directory) (path : String) : d.walk (normalize path) = d.walk path := by
  obtain ⟨habsolute, hpush⟩ := normalize_spec path
  have hstart : isAbsolute path = true → d.start path = [] := fun h => if_pos h
  rw [walk, walk, start_congr habsolute, hpush, segments]
  exact pushSegments_shortest (Path.split path) hstart (List.forall_mem_nil _)

/-- A name is one more step from the directory in which it is. -/
theorem walk_join (d : Directory) (parent : String) {name : String} (hname : '/' ∉ name.toList)
    (hne : name ≠ "") :
    d.walk (join parent name) = pushSegments true (d.walk parent) [name] := by
  by_cases hparent : parent = ""
  · have hstart : d.start name = d.start "" := start_congr (not_isAbsolute_of_not_mem hname)
    have hempty : d.walk "" = d.start "" := pushSegments_stay (Or.inl rfl)
    rw [join, if_pos hparent, walk_normalize, hparent, hempty, ← hstart, walk,
      split_of_not_mem hname]
  · rw [join, if_neg hparent, if_neg hne, walk_normalize, walk, walk, split_slash,
      pushSegments_append, split_of_not_mem hname, String.append_assoc,
        start_congr (isAbsolute_append_of_ne hparent _)]

/-- The last segment of a path is one more step from the directory that is written before it. -/
theorem walk_eq_basename (d : Directory) (path : String) :
    d.walk path = pushSegments true (d.walk (dirname path)) [basename path] := by
  obtain ⟨n, hparted⟩ := exists_parted path
  have hlast : Path.split (basename path) = [basename path] :=
    split_of_not_mem (slash_not_mem_basename path)
  cases hparted with
  | alone hpath hdirname =>
    have hdirectory : d.walk (dirname path) = d.start path := by
      rw [hdirname, start]
      split
      · rfl
      · rfl
    have hwalk : d.walk path = pushSegments true (d.start path) (Path.split (basename path)) := by
      rw [← pushSegments_slashes _ _ _ n, ← hpath, walk]
    rw [hwalk, hlast, hdirectory]
  | inside before directory hpath hdirname hbefore =>
    have hdirectory : d.walk directory = pushSegments true (d.start path) (Path.split before) := by
      rcases hbefore with ⟨rfl, hne⟩ | hroot
      · have habsolute : isAbsolute before = isAbsolute path := by
          rw [hpath, String.append_assoc, String.append_assoc, isAbsolute_append_of_ne hne]
        rw [walk, start_congr habsolute]
      · have hstart {p : String} (habsolute : isAbsolute p = true) : d.start p = [] :=
          if_pos habsolute
        -- A root is where absolute paths start, whether it is written with one slash or with two.
        have hroots : ∀ e ∈ [("", "/"), ("/", "//")], isAbsolute e.2 = true ∧
            isAbsolute (e.1 ++ "/") = true ∧
            pushSegments true [] (Path.split e.2) = pushSegments true [] (Path.split e.1) := by
              decide
        obtain ⟨hsecond, hfirst, hsame⟩ := hroots _ hroot
        have habsolute : isAbsolute path = true := by
          rw [hpath, String.append_assoc]
          exact isAbsolute_append_left hfirst _
        rw [walk, hstart hsecond, hstart habsolute, hsame]
    have hwalk :
        d.walk path =
          pushSegments true (d.start path) (Path.split (before ++ "/" ++ basename path)) := by
      rw [← pushSegments_slashes _ _ _ n, ← hpath, walk]
    rw [hwalk, split_slash, pushSegments_append, hlast, hdirname, hdirectory]

/-- A path with an ending leads into the directory that is written before its last segment. -/
theorem exists_locate_dirname (hcwd : isAbsolute d.cwd = true) (p : String) {e : String}
    (he : IsEnding e) :
    ∃ name, d.locate (p ++ e) = d.locate (dirname (p ++ e)) ++ [name] := by
  obtain ⟨b, hb⟩ := exists_basename_append p he.slash (he.ne_empty "")
  refine ⟨written (b ++ e), ?_⟩
  rw [locate_eq hcwd, locate_eq hcwd, walk_eq_basename, hb, pushSegments_ending he, List.map_cons,
    List.reverse_cons]

/-- The directory that is written before the last segment of a path is that in which the path leads
to something, or that place itself, or one in it. -/
theorem locate_dirname_cases (hcwd : isAbsolute d.cwd = true) (path : String) :
    d.locate path = d.locate (dirname path) ∨ d.locate path = (d.locate (dirname path)).dropLast ∨
      ∃ name, d.locate path = d.locate (dirname path) ++ [name] := by
  rw [locate_eq hcwd path, locate_eq hcwd (dirname path), walk_eq_basename]
  rcases pushSegments_cases true (d.walk (dirname path)) (basename path) with
    hstay | hback | ⟨name, hname⟩
  · exact Or.inl (by rw [hstay])
  · exact Or.inr (Or.inl (by rw [hback, List.map_tail, List.dropLast_reverse]))
  · exact Or.inr (Or.inr ⟨written name, by rw [hname, List.map_cons, List.reverse_cons]⟩)

/-- A name with an ending goes to the directory before which it is put. -/
theorem locate_dirname_join (hcwd : isAbsolute d.cwd = true) (parent : String) {stem e : String}
    (hstem : '/' ∉ stem.toList) (he : IsEnding e) : d.locate (dirname (join parent (stem ++ e))) =
      d.locate parent := by
  have hname : '/' ∉ (stem ++ e).toList := by
    rw [String.toList_append, List.mem_append, not_or]
    exact ⟨hstem, he.slash⟩
  obtain ⟨t, ht⟩ := exists_join_append parent stem he
  obtain ⟨name, hlocate⟩ := exists_locate_dirname hcwd t he
  have hjoin : d.locate (join parent (stem ++ e)) = d.locate parent ++ [written (stem ++ e)] := by
    rw [locate_eq hcwd, locate_eq hcwd, walk_join d parent hname (he.ne_empty stem),
      pushSegments_ending he, List.map_cons, List.reverse_cons]
  rw [← ht, hjoin] at hlocate
  exact (List.append_inj' hlocate rfl).1.symm

end CommandLine.Directory

namespace CommandLine

open WasmScript.Path

/-- The script of an input goes to one directory, which is that of the input if no other is
given. -/
theorem locate_dirname_outputPath {d : Directory} (hcwd : isAbsolute d.cwd = true) (file : String)
    (output : Option String) :
    d.locate (dirname (outputPath file output)) =
      match output with
      | none => d.locate (dirname file)
      | some output =>
        if isScriptPath output then d.locate (dirname output) else d.locate output := by
  have hjs : IsEnding ".js" := (isEnding_of_mem (".js", ".d.ts") List.mem_cons_self).1
  have hstem : '/' ∉ (withoutSuffix (basename file) ".wasm").toList := by
    have hbasename := slash_not_mem_basename file
    rw [withoutSuffix]
    split
    · rw [String.toList_ofList]
      exact fun hmem => hbasename (List.mem_of_mem_take hmem)
    · exact hbasename
  cases output with
  | none => exact d.locate_dirname_join hcwd (dirname file) hstem hjs
  | some output =>
    unfold outputPath
    dsimp only
    split
    · rfl
    · exact d.locate_dirname_join hcwd output hstem hjs

/-- A script and its declarations go into one directory. -/
theorem exists_locate_outputPaths {d : Directory} (hcwd : isAbsolute d.cwd = true) {path : String}
    (h : isScriptPath path = true) : dirname (declarationPath path) = dirname path ∧
      ∀ p ∈ [path, declarationPath path], ∃ name,
        d.locate p = d.locate (dirname path) ++ [name] := by
  obtain ⟨stem, e, he, rfl, hdeclared⟩ := exists_stem h
  obtain ⟨hscript, hdeclaration⟩ := isEnding_of_mem e he
  have hdirname : dirname (declarationPath (stem ++ e.1)) = dirname (stem ++ e.1) := by
    rw [hdeclared]
    exact dirname_append stem hdeclaration.slash (hdeclaration.ne_empty "") hscript.slash
      (hscript.ne_empty "")
  refine ⟨hdirname, fun p hp => ?_⟩
  rcases List.mem_pair.mp hp with rfl | rfl
  · exact d.exists_locate_dirname hcwd stem hscript
  · rw [← hdirname, hdeclared]
    exact d.exists_locate_dirname hcwd stem hdeclaration

end CommandLine

end WasmScript
