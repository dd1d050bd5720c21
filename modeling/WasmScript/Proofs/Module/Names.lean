/-
  WasmScript/Proofs/Module/Names.lean
  ===================================
  **Names as bytes and as texts** — which names are kept as a module gives them.

  A name is read as the text of its bytes in UTF-8, but without a byte order mark at its
  start.  So a name is kept just if its bytes do not start with the mark (`Marked`), and two
  names that are read as one text are the same bytes just if both or neither of them do.
  The second of two such exports is refused as a duplicate.
-/
import WasmScript.Module.Decode.Module
import WasmScript.Proofs.Module.Ensures
import WasmScript.Proofs.Module.Sections
import WasmScript.Proofs.Sequences

namespace WasmScript

namespace Parser

/-! ### Byte order marks -/

def mark : ByteArray := ⟨#[0xEF, 0xBB, 0xBF]⟩

theorem mark_eq : mark = ['\uFEFF'].utf8Encode := by decide

/-- Bytes that start with the mark. -/
def Marked (x : ByteArray) : Prop := ∃ y, x = mark ++ y

variable {x y : ByteArray} {s t : String}

theorem dropMark_mark_append (y : ByteArray) : dropMark (mark ++ y) = y := by
  have hhead : (mark ++ y).extract 0 3 = mark := ByteArray.extract_append_eq_left rfl
  rw [dropMark, hhead, if_pos (by decide)]
  exact ByteArray.extract_append_eq_right rfl ByteArray.size_append

theorem dropMark_of_not_marked (h : ¬ Marked x) : dropMark x = x := by
  rw [dropMark, if_neg]
  intro hmark
  refine h ⟨x.extract 3 x.size, ?_⟩
  have hhead : x.extract 0 3 = mark := ByteArray.ext (Array.ext' hmark)
  rw [← hhead, ByteArray.extract_append_extract, Nat.min_eq_left (Nat.zero_le 3),
    ByteArray.extract_zero_max_size]

/-- Bytes are kept just if they do not start with the mark. -/
theorem dropMark_eq_self_iff : dropMark x = x ↔ ¬ Marked x := by
  constructor
  · rintro hsame ⟨y, rfl⟩
    rw [dropMark_mark_append] at hsame
    have hsize := congrArg ByteArray.size hsame
    rw [ByteArray.size_append] at hsize
    have hmark : mark.size = 3 := rfl
    omega
  · exact dropMark_of_not_marked

/-- A text in UTF-8 starts with the mark just if the mark is its first character. -/
theorem marked_toUTF8_iff : Marked s.toUTF8 ↔ s.toList.head? = some '\uFEFF' := by
  constructor
  · rintro ⟨y, hy⟩
    rw [mark_eq] at hy
    obtain ⟨cs, hcs⟩ := Units.toList_cons_of_toUTF8 hy
    rw [hcs]
    rfl
  · intro hhead
    obtain ⟨cs, hcs⟩ := List.head?_eq_some_iff.mp hhead
    refine ⟨cs.utf8Encode, ?_⟩
    rw [mark_eq, ← List.utf8Encode_cons, ← hcs]
    exact String.utf8Encode_toList.symm

/-! ### Texts of bytes -/

theorem fromUTF8?_eq_some_iff : String.fromUTF8? x = some s ↔ x = s.toUTF8 := by
  constructor
  · intro h
    unfold String.fromUTF8? at h
    split at h
    · cases h
      rfl
    · cases h
  · rintro rfl
    exact Units.fromUTF8?_toUTF8 s

theorem text?_eq_some_iff :
    text? x = some t ↔ ∃ s : String, dropMark x = s.toUTF8 ∧ Units.carried s = t := by
  simp only [text?, Units.ofUTF8?, Option.map_eq_some_iff, fromUTF8?_eq_some_iff]

theorem toUTF8_carried (s : String) : Units.toUTF8 (Units.carried s) = s.toUTF8 := by
  rw [Units.toUTF8, Units.written_carried]

/-- A text is written as the bytes that it was read from just if these do not start with the
mark. -/
theorem toUTF8_eq_iff (h : text? x = some t) : Units.toUTF8 t = x ↔ ¬ Marked x := by
  obtain ⟨s, hs, rfl⟩ := text?_eq_some_iff.mp h
  rw [toUTF8_carried, ← hs, dropMark_eq_self_iff]

/-- Bytes of one text are the same just if both or neither of them start with the mark. -/
theorem eq_iff_marked (hx : text? x = some t) (hy : text? y = some t) :
    x = y ↔ (Marked x ↔ Marked y) := by
  obtain ⟨s, hs, rfl⟩ := text?_eq_some_iff.mp hx
  obtain ⟨s', hs', hcarried⟩ := text?_eq_some_iff.mp hy
  have hwritten := congrArg Units.written hcarried
  rw [Units.written_carried, Units.written_carried] at hwritten
  have hdrop : dropMark x = dropMark y := by rw [hs, hs', hwritten]
  constructor
  · rintro rfl
    exact Iff.rfl
  · intro hmarked
    by_cases h : Marked x
    · obtain ⟨a, rfl⟩ := h
      obtain ⟨b, rfl⟩ := hmarked.mp ⟨a, rfl⟩
      rw [dropMark_mark_append, dropMark_mark_append] at hdrop
      rw [hdrop]
    · rwa [dropMark_of_not_marked h, dropMark_of_not_marked (mt hmarked.mpr h)] at hdrop

/-- Only bytes in UTF-8 have a text. -/
theorem isValidUTF8_of_text? (h : text? x = some t) : x.IsValidUTF8 := by
  obtain ⟨s, hs, -⟩ := text?_eq_some_iff.mp h
  by_cases hmarked : Marked x
  · obtain ⟨y, rfl⟩ := hmarked
    rw [dropMark_mark_append] at hs
    rw [mark_eq, ByteArray.isValidUTF8_utf8Encode_singleton_append_iff, hs]
    exact s.isValidUTF8
  · rw [dropMark_of_not_marked hmarked] at hs
    rw [hs]
    exact s.isValidUTF8

/-- The bytes of a text are read as that text just if they do not start with the mark. -/
theorem exists_text?_toUTF8 (s : String) :
    ∃ t, text? s.toUTF8 = some t ∧ (t = Units.carried s ↔ ¬ Marked s.toUTF8) := by
  have hvalid : (dropMark s.toUTF8).IsValidUTF8 := by
    by_cases hmarked : Marked s.toUTF8
    · obtain ⟨y, hy⟩ := hmarked
      have hall : s.toUTF8.IsValidUTF8 := s.isValidUTF8
      rw [hy, mark_eq, ByteArray.isValidUTF8_utf8Encode_singleton_append_iff] at hall
      rwa [hy, dropMark_mark_append]
    · rw [dropMark_of_not_marked hmarked]
      exact s.isValidUTF8
  have hsome : text? s.toUTF8 = some (Units.carried (String.fromUTF8 _ hvalid)) :=
    text?_eq_some_iff.mpr ⟨String.fromUTF8 _ hvalid, rfl, rfl⟩
  refine ⟨_, hsome, ?_⟩
  rw [← toUTF8_eq_iff hsome, toUTF8_carried]
  constructor
  · intro heq
    have hwritten := congrArg Units.written heq
    rwa [Units.written_carried, Units.written_carried, ← String.toByteArray_inj] at hwritten
  · intro hbytes
    rw [String.toByteArray_inj.mp hbytes]

/-! ### Names -/

/-- A name as bytes: a length and as many bytes. -/
def encoded : Parser ByteArray := do bytes (← u32)

/-- A name is read as the text of its bytes, or refused where it starts. -/
theorem name_eq (r : Reader) :
    name r =
      match encoded r with
      | .ok x r' =>
        match text? x with
        | some t => .ok t r'
        | none => .error ⟨.invalidUtf8, r'.sectionName, r.pos⟩ r'
      | .error e r' => .error e r' := by
  change (u32 >>= fun length => bytes length >>= _) r = _
  have hencoded : encoded r = (u32 >>= bytes) r := rfl
  cases hlength : u32 r with
  | error e r₁ => rw [hencoded, bind_at_error hlength, bind_at_error hlength]
  | ok length r₁ =>
    rw [hencoded, bind_at_ok hlength, bind_at_ok hlength]
    cases hbytes : bytes length r₁ with
    | error e r₂ => rw [bind_at_error hbytes]
    | ok x r₂ =>
      rw [bind_at_ok hbytes]
      dsimp only
      cases text? x <;> rfl

/-- A name that is given is the text of bytes. -/
theorem name_eq_ok {t : String} {r r' : Reader} (h : name r = .ok t r') :
    ∃ x, encoded r = .ok x r' ∧ text? x = some t := by
  rw [name_eq] at h
  split at h
  · next x r₁ hencoded =>
    split at h
    · next t' htext =>
      cases h
      exact ⟨x, hencoded, htext⟩
    · cases h
  · cases h

theorem accepts_encoded {x : ByteArray} {cs : List UInt8} (hcs : Leb128.Unsigned 32 x.size cs) :
    encoded.Accepts (cs ++ x.data.toList) (· = x) := by
  have hsame : (bytes x.size).Accepts x.data.toList (·.data.toList = x.data.toList) := accepts_bytes
  have hbytes : (bytes x.size).Accepts x.data.toList (· = x) :=
    hsame.mono fun found hfound => ByteArray.ext (Array.ext' hfound)
  exact .step (accepts_u32 hcs) hbytes

/-! ### Causes of faults -/

/-- Whatever a parser fails with has a cause of some kind. -/
def FailsOnly {α : Type} (p : Parser α) (P : DecodeCause → Prop) : Prop :=
  ∀ r e r', p r = .error e r' → P e.cause

/-- A fault other than an export with the name of another one. -/
def NotDuplicate (c : DecodeCause) : Prop := ∀ label, c ≠ .duplicateExport label

namespace FailsOnly

variable {α β : Type} {P : DecodeCause → Prop}

theorem bind {p : Parser α} {k : α → Parser β} (hp : p.FailsOnly P) (hk : ∀ a, (k a).FailsOnly P) :
    (p >>= k).FailsOnly P := by
  intro r e r' h
  rcases bind_at_eq_error h with hfirst | ⟨a, r₁, -, hthen⟩
  · exact hp r e r' hfirst
  · exact hk a r₁ e r' hthen

theorem pure (a : α) : (Pure.pure a : Parser α).FailsOnly P := fun _ _ _ h => nomatch h

theorem failAt {c : DecodeCause} (hc : P c) (offset : Nat) :
    (failAt c offset : Parser α).FailsOnly P := by
  rintro r _ r' ⟨⟩
  exact hc

theorem fail {c : DecodeCause} (hc : P c) : (fail c : Parser α).FailsOnly P := by
  rintro r _ r' ⟨⟩
  exact hc

end FailsOnly

theorem failsOnly_position {P : DecodeCause → Prop} :
    position.FailsOnly P := fun _ _ _ h => nomatch h

theorem failsOnly_remaining {P : DecodeCause → Prop} :
    remaining.FailsOnly P := fun _ _ _ h => nomatch h

theorem failsOnly_byte : byte.FailsOnly NotDuplicate := by
  intro r e r' h
  unfold byte at h
  split at h
  · cases h
  · cases h
    exact nofun

theorem failsOnly_bytes (length : Nat) : (bytes length).FailsOnly NotDuplicate := by
  intro r e r' h
  unfold bytes at h
  split at h
  · cases h
    exact nofun
  · cases h

theorem failsOnly_u32Loop (start left : Nat) :
    ∀ i result, (u32Loop start left i result).FailsOnly NotDuplicate := by
  induction left with
  | zero => exact fun i result => .failAt nofun start
  | succ left ih =>
    refine fun i result => .bind failsOnly_byte fun b => ?_
    split
    · exact .failAt nofun start
    · split
      · exact .pure _
      · exact ih _ _

theorem failsOnly_u32 : u32.FailsOnly NotDuplicate :=
  .bind failsOnly_position fun start => failsOnly_u32Loop start 5 0 0

theorem failsOnly_name : name.FailsOnly NotDuplicate := by
  refine .bind failsOnly_position fun start => .bind failsOnly_u32 fun length =>
    .bind (failsOnly_bytes length) fun content => ?_
  split
  · exact .pure _
  · exact .failAt nofun start

theorem failsOnly_vectorCount : vectorCount.FailsOnly NotDuplicate := by
  refine .bind failsOnly_u32 fun count => .bind failsOnly_remaining fun left => ?_
  split
  · exact .fail nofun
  · exact .pure count

end Parser

namespace Decode

open WasmScript.Parser

/-! ### Exports -/

variable {m : Module} {read : Array Export} {r r' : Reader}

/-- What stands after the name of an export. -/
def exportTarget (m : Module) (label : String) : Parser Export := do
  let descriptor ← position
  let kind ← byte
  let index ← u32
  match exportKind? m kind with
  | some (kind, bound) =>
    if index < bound then pure ⟨label, kind, index⟩
      else failAt (.exportTarget label kind index) descriptor
  | none => failAt (.exportKind kind) descriptor

/-- An export is its name, unless an earlier one has it, and what stands after that. -/
theorem exportEntry_eq (r : Reader) :
    exportEntry m read r =
      match name r with
      | .ok label r₁ =>
        if read.any fun e =>
          e.name = label then .error ⟨.duplicateExport label, r₁.sectionName, r.pos⟩ r₁
        else exportTarget m label r₁
      | .error e r₁ => .error e r₁ := by
  change (name >>= _) r = _
  cases hname : name r with
  | error e r₁ => rw [bind_at_error hname]
  | ok label r₁ =>
    rw [bind_at_ok hname]
    dsimp only
    split
    · rfl
    · rfl

theorem ensures_exportTarget (label : String) :
    (exportTarget m label).Ensures (·.name = label) := by
  refine .next fun descriptor => .next fun kind => .next fun index => ?_
  split
  · split
    · exact ensures_pure rfl
    · exact ensures_failAt _ _
  · exact ensures_failAt _ _

theorem failsOnly_exportTarget (label : String) :
    (exportTarget m label).FailsOnly NotDuplicate := by
  refine .bind failsOnly_position fun descriptor => .bind failsOnly_byte fun kind =>
    .bind failsOnly_u32 fun index => ?_
  split
  · split
    · exact .pure _
    · exact .failAt nofun descriptor
  · exact .failAt nofun descriptor

/-- An export has the name that is read first. -/
theorem exportEntry_eq_ok {e : Export} (h : exportEntry m read r = .ok e r') :
    ∃ x r₁, encoded r = .ok x r₁ ∧ text? x = some e.name := by
  rw [exportEntry_eq] at h
  split at h
  · next label r₁ hname =>
    split at h
    · cases h
    · obtain ⟨x, hx, htext⟩ := name_eq_ok hname
      rw [← ensures_exportTarget label _ _ _ h] at htext
      exact ⟨x, r₁, hx, htext⟩
  · cases h

/-- An export is refused as a duplicate only for the name of an earlier one. -/
theorem exportEntry_duplicate {e : DecodeError} {label : String}
    (h : exportEntry m read r = .error e r') (hcause : e.cause = .duplicateExport label) :
    (∃ x r₁, encoded r = .ok x r₁ ∧ text? x = some label) ∧ ∃ d ∈ read.toList, d.name = label := by
  rw [exportEntry_eq] at h
  split at h
  · next found r₁ hname =>
    split at h
    · next hseen =>
      cases h
      cases hcause
      obtain ⟨x, hx, htext⟩ := name_eq_ok hname
      obtain ⟨d, hd, hsame⟩ := Array.any_eq_true'.mp hseen
      exact ⟨⟨x, _, hx, htext⟩, d, Array.mem_toList_iff.mpr hd, of_decide_eq_true hsame⟩
    · exact absurd hcause (failsOnly_exportTarget found _ _ _ h label)
  · next hname =>
    cases h
    exact absurd hcause (failsOnly_name _ _ _ hname label)

/-- Exports with their names as bytes, and where a reader goes while it reads them. -/
inductive ExportsRead (m : Module) (r : Reader) :
    Array Export → List ByteArray → Reader → Prop where
  | none : ExportsRead m r #[] [] r
  | more {es : Array Export} {xs : List ByteArray} {r₁ r₂ r₃ : Reader} {e : Export}
      {x : ByteArray} :
      ExportsRead m r es xs r₁ → encoded r₁ = .ok x r₂ → exportEntry m es r₁ = .ok e r₃ →
      ExportsRead m r (es.push e) (xs ++ [x]) r₃

/-- Each export has the text of its bytes for a name. -/
theorem ExportsRead.texts {es : Array Export} {xs : List ByteArray} (h : ExportsRead m r es xs r') :
    List.Forall₂ (fun e x => text? x = some e.name) es.toList xs := by
  induction h with
  | none => exact .nil
  | more _ hx he ih =>
    obtain ⟨x, r₁, hx', htext⟩ := exportEntry_eq_ok he
    cases hx.symm.trans hx'
    rw [Array.toList_push]
    exact List.rel_append ih (.cons htext .nil)

theorem exists_of_mem_forall₂ {α β : Type} {R : α → β → Prop} {as : List α} {bs : List β}
    (h : List.Forall₂ R as bs) {a : α} (ha : a ∈ as) : ∃ b ∈ bs, R a b := by
  induction h with
  | nil => cases ha
  | cons hhead _ ih =>
    rcases List.mem_cons.mp ha with rfl | ha
    · exact ⟨_, List.mem_cons_self, hhead⟩
    · obtain ⟨b, hb, hab⟩ := ih ha
      exact ⟨b, List.mem_cons_of_mem _ hb, hab⟩

/-- Exports are read one after another, up to the one that is refused if there is any. -/
theorem exportEntries_cases (count : Nat) {es : Array Export} {xs : List ByteArray} {r₁ : Reader} :
    ExportsRead m r es xs r₁ →
      (∀ all r', exportEntries m count es r₁ = .ok all r' → ∃ ys, ExportsRead m r all ys r') ∧
      ∀ e r', exportEntries m count es r₁ = .error e r' →
        ∃ all ys r₂, ExportsRead m r all ys r₂ ∧ exportEntry m all r₂ = .error e r' := by
  -- The induction is on the entries that are left, with those that have been read behind it.
  induction count generalizing es xs r₁ with
  | zero =>
    intro h
    refine ⟨?_, nofun⟩
    rintro all r' ⟨⟩
    exact ⟨xs, h⟩
  | succ count ih =>
    intro h
    cases he : exportEntry m es r₁ with
    | error e r₂ =>
      have hstop : exportEntries m (count + 1) es r₁ = .error e r₂ := bind_at_error he
      rw [hstop]
      refine ⟨nofun, ?_⟩
      rintro _ _ ⟨⟩
      exact ⟨es, xs, r₁, h, he⟩
    | ok e r₂ =>
      obtain ⟨x, r₃, hx, -⟩ := exportEntry_eq_ok he
      have hnext : exportEntries m (count + 1) es r₁ = exportEntries m count (es.push e) r₂ :=
        bind_at_ok he
      rw [hnext]
      exact ih (h.more hx he)

/-! ### Imports -/

/-- A module with one import more, of a function or of the memory. -/
inductive AddsImport (m : Module) (source field : String) : Module → Prop where
  | function (index : Nat) :
      AddsImport m source field { m with imports := m.imports.push ⟨source, field, index⟩ }
  | memory (found : Limits) :
      AddsImport m source field
        { m with memory := some found, memoryImport := some ⟨source, field⟩ }

/-- An import has the two names that are read first. -/
theorem importEntry_eq_ok {m' : Module} (h : importEntry m r = .ok m' r') :
    ∃ x r₁ y r₂ source field, encoded r = .ok x r₁ ∧ encoded r₁ = .ok y r₂ ∧
      text? x = some source ∧ text? y = some field ∧ AddsImport m source field m' := by
  obtain ⟨source, r₁, hsource, hafter⟩ := bind_at_eq_ok h
  obtain ⟨field, r₂, hfield, hrest⟩ := bind_at_eq_ok hafter
  obtain ⟨x, hx, htext⟩ := name_eq_ok hsource
  obtain ⟨y, hy, htext'⟩ := name_eq_ok hfield
  refine ⟨x, r₁, y, r₂, source, field, hx, hy, htext, htext', ?_⟩
  obtain ⟨pos, r₃, -, hkind⟩ := bind_at_eq_ok hrest
  obtain ⟨kind, r₄, -, hadds⟩ := bind_at_eq_ok hkind
  split at hadds
  · obtain ⟨index, r₅, -, hpure⟩ := bind_at_eq_ok hadds
    cases hpure
    exact .function index
  · cases hadds
  · split at hadds
    · cases hadds
    · obtain ⟨found, r₅, -, hpure⟩ := bind_at_eq_ok hadds
      cases hpure
      exact .memory found
  · cases hadds
  · cases hadds

def importedNames (m : Module) : List (String × String) :=
  (m.imports.toList.map fun f => (f.module, f.name)) ++ m.memoryImport.toList.map fun i =>
    (i.module, i.name)

theorem AddsImport.names {source field : String} {m' : Module} (h : AddsImport m source field m')
    {names : String × String} (hnames : names ∈ importedNames m') :
    names ∈ importedNames m ∨ names = (source, field) := by
  cases h with
  | function index =>
    simp only [importedNames, Array.toList_push, List.map_append, List.map_cons, List.map_nil,
      List.mem_append, List.mem_singleton] at hnames ⊢
    tauto
  | memory found =>
    simp only [importedNames, Option.toList_some, List.map_cons, List.map_nil, List.mem_append,
      List.mem_singleton] at hnames ⊢
    tauto

/-- Imports, with their names as bytes, are read into a module. -/
inductive ImportsRead (m : Module) (r : Reader) :
    Module → List (ByteArray × ByteArray) → Reader → Prop where
  | none : ImportsRead m r m [] r
  | more {m₁ m₂ : Module} {xs : List (ByteArray × ByteArray)} {r₁ r₂ r₃ r₄ : Reader}
      {x y : ByteArray} :
      ImportsRead m r m₁ xs r₁ → encoded r₁ = .ok x r₂ → encoded r₂ = .ok y r₃ →
      importEntry m₁ r₁ = .ok m₂ r₄ → ImportsRead m r m₂ (xs ++ [(x, y)]) r₄

/-- Each import that was read has the texts of its bytes for names. -/
theorem ImportsRead.texts {m' : Module} {xs : List (ByteArray × ByteArray)}
    (h : ImportsRead m r m' xs r') :
    ∀ names ∈ importedNames m', names ∈ importedNames m ∨
      ∃ q ∈ xs, text? q.1 = some names.1 ∧ text? q.2 = some names.2 := by
  induction h with
  | none => exact fun names hnames => .inl hnames
  | more _ hx hy hentry ih =>
    obtain ⟨x, r₁, y, r₂, source, field, hx', hy', htext, htext', hadds⟩ := importEntry_eq_ok hentry
    cases hx.symm.trans hx'
    cases hy.symm.trans hy'
    intro names hnames
    rcases hadds.names hnames with hbefore | rfl
    · obtain hold | ⟨q, hq, htexts⟩ := ih names hbefore
      · exact .inl hold
      · exact .inr ⟨q, List.mem_append_left _ hq, htexts⟩
    · exact .inr ⟨_, List.mem_append_right _ List.mem_cons_self, htext, htext'⟩

/-- Imports are read one after another. -/
theorem importEntries_read (count : Nat) {m' m'' : Module} {xs : List (ByteArray × ByteArray)}
    {r₁ : Reader} :
    ImportsRead m r m' xs r₁ → importEntries count m' r₁ = .ok m'' r' → ∃ ys,
      ImportsRead m r m'' ys r' := by
  induction count generalizing m' xs r₁ with
  | zero =>
    rintro h ⟨⟩
    exact ⟨xs, h⟩
  | succ count ih =>
    intro h hentries
    obtain ⟨next, r₂, hentry, hrest⟩ := bind_at_eq_ok hentries
    obtain ⟨x, r₃, y, r₄, -, -, hx, hy, -⟩ := importEntry_eq_ok hentry
    exact ih (h.more hx hy hentry) hrest

/-! ### Names that are kept -/

/-- Bytes are read as a text, which keeps them just if they do not start with the mark. -/
def ReadAs (x : ByteArray) (t : String) :
    Prop := text? x = some t ∧ (Units.toUTF8 t = x ↔ ¬ Marked x)

theorem readAs_of_text? {x : ByteArray} {t : String} (h : text? x = some t) : ReadAs x t :=
  ⟨h, toUTF8_eq_iff h⟩

/-- A text that is written as a name is read as itself just if its bytes do not start with the
mark. -/
theorem name_encodeName {s : String} (hsize : s.utf8ByteSize < 2 ^ 32) {rest : List UInt8}
    (hr : r.BytesLeft (Assembler.encodeName (Units.carried s) ++ rest)) :
    ∃ t r', name r = .ok t r' ∧ r'.BytesLeft rest ∧ (t = Units.carried s ↔ ¬ Marked s.toUTF8) := by
  have hbytes : Assembler.encodeName (Units.carried s) = Assembler.u32 s.toUTF8.size ++
      s.toUTF8.data.toList := by
    rw [Assembler.encodeName, toUTF8_carried]
    rfl
  rw [hbytes] at hr
  obtain ⟨x, r', hencoded, hleft, hx⟩ := accepts_encoded (Assembler.u32_spec hsize) rest r hr
  obtain ⟨t, htext, hkept⟩ := exists_text?_toUTF8 s
  have hx : x = s.toUTF8 := hx
  refine ⟨t, r', ?_, hleft, hkept⟩
  rw [name_eq, hencoded]
  simp only [hx, htext]

/-- A name that is not in UTF-8 is refused where it starts. -/
theorem name_of_not_valid {x : ByteArray} (hx : ¬ x.IsValidUTF8) {cs rest : List UInt8}
    (hcs : Leb128.Unsigned 32 x.size cs) (hr : r.BytesLeft (cs ++ x.data.toList ++ rest)) :
    ∃ e r', name r = .error e r' ∧ e.cause = .invalidUtf8 ∧ e.offset = r.pos := by
  obtain ⟨found, r', hencoded, -, hfound⟩ := accepts_encoded hcs rest r hr
  cases htext : text? x with
  | some t => exact absurd (isValidUTF8_of_text? htext) hx
  | none =>
    refine ⟨⟨.invalidUtf8, r'.sectionName, r.pos⟩, r', ?_, rfl, rfl⟩
    rw [name_eq, hencoded]
    simp only [hfound, htext]

/-- The exports of a section, one after another, up to the one that is refused if there is any. -/
theorem contents_export (p : Progress) :
    (∀ p' r', contents .export p r = .ok p' r' →
      ∃ r₀ es xs, ExportsRead p.module r₀ es xs r' ∧ p'.module.exports = es.toList) ∧
    ∀ e r' label, contents .export p r = .error e r' → e.cause = .duplicateExport label →
      ∃ r₀ es xs r₁, ExportsRead p.module r₀ es xs r₁ ∧ exportEntry p.module es r₁ =
        .error e r' := by
  have hcontents : contents .export p = (do
      let entries ← exportEntries p.module (← vectorCount) #[]
      pure { p with module := { p.module with exports := entries.toList } }) := rfl
  rw [hcontents]
  constructor
  · intro p' r' h
    obtain ⟨count, r₀, -, hentries⟩ := bind_at_eq_ok h
    obtain ⟨es, r₁, hread, hpure⟩ := bind_at_eq_ok hentries
    cases hpure
    obtain ⟨xs, hxs⟩ := (exportEntries_cases count .none).1 es r' hread
    exact ⟨r₀, es, xs, hxs, rfl⟩
  · intro e r' label h hcause
    rcases bind_at_eq_error h with hcount | ⟨count, r₀, -, hentries⟩
    · exact absurd hcause (failsOnly_vectorCount _ _ _ hcount label)
    · rcases bind_at_eq_error hentries with hread | ⟨es, r₁, -, hpure⟩
      · obtain ⟨es, xs, r₁, hxs, hentry⟩ := (exportEntries_cases count .none).2 e r' hread
        exact ⟨r₀, es, xs, r₁, hxs, hentry⟩
      · cases hpure

/-- The imports of a section, one after another. -/
theorem contents_import {p p' : Progress} (h : contents .import p r = .ok p' r') :
    ∃ r₀ xs, ImportsRead p.module r₀ p'.module xs r' := by
  have hcontents : contents .import p = (do
      let m ← importEntries (← vectorCount) p.module
      pure { p with module := m }) := rfl
  rw [hcontents] at h
  obtain ⟨count, r₀, -, hentries⟩ := bind_at_eq_ok h
  obtain ⟨m', r₁, hread, hpure⟩ := bind_at_eq_ok hentries
  cases hpure
  obtain ⟨xs, hxs⟩ := importEntries_read count .none hread
  exact ⟨r₀, xs, hxs⟩

/-- **Names are kept as a module gives them, except for a byte order mark at their start.**  A text
is read as itself unless it starts with the mark, and what is not in UTF-8 is refused.  Names that
are read as one text are the same bytes unless one of them has the mark and the other has not, and
so are two exports of which the second is refused as a duplicate.  Exports and imports that are
accepted have their bytes for names, but for the mark. -/
theorem names_kept_iff_unmarked (s : String) (x y : ByteArray) (p : Progress) (r : Reader)
    (rest : List UInt8) :
    (s.utf8ByteSize < 2 ^ 32 → r.BytesLeft (Assembler.encodeName (Units.carried s) ++ rest) →
      ∃ t r', name r = .ok t r' ∧ r'.BytesLeft rest ∧ (t = Units.carried s ↔ ¬ Marked s.toUTF8)) ∧
    (¬ x.IsValidUTF8 → ∀ cs, Leb128.Unsigned 32 x.size cs →
      r.BytesLeft (cs ++ x.data.toList ++ rest) →
      ∃ e r', name r = .error e r' ∧ e.cause = .invalidUtf8 ∧ e.offset = r.pos) ∧
    (∀ t, text? x = some t → text? y = some t → (x = y ↔ (Marked x ↔ Marked y))) ∧
    (∀ e r' label, contents .export p r = .error e r' → e.cause = .duplicateExport label →
      ∃ r₀ es xs r₁ a r₂, ExportsRead p.module r₀ es xs r₁ ∧ encoded r₁ = .ok a r₂ ∧
        ReadAs a label ∧
        ∃ b ∈ xs, ReadAs b label ∧ (a = b ↔ (Marked a ↔ Marked b))) ∧
    (∀ p' r', contents .export p r = .ok p' r' →
      ∃ r₀ es xs, ExportsRead p.module r₀ es xs r' ∧ p'.module.exports = es.toList ∧
        List.Forall₂ (fun e a => ReadAs a e.name) es.toList xs) ∧
    (∀ p' r', contents .import p r = .ok p' r' →
      ∃ r₀ xs, ImportsRead p.module r₀ p'.module xs r' ∧
        ∀ names ∈ importedNames p'.module, names ∈ importedNames p.module ∨
          ∃ q ∈ xs, ReadAs q.1 names.1 ∧ ReadAs q.2 names.2) := by
  refine ⟨fun hsize hr => name_encodeName hsize hr, fun hx _ hcs hr => name_of_not_valid hx hcs hr,
    fun _ hx hy => eq_iff_marked hx hy, ?_, ?_, ?_⟩
  -- Two names that read alike are one unless exactly one of them has a mark.
  · intro e r' label h hcause
    obtain ⟨r₀, es, xs, r₁, hread, hentry⟩ := (contents_export p).2 e r' label h hcause
    obtain ⟨⟨a, r₂, ha, htext⟩, d, hd, rfl⟩ := exportEntry_duplicate hentry hcause
    obtain ⟨b, hb, htext'⟩ := exists_of_mem_forall₂ hread.texts hd
    exact ⟨r₀, es, xs, r₁, a, r₂, hread, ha, readAs_of_text? htext, b, hb, readAs_of_text? htext',
      eq_iff_marked htext htext'⟩
  · intro p' r' h
    obtain ⟨r₀, es, xs, hread, hexports⟩ := (contents_export p).1 p' r' h
    exact ⟨r₀, es, xs, hread, hexports, hread.texts.imp fun _ _ => readAs_of_text?⟩
  · intro p' r' h
    obtain ⟨r₀, xs, hread⟩ := contents_import h
    refine ⟨r₀, xs, hread, fun names hnames => ?_⟩
    obtain hold | ⟨q, hq, hfirst, hsecond⟩ := hread.texts names hnames
    · exact .inl hold
    · exact .inr ⟨q, hq, readAs_of_text? hfirst, readAs_of_text? hsecond⟩

/-- A text of one letter has no mark and is read as itself. -/
theorem names_kept_iff_unmarked_plain :
    let r := Reader.ofBytes ⟨(Assembler.encodeName (Units.carried "a")).toArray⟩ "export"
    "a".utf8ByteSize < 2 ^ 32 ∧ r.BytesLeft (Assembler.encodeName (Units.carried "a") ++ []) ∧
      ∃ t r', name r = .ok t r' ∧ r'.BytesLeft [] ∧ t = "a" := by
  intro r
  have hsize : "a".utf8ByteSize < 2 ^ 32 := by decide
  have hr : r.BytesLeft (Assembler.encodeName (Units.carried "a") ++ []) := by
    rw [List.append_nil]
    exact Reader.bytesLeft_ofBytes _ _
  obtain ⟨t, r', hname, hleft, hkept⟩ :=
    (names_kept_iff_unmarked "a" .empty .empty {} r []).1 hsize hr
  have hunmarked : ¬ Marked "a".toUTF8 := by
    rw [marked_toUTF8_iff]
    decide
  have hcarried : Units.carried "a" = "a" := by decide
  exact ⟨hsize, hr, t, r', hname, hleft, (hkept.mpr hunmarked).trans hcarried⟩

/-- What came of a parser, without the reader. -/
def given {α : Type} : EStateM.Result DecodeError Reader α → α ⊕ DecodeError
  | .ok a _ => .inl a
  | .error e _ => .inr e

/-- A letter after a byte order mark is written as a name that is read as the letter alone, and an
export of that name is refused as a duplicate of one with the name of the letter. -/
theorem marked_export_refused :
    let a := Assembler.encodeName "a"
    let marked := Assembler.encodeName "\uFEFFa"
    let p : Progress := { module := { memory := some ⟨1, none⟩ } }
    let exports := (·.module.exports) <$> contents .export p
    let content := 2 :: a ++ [2, 0] ++ marked ++ [2, 0]
    marked ≠ a ∧ given (name (Reader.ofBytes ⟨marked.toArray⟩ "export")) = .inl "a" ∧
      given (exports (Reader.ofBytes ⟨content.toArray⟩ "export")) =
        .inr ⟨.duplicateExport "a", "export", 5⟩ := by
  exact ⟨by decide +kernel, by decide +kernel, by decide +kernel⟩

end Decode

end WasmScript
