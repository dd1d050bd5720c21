/-
  WasmScript/Proofs/Module/Walk.lean
  ==================================
  **From section to section** — how far the reading of a module gets, and what is known there.

  A section is its kind, its size in any encoding and as many bytes of content (`RawSection`).
  What it adds depends on what is known before it, a `Stage`.  `Walk pos secs st st'` says that the
  sections `secs`, the first of them at `pos`, are read one after another and lead from `st` to
  `st'`, wherever these bytes stand.

  Reading is a walk that ends at the end of the input or at a section that fails
  (`Decode.exists_walk`).  So a byte string is a module just if it is the preamble and sections,
  and the stage at their end is complete (`Module.decode_ok_iff`).
-/
import WasmScript.Proofs.Module.Moving
import WasmScript.Proofs.Module.Framing

namespace WasmScript

/-- A section as it stands in the bytes of a module. -/
structure RawSection where
  id : SectionId
  size : List UInt8
  content : List UInt8
  sized : Leb128.Unsigned 32 content.length size

namespace RawSection

def bytes (s : RawSection) : List UInt8 := UInt8.ofNat s.id.number :: (s.size ++ s.content)

theorem length_bytes (s : RawSection) : s.bytes.length = 1 + s.size.length + s.content.length := by
  rw [bytes, List.length_cons, List.length_append]
  omega

theorem bytes_ne_nil (s : RawSection) : s.bytes ≠ [] := List.cons_ne_nil _ _

theorem length_le_flatMap (secs : List RawSection) : secs.length ≤ (secs.flatMap bytes).length := by
  induction secs with
  | nil => exact Nat.le_refl _
  | cons s secs ih =>
    rw [List.flatMap_cons, List.length_append, List.length_cons, length_bytes]
    omega

/-- Where a section ends shows in its own bytes. -/
theorem eq_of_append {s t : RawSection} {bs cs : List UInt8} (h : s.bytes ++ bs = t.bytes ++ cs) :
    s = t ∧ bs = cs := by
  obtain ⟨id, size, content, hsized⟩ := s
  obtain ⟨id', size', content', hsized'⟩ := t
  simp only [bytes, List.cons_append, List.append_assoc, List.cons.injEq] at h
  obtain ⟨hnumber, hrest⟩ := h
  have hid : id = id' := by
    have hall : ∀ id id' : SectionId, UInt8.ofNat id.number = UInt8.ofNat id'.number →
        id = id' := by
      intro id id'
      cases id <;> cases id' <;> decide
    exact hall id id' hnumber
  obtain ⟨hlength, rfl⟩ := hsized.eq_of_append hsized' hrest
  obtain ⟨rfl, rfl⟩ := List.append_inj (List.append_cancel_left hrest) hlength
  exact ⟨by rw [hid], rfl⟩

/-- Of two lists of sections that stand first in the same bytes, one is the start of the other. -/
theorem append_cases : ∀ {front front' : List RawSection} {code code' : List UInt8},
    front.flatMap bytes ++ code = front'.flatMap bytes ++ code' →
      (∃ more, front' = front ++ more ∧ code = more.flatMap bytes ++ code') ∨
        ∃ more, front = front' ++ more ∧ code' = more.flatMap bytes ++ code
  | [], front', _, _, h => .inl ⟨front', rfl, h⟩
  | front, [], _, _, h => .inr ⟨front, rfl, h.symm⟩
  | s :: front, t :: front', _, _, h => by
    rw [List.flatMap_cons, List.flatMap_cons, List.append_assoc, List.append_assoc] at h
    obtain ⟨rfl, hrest⟩ := eq_of_append h
    rcases append_cases hrest with ⟨more, rfl, hcode⟩ | ⟨more, rfl, hcode⟩
    · exact .inl ⟨more, rfl, hcode⟩
    · exact .inr ⟨more, rfl, hcode⟩

/-- The sections that stand first in some bytes are the first ones of all. -/
theorem exists_append_of_flatMap {front secs : List RawSection} {rest : List UInt8}
    (h : front.flatMap bytes ++ rest = secs.flatMap bytes) : ∃ back, secs = front ++ back ∧
      rest = back.flatMap bytes := by
  rw [← List.append_nil (secs.flatMap bytes)] at h
  rcases append_cases h with ⟨back, rfl, hrest⟩ | ⟨more, rfl, hnil⟩
  · exact ⟨back, rfl, hrest.trans (List.append_nil _)⟩
  · obtain ⟨hmore, rfl⟩ := List.append_eq_nil_iff.mp hnil.symm
    have hnone : more = [] := by
      cases more with
      | nil => rfl
      | cons s more => exact absurd (List.append_eq_nil_iff.mp hmore).1 s.bytes_ne_nil
    rw [hnone, List.append_nil]
    exact ⟨[], (List.append_nil _).symm, rfl⟩

/-- The offset of the content of a section at `pos`. -/
def contentStart (s : RawSection) (pos : Nat) : Nat := pos + 1 + s.size.length

theorem contentStart_add (s : RawSection) (pos : Nat) :
    s.contentStart pos + s.content.length = pos + s.bytes.length := by
  rw [contentStart, length_bytes]
  omega

end RawSection

/-- Where the sections end that stand first in a module. -/
def boundary (front : List RawSection) : Nat := 8 + (front.flatMap RawSection.bytes).length

namespace SectionId

/-- The number of names that a section adds to those of the custom sections. -/
def labels (id : SectionId) : Nat := if id = .custom then 1 else 0

theorem ofNumber?_number (id : SectionId) : ofNumber? id.number = some id := by
  cases id <;> rfl

theorem ofNumber?_byte (id : SectionId) : ofNumber? (UInt8.ofNat id.number).toNat = some id := by
  have hnumber : (UInt8.ofNat id.number).toNat = id.number := by cases id <;> rfl
  rw [hnumber, ofNumber?_number]

theorem ofNat_number {id : SectionId} {b : UInt8} (h : ofNumber? b.toNat = some id) :
    UInt8.ofNat id.number = b := by
  have hall : ∀ n < all.length, (all[n]?.map number) = some n := by decide
  have hlt : b.toNat < all.length := (List.getElem?_eq_some_iff.mp h).1
  have hnumber := hall b.toNat hlt
  rw [show all[b.toNat]? = some id from h] at hnumber
  rw [Option.some.inj hnumber]
  exact UInt8.ofNat_toNat

end SectionId

namespace Reader

def named (r : Reader) (sectionName : String) : Reader := { r with sectionName := sectionName }

def past (r : Reader) (s : RawSection) : Reader :=
  { r with pos := r.pos + s.bytes.length, sectionName := s.id.name }

def inside (r : Reader) (s : RawSection) : Reader :=
  { r with pos := s.contentStart r.pos, limit := r.pos + s.bytes.length, sectionName := s.id.name }

def pastAll (r : Reader) (secs : List RawSection) : Reader := secs.foldl past r

variable {r : Reader} {s : RawSection} {secs : List RawSection} {rest bs : List UInt8}
    {sectionName : String}

theorem BytesLeft.named (h : r.BytesLeft bs) (sectionName : String) :
    (r.named sectionName).BytesLeft bs := h

theorem BytesLeft.past (h : r.BytesLeft (s.bytes ++ rest)) : (r.past s).BytesLeft rest := h.skip

theorem BytesLeft.pastAll (h : r.BytesLeft (secs.flatMap RawSection.bytes ++ rest)) :
    (r.pastAll secs).BytesLeft rest := by
  induction secs generalizing r with
  | nil => exact h
  | cons s secs ih =>
    rw [List.flatMap_cons, List.append_assoc] at h
    exact ih h.past

theorem pos_pastAll (r : Reader) (secs : List RawSection) :
    (r.pastAll secs).pos = r.pos + (secs.flatMap RawSection.bytes).length := by
  induction secs generalizing r with
  | nil => rfl
  | cons s secs ih =>
    rw [List.flatMap_cons, List.length_append, ← Nat.add_assoc]
    exact ih (r.past s)

theorem limit_pastAll (r : Reader) (secs : List RawSection) : (r.pastAll secs).limit = r.limit := by
  induction secs generalizing r with
  | nil => rfl
  | cons s secs ih => exact ih (r.past s)

theorem pastAll_append_singleton (r : Reader) (secs : List RawSection) (s : RawSection) :
    r.pastAll (secs ++ [s]) = (r.pastAll secs).past s := by
  rw [pastAll, List.foldl_append]
  rfl

theorem BytesLeft.size (h : r.BytesLeft (s.bytes ++ rest)) :
    ((r.skip 1).named sectionName).BytesLeft (s.size ++ (s.content ++ rest)) := by
  rw [RawSection.bytes, List.cons_append, List.append_assoc] at h
  exact h.tail

theorem BytesLeft.inside (h : r.BytesLeft (s.bytes ++ rest)) :
    (r.inside s).BytesLeft s.content := by
  have hsize : ((r.skip 1).named s.id.name).BytesLeft (s.size ++ (s.content ++ rest)) := h.size
  have hcontent := hsize.skip.stretch s.id.name
  have hlimit : r.pos + 1 + s.size.length + s.content.length = r.pos + s.bytes.length :=
    s.contentStart_add r.pos
  unfold Reader.inside
  rwa [← hlimit]

end Reader

namespace Decode

open WasmScript.Parser

/-! ### Stages -/

/-- What is known before a section: the rank of the last one, and what was read. -/
structure Stage where
  last : Option Nat
  progress : Progress

def Stage.first : Stage := ⟨none, {}⟩

/-- A stage where the bytes from `k` on are moved by `d`, with some custom sections. -/
def Stage.moved (k d : Nat) (names : List String) (st : Stage) : Stage :=
  ⟨st.last, st.progress.moved k d names⟩

abbrev Stage.customs (st : Stage) : List String := st.progress.module.customSections

theorem Stage.moved_zero (k : Nat) (st : Stage) : st.moved k 0 st.customs = st := by
  unfold Stage.moved Progress.moved
  rw [Module.moved_zero]

def Stage.labelled (st : Stage) (label : String) : Stage :=
  { st with progress := { st.progress with
    module := { st.progress.module with customSections := st.customs ++ [label] } } }

/-- The content of a section other than a custom one, which starts at `start`. -/
def ordered (id : SectionId) (start : Nat) (st : Stage) : Parser Progress := do
  if st.last.any fun rank => decide (id.rank ≤ rank) then failAt (.sectionOrder id.name) start
  else
    let p ← contents id st.progress
    let rest ← remaining
    if rest ≠ 0 then fail (.unreadBytes id.name rest) else pure p

/-- The content of a section that starts at `start`. -/
def interior (id : SectionId) (start : Nat) (st : Stage) : Parser Stage :=
  match id with
  | .custom => st.labelled <$> name
  | id => Stage.mk (some id.rank) <$> ordered id start st

def sized (id : SectionId) (start : Nat) (st : Stage) : Parser Stage := do
  within (← u32) none (interior id start st)

def step (st : Stage) : Parser Stage := do
  entering "module"
  let start ← position
  let number ← byte
  match SectionId.ofNumber? number with
  | none => failAt (.unknownSection number) start
  | some id => do
    entering id.name
    sized id start st

variable {k d start : Nat} {st st' st'' : Stage} {r r' : Reader} {bs rest : List UInt8} {b : UInt8}
    {id : SectionId}
variable {names : List String} {s : RawSection} {secs : List RawSection}

theorem customs_contents {p p' : Progress} (h : contents id p r = .ok p' r')
    (hbs : r.BytesLeft bs) :
    p'.module.customSections = p.module.customSections := by
  -- Whatever the names so far are, they are kept; and with the present ones nothing is changed.
  have hself : r.Shifted 0 r := ⟨rfl, rfl, bs, hbs, hbs⟩
  have hlocal :=
    local_contents (Nat.zero_le 0) p.module.customSections id p r r (Nat.zero_le _) hself
  have hsame : p.moved 0 0 p.module.customSections = p :=
    congrArg Stage.progress (Stage.moved_zero 0 ⟨none, p⟩)
  rw [hsame, h] at hlocal
  cases hlocal with
  | gives hmoved _ =>
    rw [hmoved]
    rfl

theorem local_ordered (hk : k ≤ start) (id : SectionId) (st : Stage) (names : List String) :
    Local start d (ordered id start st) (ordered id (start + d) (st.moved k d names)) fun p p' =>
      p.module.customSections = st.customs ∧ p' = p.moved k d names := by
  refine .ite (.failAt _) ?_
  have hcontents := local_contents (d := d) hk names id st.progress
  refine (hcontents.known fun r p r' bs hbs h => customs_contents h hbs).bind ?_
  rintro p _ ⟨hcustoms, rfl⟩
  exact .next steady_remaining fun rest => .ite (.fail _) (.pure ⟨hcustoms, rfl⟩)

/-- A section adds the same in two places, but for the offsets, after whatever custom sections. -/
theorem local_interior (hk : k ≤ start) (id : SectionId) (st : Stage) (names : List String) :
    Local start d (interior id start st) (interior id (start + d) (st.moved k d names))
      fun st' st'' =>
      ∃ added, added.length = id.labels ∧ st'.customs = st.customs ++ added ∧
        st'' = st'.moved k d (names ++ added) := by
  have hordered (id : SectionId) := local_ordered (d := d) hk id st names
  cases id with
  | custom =>
    refine (steady_name start d).map ?_
    rintro label _ rfl
    exact ⟨[label], rfl, rfl, rfl⟩
  | _ =>
    refine (hordered _).map ?_
    rintro p _ ⟨hcustoms, rfl⟩
    refine ⟨[], rfl, ?_, ?_⟩
    · rw [List.append_nil]
      exact hcustoms
    · rw [List.append_nil]
      rfl

/-- The same content in the same place adds the same. -/
theorem local_interior_zero (id : SectionId) (start : Nat) (st : Stage) :
    Local start 0 (interior id start st) (interior id start st) Eq := by
  have hlocal := local_interior (d := 0) (Nat.zero_le start) id st st.customs
  rw [Stage.moved_zero] at hlocal
  refine hlocal.mono ?_
  rintro st' _ ⟨added, -, hadded, rfl⟩
  rw [← hadded, Stage.moved_zero]

/-! ### One section -/

theorem entering_eq (sectionName : String) (r : Reader) :
    entering sectionName r = .ok () (r.named sectionName) := rfl

theorem step_eq (h : r.BytesLeft (b :: bs)) (st : Stage) : step st r =
    (match SectionId.ofNumber? b.toNat with
      | none => failAt (.unknownSection b.toNat) r.pos
      | some id => do
        entering id.name
        sized id r.pos st : Parser Stage) ((r.skip 1).named "module") := by
  rw [step, bind_at_ok (entering_eq _ r), bind_at_ok (position_eq _),
    bind_at_ok (byte_of_bytesLeft (h.named "module"))]
  rfl

theorem step_known (h : r.BytesLeft (b :: bs)) (hid : SectionId.ofNumber? b.toNat = some id) :
    step st r = sized id r.pos st ((r.skip 1).named id.name) := by
  rw [step_eq h, hid]
  exact bind_at_ok (entering_eq _ _)

theorem step_unknown (h : r.BytesLeft (b :: bs)) (hid : SectionId.ofNumber? b.toNat = none) :
    step st r = .error ⟨.unknownSection b.toNat, "module", r.pos⟩ ((r.skip 1).named "module") := by
  rw [step_eq h, hid]
  rfl

/-- What comes of a whole section is what comes of its content. -/
theorem step_framed (h : r.BytesLeft (s.bytes ++ rest)) :
    step st r = match interior s.id r.pos st (r.inside s) with
      | .ok st' _ => .ok st' (r.past s)
      | .error e _ => .error e (r.past s) := by
  have hnext : r.BytesLeft (UInt8.ofNat s.id.number :: (s.size ++ s.content ++ rest)) := h
  have hsize : ((r.skip 1).named s.id.name).BytesLeft (s.size ++ (s.content ++ rest)) := h.size
  have hread :=
    (recognizes_u32.accepts_iff hsize s.content.length _).mpr ⟨s.size, ⟨_, rfl⟩, s.sized, rfl⟩
  have hleft : s.content.length ≤ (((r.skip 1).named s.id.name).skip s.size.length).remaining := by
    rw [hsize.skip.remaining, List.length_append]
    omega
  have hend : r.pos + 1 + s.size.length + s.content.length = r.pos + s.bytes.length :=
    s.contentStart_add r.pos
  have hinside : (((r.skip 1).named s.id.name).skip s.size.length).stretch s.content.length
      (none.getD (((r.skip 1).named s.id.name).skip s.size.length).sectionName) = r.inside s :=
    congrArg (fun limit => Reader.mk r.bytes (s.contentStart r.pos) limit s.id.name) hend
  have hpast : (((r.skip 1).named s.id.name).skip s.size.length).skip s.content.length = r.past s :=
    congrArg (fun pos => Reader.mk r.bytes pos r.limit s.id.name) hend
  rw [step_known hnext s.id.ofNumber?_byte, sized, bind_at_ok hread, within_of_le hleft,
    hpast, hinside]
  cases interior s.id r.pos st (r.inside s) <;> rfl

/-- A section whose size cannot be read, or passes the end of the input, fails. -/
theorem step_unframed (h : r.BytesLeft (b :: bs)) (hid : SectionId.ofNumber? b.toNat = some id)
    (hnot : ∀ (s : RawSection) (rest : List UInt8), b :: bs ≠ s.bytes ++ rest) :
    ∃ e r', step st r = .error e r' := by
  rw [step_known h hid, sized]
  have hsize : ((r.skip 1).named id.name).BytesLeft bs := h.tail
  generalize ((r.skip 1).named id.name) = inner at hsize
  cases hread : u32 inner with
  | error e r' => exact ⟨e, r', bind_at_error hread⟩
  | ok length r' =>
    obtain ⟨size, ⟨more, rfl⟩, hsized, rfl⟩ := (recognizes_u32.accepts_iff hsize length r').mp hread
    rw [bind_at_ok hread]
    have hmore := hsize.skip
    rcases Nat.lt_or_ge (inner.skip size.length).remaining length with hlt | hle
    · exact ⟨_, _, within_of_lt hlt none⟩
    · obtain ⟨content, rest, rfl, rfl⟩ := hmore.split hle
      refine absurd ?_ (hnot ⟨id, size, content, hsized⟩ rest)
      rw [RawSection.bytes, SectionId.ofNat_number hid, List.cons_append, List.append_assoc]

/-! ### Walks -/

/-- Reading a section at `pos` makes one stage of another. -/
def SectionStep (pos : Nat) (s : RawSection) (st st' : Stage) : Prop :=
  ∃ r r', r.BytesLeft s.content ∧ r.pos = s.contentStart pos ∧ r.sectionName = s.id.name ∧
    interior s.id pos st r = .ok st' r'

/-- Sections from `pos` on lead from one stage to another. -/
inductive Walk : Nat → List RawSection → Stage → Stage → Prop where
  | done {pos : Nat} {st : Stage} : Walk pos [] st st
  | next {pos : Nat} {s : RawSection} {secs : List RawSection} {st st' st'' : Stage} :
      SectionStep pos s st st' →
      Walk (pos + s.bytes.length) secs st' st'' → Walk pos (s :: secs) st st''

/-- It does so in whatever bytes it stands. -/
theorem SectionStep.run {pos : Nat} (h : SectionStep pos s st st') (hr : r.BytesLeft s.content)
    (hpos : r.pos = s.contentStart pos) (hname : r.sectionName = s.id.name) :
    ∃ r', interior s.id pos st r = .ok st' r' := by
  obtain ⟨first, _, hfirst, hfirstPos, hfirstName, hrun⟩ := h
  have hshift : first.Shifted 0 r :=
    ⟨hpos.trans hfirstPos.symm, hname.trans hfirstName.symm, s.content, hfirst, hr⟩
  have hlow : pos ≤ first.pos := by
    rw [hfirstPos, RawSection.contentStart]
    omega
  have hsame := local_interior_zero s.id pos st _ _ hlow hshift
  rw [hrun] at hsame
  generalize hx : interior s.id pos st r = x at hsame
  cases hsame with
  | gives heq _ =>
    rw [← heq]
    exact ⟨_, rfl⟩

theorem SectionStep.unique {pos : Nat} (h : SectionStep pos s st st')
    (h' : SectionStep pos s st st'') : st' = st'' := by
  obtain ⟨r, _, hr, hpos, hname, hrun⟩ := h
  obtain ⟨_, hrun'⟩ := h'.run hr hpos hname
  cases hrun.symm.trans hrun'
  rfl

theorem SectionStep.ensures {pos : Nat} {P : Stage → Prop} (h : SectionStep pos s st st')
    (hP : (interior s.id pos st).Ensures P) : P st' := by
  obtain ⟨r, r', -, -, -, hrun⟩ := h
  exact hP r st' r' hrun

theorem SectionStep.step (h : SectionStep r.pos s st st') (hr : r.BytesLeft (s.bytes ++ rest)) :
    step st r = .ok st' (r.past s) := by
  obtain ⟨r', hrun⟩ := h.run hr.inside rfl rfl
  rw [step_framed hr, hrun]

/-- A step that succeeds has read a whole section. -/
theorem sectionStep_of_step (hr : r.BytesLeft (b :: bs)) (h : Decode.step st r = .ok st' r') :
    ∃ s rest, b :: bs = s.bytes ++ rest ∧ SectionStep r.pos s st st' ∧ r' = r.past s := by
  cases hid : SectionId.ofNumber? b.toNat with
  | none =>
    cases h.symm.trans (step_unknown hr hid)
  | some id =>
    by_cases hframe : ∃ (s : RawSection) (rest : List UInt8), b :: bs = s.bytes ++ rest
    · obtain ⟨s, rest, heq⟩ := hframe
      rw [heq] at hr
      rw [step_framed hr] at h
      split at h
      · next hrun =>
        cases h
        exact ⟨s, rest, heq, ⟨_, _, hr.inside, rfl, rfl, hrun⟩, rfl⟩
      · cases h
    · have hnot (s : RawSection) (rest : List UInt8) : b :: bs ≠ s.bytes ++ rest :=
        fun heq => hframe ⟨s, rest, heq⟩
      obtain ⟨_, _, hfail⟩ := @step_unframed st _ _ _ _ hr hid hnot
      cases h.symm.trans hfail

theorem Walk.append {pos : Nat} {more : List RawSection} (h : Walk pos secs st st')
    (hmore : Walk (pos + (secs.flatMap RawSection.bytes).length) more st' st'') :
    Walk pos (secs ++ more) st st'' := by
  induction h with
  | done => exact hmore
  | next hlead _ ih =>
    rw [List.flatMap_cons, List.length_append, ← Nat.add_assoc] at hmore
    exact .next hlead (ih hmore)

theorem Walk.of_append {pos : Nat} {more : List RawSection} (h : Walk pos (secs ++ more) st st'') :
    ∃ st', Walk pos secs st st' ∧
      Walk (pos + (secs.flatMap RawSection.bytes).length) more st' st'' := by
  induction secs generalizing pos st with
  | nil => exact ⟨st, .done, h⟩
  | cons s secs ih =>
    cases h with
    | next hlead hrest =>
      obtain ⟨st', hfront, hback⟩ := ih hrest
      refine ⟨st', .next hlead hfront, ?_⟩
      rw [List.flatMap_cons, List.length_append, ← Nat.add_assoc]
      exact hback

theorem Walk.unique {pos : Nat} (h : Walk pos secs st st') (h' : Walk pos secs st st'') :
    st' = st'' := by
  induction h with
  | done =>
    cases h'
    rfl
  | next hlead _ ih =>
    cases h' with
    | next hlead' hrest' =>
      obtain rfl := hlead.unique hlead'
      exact ih hrest'

/-! ### Reading as a walk -/

theorem within_map {α β : Type} (f : α → β) (p : Parser α) (length : Nat)
    (sectionName : Option String) :
    within length sectionName (f <$> p) = f <$> within length sectionName p := by
  funext r
  rw [map_eq_pure_bind f (within length sectionName p)]
  rcases Nat.lt_or_ge r.remaining length with hlt | hle
  · rw [within_of_lt hlt, bind_at_error (within_of_lt hlt _)]
  · have hrun := within_of_le (p := p) hle sectionName
    rw [within_of_le hle, map_eq_pure_bind]
    generalize hx : p (r.stretch length (sectionName.getD r.sectionName)) = x at hrun
    cases x with
    | ok a r' => rw [bind_at_ok hx, bind_at_ok hrun]; rfl
    | error e r' => rw [bind_at_error hx, bind_at_error hrun]

/-- The name that a reader has already need not be given. -/
theorem sized_named {α : Type} (p : Parser α) (h : r.BytesLeft bs) :
    (u32 >>= fun length => within length (some r.sectionName) p) r =
    (u32 >>= fun length => within length none p) r := by
  cases hread : u32 r with
  | error e r' => rw [bind_at_error hread, bind_at_error hread]
  | ok length r' =>
    obtain ⟨code, -, -, rfl⟩ := (recognizes_u32.accepts_iff h length r').mp hread
    rw [bind_at_ok hread, bind_at_ok hread]
    rfl

theorem sections_end (h : r.BytesLeft []) (fuel : Nat) (last : Option Nat) (p : Progress) :
    sections fuel last p r = .ok p r := by
  cases fuel with
  | zero => rfl
  | succ fuel =>
    have hleft : remaining r = .ok 0 r := congrArg (EStateM.Result.ok · r) h.remaining
    exact bind_at_ok hleft

theorem sections_succ (h : r.BytesLeft (b :: bs)) (fuel : Nat) (st : Stage) :
    sections (fuel + 1) st.last st.progress r =
      (step st >>= fun st' => sections fuel st'.last st'.progress) r := by
  have hleft : remaining r = .ok (bs.length + 1) r := congrArg (EStateM.Result.ok · r) h.remaining
  rw [sections, bind_at_ok hleft, if_neg (Nat.succ_ne_zero _), bind_at_ok (entering_eq _ r),
    bind_at_ok (position_eq _), bind_at_ok (byte_of_bytesLeft (h.named "module"))]
  cases hid : SectionId.ofNumber? b.toNat with
  | none =>
    rw [bind_at_error (step_unknown h hid)]
    rfl
  | some id =>
    -- Both sides read a size and then what is inside; only what becomes of it is put together
    -- differently.
    have hnamed : ((r.skip 1).named id.name).BytesLeft bs := h.tail
    let next (st' : Stage) : Parser Progress := sections fuel st'.last st'.progress
    have hstep : (step st >>= next) r
        = ((u32 >>= fun size => within size (some id.name) (interior id r.pos st)) >>= next)
            ((r.skip 1).named id.name) :=
      bind_at_congr ((step_known h hid).trans (sized_named _ hnamed).symm) fun _ _ _ => rfl
    refine Eq.trans ?_ hstep.symm
    cases id with
    | custom =>
      simp only [interior, within_map]
      simp only [map_eq_pure_bind, bind_assoc, pure_bind]
      rfl
    | _ =>
      simp only [interior, within_map]
      simp only [map_eq_pure_bind, bind_assoc, pure_bind]
      rfl

/-- Reading goes along a walk, a section at a time. -/
theorem sections_along (hwalk : Walk r.pos secs st st')
    (hr : r.BytesLeft (secs.flatMap RawSection.bytes ++ rest)) (fuel : Nat) :
    sections (fuel + secs.length) st.last st.progress r =
      sections fuel st'.last st'.progress (r.pastAll secs) := by
  generalize hpos : r.pos = pos at hwalk
  induction hwalk generalizing r with
  | done => rfl
  | @next pos s secs st st' st'' hlead _ ih =>
    subst hpos
    rw [List.flatMap_cons, List.append_assoc] at hr
    have hstep := hlead.step hr
    rw [RawSection.bytes, List.cons_append] at hr
    rw [List.length_cons, ← Nat.add_assoc, sections_succ hr, bind_at_ok hstep]
    exact ih (Reader.BytesLeft.past hr) rfl

/-- Reading ends at the end of the input, or at a section that fails. -/
theorem exists_walk (fuel : Nat) :
    ∀ {st : Stage} {r : Reader} {bs : List UInt8}, r.BytesLeft bs → bs.length < fuel →
    ∃ secs rest st', bs = secs.flatMap RawSection.bytes ++ rest ∧ Walk r.pos secs st st' ∧
      (rest = [] ∧ sections fuel st.last st.progress r = .ok st'.progress (r.pastAll secs) ∨
        rest ≠ [] ∧ ∃ e r', step st' (r.pastAll secs) = .error e r' ∧
          sections fuel st.last st.progress r = .error e r') := by
  induction fuel with
  | zero => exact fun _ hfuel => absurd hfuel (Nat.not_lt_zero _)
  | succ fuel ih =>
    intro st r bs hr hfuel
    cases bs with
    | nil => exact ⟨[], [], st, rfl, .done, .inl ⟨rfl, sections_end hr _ _ _⟩⟩
    | cons b bs =>
      cases hstep : step st r with
      | error e r' =>
        refine ⟨[], b :: bs, st, rfl, .done, .inr ⟨List.cons_ne_nil _ _, e, r', hstep, ?_⟩⟩
        rw [sections_succ hr, bind_at_error hstep]
      | ok st₁ r' =>
        obtain ⟨s, more, heq, hlead, rfl⟩ := sectionStep_of_step hr hstep
        -- A section takes a byte at least, so there is fuel enough for those behind it.
        have hlength := congrArg List.length heq
        rw [List.length_append, s.length_bytes, List.length_cons] at hlength
        rw [List.length_cons] at hfuel
        obtain ⟨secs, rest, st', rfl, hwalk, hend⟩ :=
          @ih st₁ (r.past s) more (Reader.BytesLeft.past (heq ▸ hr)) (by omega)
        refine ⟨s :: secs, rest, st', ?_, .next hlead hwalk, ?_⟩
        · rw [heq, List.flatMap_cons, List.append_assoc]
        · rw [sections_succ hr, bind_at_ok hstep]
          exact hend

/-! ### Whole modules -/

def preamble : List UInt8 := Binary.magic ++ Binary.version

/-- What must hold at the end: the code is not missing, and there is as much data as announced. -/
structure Progress.Complete (p : Progress) : Prop where
  code : p.sawCode ∨ p.module.functions.size = 0
  data : ∀ count ∈ p.dataCount, count = p.module.data.length

theorem finish_of_complete {p : Progress} (h : p.Complete) (r : Reader) :
    finish p r = .ok p.module r := by
  have hcode : ¬ (¬ p.sawCode ∧ 0 < p.module.functions.size) := by
    rintro ⟨hsaw, hsome⟩
    exact h.code.elim hsaw (Nat.ne_of_gt hsome)
  rw [finish, if_neg hcode]
  cases hcount : p.dataCount with
  | none => rfl
  | some count => exact congrFun (if_neg (not_not.mpr (h.data count hcount))) r

theorem finish_of_not_complete {p : Progress} (h : ¬ p.Complete) (r : Reader) :
    ∃ cause, finish p r = .error ⟨cause, r.sectionName, r.pos⟩ r := by
  rw [finish]
  split
  · exact ⟨_, rfl⟩
  · next hcode =>
    have hsaw : p.sawCode ∨ p.module.functions.size = 0 := by
      by_contra hnot
      obtain ⟨hsaw, hsome⟩ := not_or.mp hnot
      exact hcode ⟨hsaw, Nat.pos_of_ne_zero hsome⟩
    cases hcount : p.dataCount with
    | none =>
      refine absurd ⟨hsaw, ?_⟩ h
      rw [hcount]
      rintro _ ⟨⟩
    | some count =>
      by_cases heq : count = p.module.data.length
      · refine absurd ⟨hsaw, ?_⟩ h
        rw [hcount]
        rintro _ ⟨⟩
        exact heq
      · exact ⟨_, congrFun (if_pos heq) r⟩

theorem bytes_of_bytesLeft (h : r.BytesLeft (bs ++ rest)) :
    bytes bs.length r = .ok (r.bytes.extract r.pos (r.pos + bs.length)) (r.skip bs.length) := by
  refine if_neg ?_
  rw [h.remaining, List.length_append]
  omega

/-- The preamble is read, or it is at fault at its first or its second half. -/
theorem header_cases (hr : r.BytesLeft bs) (hpos : r.pos = 0) :
    (∃ rest, bs = preamble ++ rest ∧ header r = .ok () (r.skip 8)) ∨
      ∃ e r', header r = .error e r' ∧ e.sectionName = r.sectionName ∧ e.offset ≤ bs.length ∧
        (e.offset = 0 ∨ e.offset = 4) := by
  have hleft : remaining r = .ok bs.length r := congrArg (EStateM.Result.ok · r) hr.remaining
  rw [header, bind_at_ok hleft]
  split
  · exact .inr ⟨_, _, rfl, rfl, (Nat.le_of_eq hpos).trans (Nat.zero_le _), .inl hpos⟩
  · next hlong =>
    -- There are eight bytes, of which the first four are compared and then the others.
    obtain ⟨magic, rest, rfl, hmagic⟩ := hr.split (n := 4) (by rw [hr.remaining]; omega)
    obtain ⟨version, rest, rfl, hversion⟩ := hr.skip.split (n := 4) (by
      rw [hr.skip.remaining]
      rw [List.length_append] at hlong
      omega)
    have hfirst := bytes_of_bytesLeft hr
    have hsecond := bytes_of_bytesLeft hr.skip
    rw [hmagic] at hfirst hsecond
    rw [hversion] at hsecond
    have hmagicBytes := hr.extract
    have hversionBytes := hr.skip.extract
    rw [hmagic] at hmagicBytes hversionBytes
    rw [hversion] at hversionBytes
    rw [bind_at_ok hfirst, hmagicBytes]
    split
    · exact .inr ⟨_, _, rfl, rfl, Nat.zero_le _, .inl rfl⟩
    · next hm =>
      rw [bind_at_ok hsecond, hversionBytes]
      split
      · refine .inr ⟨_, _, rfl, rfl, ?_, .inr rfl⟩
        rw [List.length_append, hmagic]
        exact Nat.le_add_right _ _
      · next hv =>
        obtain rfl := not_not.mp hm
        obtain rfl := not_not.mp hv
        exact .inl ⟨rest, (List.append_assoc _ _ _).symm, rfl⟩

/-- A whole run: the preamble is at fault, or reading gets along a walk to the end or to a section
that fails. -/
theorem module_cases (hr : r.BytesLeft bs) (hpos : r.pos = 0) :
    (∃ e r', module r = .error e r' ∧ e.sectionName = r.sectionName ∧ e.offset ≤ bs.length ∧
        (e.offset = 0 ∨ e.offset = 4)) ∨
      ∃ secs rest st, bs = preamble ++ (secs.flatMap RawSection.bytes ++ rest) ∧
        Walk 8 secs .first st ∧
        (rest = [] ∧ module r = finish st.progress ((r.skip 8).pastAll secs) ∨
          rest ≠ [] ∧ ∃ e r', step st ((r.skip 8).pastAll secs) = .error e r' ∧
            module r = .error e r') := by
  rcases header_cases hr hpos with ⟨rest, rfl, hheader⟩ | ⟨e, r', hheader, hplace⟩
  · have hnext : (r.skip 8).BytesLeft rest := hr.skip
    have hleft : remaining (r.skip 8) = .ok rest.length (r.skip 8) :=
      congrArg (EStateM.Result.ok · (r.skip 8)) hnext.remaining
    have hrun : module r = (sections (rest.length + 1) none {} >>= finish) (r.skip 8) :=
      (bind_at_ok hheader).trans (bind_at_ok hleft)
    obtain ⟨secs, rest, st, rfl, hwalk, hend⟩ :=
      @exists_walk _ .first _ _ hnext (Nat.lt_succ_self _)
    refine .inr ⟨secs, rest, st, rfl, ?_, ?_⟩
    · have hstart : (r.skip 8).pos = 8 := congrArg (· + 8) hpos
      rwa [hstart] at hwalk
    · rcases hend with ⟨hnil, hsections⟩ | ⟨hne, e, r', hstep, hsections⟩
      · exact .inl ⟨hnil, hrun.trans (bind_at_ok hsections)⟩
      · exact .inr ⟨hne, e, r', hstep, hrun.trans (bind_at_error hsections)⟩
  · exact .inl ⟨e, r', bind_at_error hheader, hplace⟩

/-- What comes of a walk through all that follows the preamble is settled by what must hold at the
end. -/
theorem module_along (hr : r.BytesLeft (preamble ++ secs.flatMap RawSection.bytes))
    (hpos : r.pos = 0) (hwalk : Walk 8 secs .first st) :
    ∃ r', module r = finish st.progress r' := by
  obtain ⟨⟨⟩, r₁, hok, -, -⟩ := reads_header (secs.flatMap RawSection.bytes) r (by
    rw [← List.append_assoc]
    exact hr)
  rcases header_cases hr hpos with ⟨rest, heq, hheader⟩ | ⟨e, r', hheader, -⟩
  · obtain rfl := List.append_cancel_left heq
    have hnext : (r.skip 8).BytesLeft (secs.flatMap RawSection.bytes ++ []) := by
      rw [List.append_nil]
      exact hr.skip
    have hleft := hnext.remaining
    rw [List.append_nil] at hleft
    obtain ⟨fuel, hfuel⟩ :=
      Nat.exists_eq_add_of_le' (Nat.le_succ_of_le (RawSection.length_le_flatMap secs))
    have hstart : (r.skip 8).pos = 8 := congrArg (· + 8) hpos
    rw [← hstart] at hwalk
    have hsections := sections_along hwalk hnext fuel
    rw [← hfuel, sections_end hnext.pastAll] at hsections
    have hremaining :
        remaining (r.skip 8) = .ok (secs.flatMap RawSection.bytes).length (r.skip 8) :=
      congrArg (EStateM.Result.ok · (r.skip 8)) hleft
    exact ⟨_, (bind_at_ok hheader).trans ((bind_at_ok hremaining).trans (bind_at_ok hsections))⟩
  · cases hok.symm.trans hheader

end Decode

namespace Module

open WasmScript.Decode

variable {bytes : ByteArray} {m : Module}

theorem decode_eq_ok_iff :
    decode bytes = .ok m ↔ ∃ r', Decode.module (Reader.ofBytes bytes "header") = .ok m r' := by
  unfold decode
  constructor
  · intro h
    split at h
    · next r' hrun =>
      cases h
      exact ⟨r', hrun⟩
    · cases h
  · rintro ⟨r', hrun⟩
    rw [hrun]

theorem decode_eq_error_iff {e : DecodeError} :
    decode bytes = .error e ↔ ∃ r', Decode.module (Reader.ofBytes bytes "header") =
      .error e r' := by
  unfold decode
  constructor
  · intro h
    split at h
    · cases h
    · next r' hrun =>
      cases h
      exact ⟨r', hrun⟩
  · rintro ⟨r', hrun⟩
    rw [hrun]

/-- The bytes of a module are the preamble and sections that lead to a complete stage. -/
theorem decode_ok_iff : decode bytes = .ok m ↔
    ∃ secs st, bytes.data.toList = preamble ++ secs.flatMap RawSection.bytes ∧
      Walk 8 secs .first st ∧
      st.progress.Complete ∧ m = st.progress.module := by
  have hr := Reader.bytesLeft_ofBytes bytes "header"
  rw [decode_eq_ok_iff]
  constructor
  · rintro ⟨r', hrun⟩
    -- A run that succeeds walked to the end of the bytes and found its module complete.
    rcases module_cases hr rfl with ⟨e, r'', hfail, -⟩ | ⟨secs, rest, st, heq, hwalk, hend⟩
    · cases hrun.symm.trans hfail
    · rcases hend with ⟨rfl, hfinish⟩ | ⟨-, e, r'', -, hfail⟩
      · rw [List.append_nil] at heq
        by_cases hcomplete : st.progress.Complete
        · rw [finish_of_complete hcomplete, hrun] at hfinish
          cases hfinish
          exact ⟨secs, st, heq, hwalk, hcomplete, rfl⟩
        · obtain ⟨_, hfail⟩ :=
            finish_of_not_complete hcomplete (((Reader.ofBytes bytes "header").skip 8).pastAll secs)
          cases hrun.symm.trans (hfinish.trans hfail)
      · cases hrun.symm.trans hfail
  · rintro ⟨secs, st, heq, hwalk, hcomplete, rfl⟩
    rw [heq] at hr
    obtain ⟨r', hrun⟩ := module_along hr rfl hwalk
    rw [hrun, finish_of_complete hcomplete]
    exact ⟨r', rfl⟩

end Module

end WasmScript
