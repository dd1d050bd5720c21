/-
  WasmScript/Proofs/Module/CustomSections.lean
  ============================================
  **Custom sections between the others** — that a custom section changes its name and offsets only.

  A custom section may stand wherever a section ends or the preamble does.  It leaves the order of
  the others alone, and what they add is the same further on.  So bytes with such a section are a
  module just if they are one without it, and the two modules differ by one name among the custom
  sections and by the offsets behind it: `Module.decode_inserted_iff`.
-/
import WasmScript.Proofs.Module.Names
import WasmScript.Proofs.Module.Positions

namespace WasmScript

/-- A custom section: a name in UTF-8 and a payload of any bytes. -/
structure CustomSection where
  nameSize : List UInt8
  name : ByteArray
  payload : List UInt8
  size : List UInt8
  nameSized : Leb128.Unsigned 32 name.size nameSize
  valid : name.IsValidUTF8
  sized : Leb128.Unsigned 32 (nameSize ++ name.data.toList ++ payload).length size

namespace CustomSection

variable (c : CustomSection)

def raw : RawSection := ⟨.custom, c.size, c.nameSize ++ c.name.data.toList ++ c.payload, c.sized⟩

def label : String := (Parser.text? c.name).getD ""

theorem text?_name : Parser.text? c.name = some c.label := by
  obtain ⟨t, htext, -⟩ := Parser.exists_text?_toUTF8 (String.fromUTF8 c.name c.valid)
  have hname : (String.fromUTF8 c.name c.valid).toUTF8 = c.name := rfl
  rw [hname] at htext
  rw [label, htext]
  rfl

end CustomSection

def Reader.spanning (pos : Nat) (sectionName : String) (bs : List UInt8) : Reader :=
  ⟨⟨(List.replicate pos 0 ++ bs).toArray⟩, pos, pos + bs.length, sectionName⟩

theorem Reader.bytesLeft_spanning (pos : Nat) (sectionName : String) (bs : List UInt8) :
    (spanning pos sectionName bs).BytesLeft bs := by
  have hdrop : (List.replicate pos (0 : UInt8) ++ bs).drop pos = bs :=
    List.drop_left' List.length_replicate
  exact ⟨rfl, [], (List.append_nil bs).trans hdrop.symm⟩

namespace Decode

open WasmScript.Parser

variable {k d pos start : Nat} {st st' st'' : Stage} {s : RawSection} {secs : List RawSection}
    {names : List String}

/-! ### What a custom section adds -/

theorem sectionStep_custom_iff (c : CustomSection) : SectionStep pos c.raw st st' ↔
    st' = st.labelled c.label := by
  have hname {r : Reader} (hr : r.BytesLeft c.raw.content) : ∃ r', name r = .ok c.label r' := by
    obtain ⟨x, r', hrun, -, rfl⟩ := accepts_encoded c.nameSized c.payload r hr
    refine ⟨r', ?_⟩
    rw [name_eq, hrun]
    dsimp only
    rw [c.text?_name]
  -- The rest of the section is its payload, which is not read.
  have hrun {r : Reader} (hr : r.BytesLeft c.raw.content) :
      ∃ r', interior .custom pos st r = .ok (st.labelled c.label) r' := by
    obtain ⟨r', hlabel⟩ := hname hr
    refine ⟨r', ?_⟩
    change (st.labelled <$> name) r = _
    rw [map_eq_pure_bind, bind_at_ok hlabel]
    rfl
  constructor
  · rintro ⟨r, r', hr, -, -, hgive⟩
    obtain ⟨r'', hgive'⟩ := hrun hr
    have hsame := hgive.symm.trans hgive'
    cases hsame
    rfl
  · rintro rfl
    have hr :=
      Reader.bytesLeft_spanning (c.raw.contentStart pos) SectionId.custom.name c.raw.content
    obtain ⟨r', hgive⟩ := hrun hr
    exact ⟨_, r', hr, rfl, rfl, hgive⟩

/-! ### Further on -/

theorem le_contentStart (s : RawSection) (pos : Nat) : pos ≤ s.contentStart pos := by
  rw [RawSection.contentStart]
  omega

theorem contentStart_moved (s : RawSection) (pos d : Nat) :
    s.contentStart (pos + d) = s.contentStart pos + d := by
  rw [RawSection.contentStart, RawSection.contentStart]
  omega

/-- A section that stands further back is read just if it is read here, to the same but for
offsets. -/
theorem sectionStep_moved_iff (hk : k ≤ pos) : SectionStep (pos + d) s (st.moved k d names) st'' ↔
    ∃ st' added, SectionStep pos s st st' ∧ added.length = s.id.labels ∧
      st'.customs = st.customs ++ added ∧
      st'' = st'.moved k d (names ++ added) := by
  have hlow : pos ≤ s.contentStart pos := le_contentStart s pos
  -- In both directions the two readers see the same bytes, one of them further on.
  constructor
  · rintro ⟨there, _, hthere, hpos, hname, hrun⟩
    have hhere := Reader.bytesLeft_spanning (s.contentStart pos) s.id.name s.content
    have hshift : (Reader.spanning (s.contentStart pos) s.id.name s.content).Shifted d there :=
      ⟨hpos.trans (contentStart_moved s pos d), hname, s.content, hhere, hthere⟩
    have hsame := local_interior hk s.id st names _ _ hlow hshift
    rw [hrun] at hsame
    generalize hx :
      interior s.id pos st (Reader.spanning (s.contentStart pos) s.id.name s.content) = x at hsame
    cases hsame with
    | gives hall _ =>
      obtain ⟨added, hlength, hadded, rfl⟩ := hall
      exact ⟨_, added, ⟨_, _, hhere, rfl, rfl, hx⟩, hlength, hadded, rfl⟩
  · rintro ⟨st', added, ⟨here, _, hhere, hpos, hname, hrun⟩, -, hadded, rfl⟩
    have hthere := Reader.bytesLeft_spanning (s.contentStart pos + d) s.id.name s.content
    have hshift :
        here.Shifted d (Reader.spanning (s.contentStart pos + d) s.id.name s.content) := by
      refine ⟨?_, hname.symm, s.content, hhere, hthere⟩
      rw [hpos]
      rfl
    have hsame := local_interior hk s.id st names _ _ (hpos ▸ hlow) hshift
    rw [hrun] at hsame
    generalize hx : interior s.id (pos + d) (st.moved k d names)
      (Reader.spanning (s.contentStart pos + d) s.id.name s.content) = x at hsame
    cases hsame with
    | gives hall _ =>
      obtain ⟨added', -, hadded', rfl⟩ := hall
      obtain rfl := List.append_cancel_left (hadded'.symm.trans hadded)
      exact ⟨_, _, hthere, (contentStart_moved s pos d).symm, rfl, hx⟩

theorem SectionStep.customs (h : SectionStep pos s st st') :
    ∃ added, added.length = s.id.labels ∧ st'.customs = st.customs ++ added := by
  have hmoved : SectionStep (pos + 0) s (st.moved pos 0 st.customs) st' := by
    rw [Stage.moved_zero]
    exact h
  obtain ⟨_, added, -, hlength, -, rfl⟩ := (sectionStep_moved_iff (Nat.le_refl pos)).mp hmoved
  exact ⟨added, hlength, rfl⟩

def customCount (secs : List RawSection) : Nat := (secs.map fun s => s.id.labels).sum

theorem Walk.customs (h : Walk pos secs st st') :
    ∃ added, added.length = customCount secs ∧ st'.customs = st.customs ++ added := by
  induction h with
  | done => exact ⟨[], rfl, (List.append_nil _).symm⟩
  | next hlead _ ih =>
    obtain ⟨first, hfirst, hcustoms⟩ := hlead.customs
    obtain ⟨later, hlater, hcustoms'⟩ := ih
    refine ⟨first ++ later, ?_, ?_⟩
    · rw [List.length_append, hfirst, hlater, customCount, customCount, List.map_cons,
        List.sum_cons]
    · rw [hcustoms', hcustoms, List.append_assoc]

/-- Sections are read further on just if they are read here, and to the same but for offsets. -/
theorem walk_moved_iff (hk : k ≤ pos) : Walk (pos + d) secs (st.moved k d names) st'' ↔
    ∃ st' added, Walk pos secs st st' ∧ st'.customs = st.customs ++ added ∧
      st'' = st'.moved k d (names ++ added) := by
  -- The induction is on the sections, and the names that they add come after those there are.
  induction secs generalizing pos st names with
  | nil =>
    constructor
    · rintro ⟨⟩
      exact ⟨st, [], .done, (List.append_nil _).symm, by rw [List.append_nil]⟩
    · rintro ⟨st', added, ⟨⟩, hadded, rfl⟩
      obtain rfl := List.append_right_eq_self.mp hadded.symm
      rw [List.append_nil]
      exact .done
  | cons s secs ih =>
    have hnext : k ≤ pos + s.bytes.length := Nat.le_add_right_of_le hk
    have hpos : pos + d + s.bytes.length = pos + s.bytes.length + d := Nat.add_right_comm _ _ _
    constructor
    · rintro (_ | ⟨hlead, hrest⟩)
      obtain ⟨st₁, first, hfirst, -, hcustoms, rfl⟩ := (sectionStep_moved_iff hk).mp hlead
      rw [hpos] at hrest
      obtain ⟨st', later, hwalk, hcustoms', rfl⟩ := (ih hnext).mp hrest
      refine ⟨st', first ++ later, .next hfirst hwalk, ?_, ?_⟩
      · rw [hcustoms', hcustoms, List.append_assoc]
      · rw [List.append_assoc]
    · rintro ⟨st', added, _ | ⟨hlead, hrest⟩, hadded, rfl⟩
      obtain ⟨first, hlength, hfirst⟩ := hlead.customs
      obtain ⟨later, -, hlater⟩ := hrest.customs
      obtain rfl : added = first ++ later := by
        rw [hlater, hfirst, List.append_assoc] at hadded
        exact (List.append_cancel_left hadded).symm
      refine .next ((sectionStep_moved_iff hk).mpr ⟨_, first, hlead, hlength, hfirst, rfl⟩) ?_
      rw [hpos]
      exact (ih hnext).mpr ⟨_, later, hrest, hlater, by rw [List.append_assoc]⟩

end Decode

/-! ### What stands before -/

/-- The offsets of a body and of its instructions are below a bound. -/
def Body.Below (k : Nat) (b : Body) : Prop := b.pos < k ∧ ∀ l ∈ b.instructions, l.pos < k

theorem Body.moved_of_below {k d : Nat} {b : Body} (h : b.Below k) : b.moved k d = b := by
  have hall : b.instructions.map (Located.moved k d) = b.instructions := by
    refine (Array.map_congr_left fun l hl => ?_).trans (Array.map_id b.instructions)
    rw [Located.moved, movedOffset_of_lt d (h.2 l hl)]
    rfl
  rw [Body.moved, hall, movedOffset_of_lt d h.1]

theorem Module.moved_of_below {k d : Nat} {names : List String} {m : Module}
    (h : ∀ b ∈ m.bodies, b.Below k) :
    m.moved k d names = { m with customSections := names } := by
  have hall : m.bodies.map (Body.moved k d) = m.bodies :=
    (Array.map_congr_left fun b hb => Body.moved_of_below (h b hb)).trans (Array.map_id m.bodies)
  rw [Module.moved, hall]

namespace Decode

variable {front back : List RawSection} {st st' : Stage} {d : Nat}

theorem below_of_walk (hwalk : Walk 8 front .first st) :
    ∀ b ∈ st.progress.module.bodies, b.Below (boundary front) := by
  let bytes : ByteArray := ⟨(preamble ++ front.flatMap RawSection.bytes).toArray⟩
  have hsize : bytes.size = boundary front := List.length_append
  have hbytes : bytes.data.toList = preamble ++ front.flatMap RawSection.bytes := rfl
  intro b hb
  rcases filled_of_walk hbytes hwalk with hnone | ⟨_, _, _, _, -, -, -, hentries⟩
  · rw [hnone] at hb
    exact absurd hb (Array.not_mem_empty b)
  · obtain ⟨first, last, -, htiled⟩ := hentries.tiled b (Array.mem_toList_iff.mpr hb)
    have hlast : last ≤ boundary front := hsize ▸ htiled.inside
    exact ⟨htiled.pos_lt.trans_le hlast, fun l hl => (htiled.instruction_lt l hl).2.trans_le hlast⟩

/-- What custom sections add right behind some sections is the same as moving all that follows. -/
theorem labelled_eq_moved (hwalk : Walk 8 front .first st) (label : String) :
    st.labelled label = st.moved (boundary front) d (st.customs ++ [label]) := by
  rw [Stage.moved, Progress.moved, Module.moved_of_below (below_of_walk hwalk)]
  rfl

theorem insertIdx_append {α : Type} (front back : List α) (a : α) :
    (front ++ back).insertIdx front.length a = front ++ a :: back := by
  induction front with
  | nil => rfl
  | cons b front ih => exact congrArg (b :: ·) ih

/-- A walk with a custom section in it is one without it, but for one name and the offsets behind
it. -/
theorem walk_inserted_iff (c : CustomSection) : Walk 8 (front ++ c.raw :: back) .first st' ↔
    ∃ st, Walk 8 (front ++ back) .first st ∧ st' = st.moved (boundary front) c.raw.bytes.length
      (st.customs.insertIdx (customCount front) c.label) := by
  -- Behind the custom section reading goes on as it would without it, further on and with one more
  -- name.
  have hback {st₁ : Stage} (hfront : Walk 8 front .first st₁) {st' : Stage} :
      Walk (boundary front) (c.raw :: back) st₁ st' ↔ ∃ st, Walk (boundary front) back st₁ st ∧
        st' = st.moved (boundary front) c.raw.bytes.length
          (st.customs.insertIdx (customCount front) c.label) := by
    obtain ⟨before, hbefore, hcustoms⟩ := hfront.customs
    have hnames : st₁.customs = before := hcustoms.trans (List.nil_append before)
    have hinsert (added : List String) : (before ++ added).insertIdx (customCount front) c.label
        = before ++ [c.label] ++ added := by
      rw [← hbefore, insertIdx_append, List.append_assoc]
      rfl
    have hlabelled : st₁.labelled c.label
        = st₁.moved (boundary front) c.raw.bytes.length (before ++ [c.label]) := by
      rw [← hnames]
      exact labelled_eq_moved hfront c.label
    constructor
    · rintro (_ | ⟨hlead, hrest⟩)
      obtain rfl := (sectionStep_custom_iff c).mp hlead
      rw [hlabelled] at hrest
      obtain ⟨st, added, hwalk, hadded, rfl⟩ := (walk_moved_iff (Nat.le_refl _)).mp hrest
      refine ⟨st, hwalk, ?_⟩
      rw [hadded, hnames, hinsert]
    · rintro ⟨st, hwalk, rfl⟩
      obtain ⟨added, -, hadded⟩ := hwalk.customs
      refine .next ((sectionStep_custom_iff c).mpr rfl) ?_
      rw [hlabelled, hadded, hnames, hinsert]
      exact (walk_moved_iff (Nat.le_refl _)).mpr ⟨st, added, hwalk, hadded, rfl⟩
  constructor
  · intro h
    obtain ⟨st₁, hfront, hrest⟩ := h.of_append
    obtain ⟨st, hwalk, rfl⟩ := (hback hfront).mp hrest
    exact ⟨st, hfront.append hwalk, rfl⟩
  · rintro ⟨st, h, rfl⟩
    obtain ⟨st₁, hfront, hwalk⟩ := h.of_append
    exact hfront.append ((hback hfront).mpr ⟨st, hwalk, rfl⟩)

theorem complete_moved_iff {p : Progress} {k d : Nat} {names : List String} :
    (p.moved k d names).Complete ↔ p.Complete :=
  ⟨fun h => ⟨h.code, h.data⟩, fun h => ⟨h.code, h.data⟩⟩

end Decode

namespace Module

open WasmScript.Decode

variable {front : List RawSection} {rest : List UInt8} {m m' : Module}

/-- A module with a custom section behind the sections `front`. -/
def withCustom (m : Module) (front : List RawSection) (c : CustomSection) : Module :=
  m.moved (boundary front) c.raw.bytes.length
    (m.customSections.insertIdx (customCount front) c.label)

/-- Bytes with a custom section between two others, before the first or after the last one are a
module just if they are one without it, and then the name and the offsets behind it are all that is
different. -/
theorem decode_inserted_iff {bytes longer : ByteArray} (c : CustomSection)
    (hbytes : bytes.data.toList = preamble ++ front.flatMap RawSection.bytes ++ rest)
    (hlonger : longer.data.toList = preamble ++ front.flatMap RawSection.bytes ++
      c.raw.bytes ++ rest) :
    decode longer = .ok m' ↔ ∃ m, decode bytes = .ok m ∧ m' = m.withCustom front c := by
  -- The sections of the longer bytes are those of the shorter ones with the new one among them.
  constructor
  · intro h
    obtain ⟨secs, st', heq, hwalk, hcomplete, rfl⟩ := decode_ok_iff.mp h
    have hall : (front ++ [c.raw]).flatMap RawSection.bytes ++ rest =
        secs.flatMap RawSection.bytes := by
      rw [hlonger, List.append_assoc, List.append_assoc] at heq
      rw [List.flatMap_append, List.flatMap_singleton, List.append_assoc]
      exact List.append_cancel_left heq
    obtain ⟨back, rfl, rfl⟩ := RawSection.exists_append_of_flatMap hall
    rw [List.append_assoc] at hwalk
    obtain ⟨st, hshort, rfl⟩ := (walk_inserted_iff c).mp hwalk
    refine ⟨st.progress.module, decode_ok_iff.mpr ⟨front ++ back, st, ?_, hshort, ?_, rfl⟩, rfl⟩
    · rw [hbytes, List.flatMap_append, List.append_assoc]
    · exact complete_moved_iff.mp hcomplete
  · rintro ⟨m, h, rfl⟩
    obtain ⟨secs, st, heq, hwalk, hcomplete, rfl⟩ := decode_ok_iff.mp h
    have hall : front.flatMap RawSection.bytes ++ rest = secs.flatMap RawSection.bytes := by
      rw [hbytes, List.append_assoc] at heq
      exact List.append_cancel_left heq
    obtain ⟨back, rfl, rfl⟩ := RawSection.exists_append_of_flatMap hall
    refine decode_ok_iff.mpr
      ⟨front ++ c.raw :: back, _, ?_, (walk_inserted_iff c).mpr ⟨st, hwalk, rfl⟩, ?_, rfl⟩
    · rw [hlonger, List.flatMap_append, List.flatMap_cons]
      simp only [List.append_assoc]
    · exact complete_moved_iff.mpr hcomplete

end Module

end WasmScript
