/-
  WasmScript/Proofs/Module/FaultPlaces.lean
  =========================================
  **Where faults are** — that a fault of the bytes points into the section that it names.

  The bytes that are no module fail in their preamble, at a section or behind the last one.  The
  last section header that was read is where the sections before it end (`LastHeader`); there is
  one at most.  If its number is no section's, the fault is that number.  Otherwise the fault has
  the name of that section, and its offset is between the header and the end of the section, or of
  all bytes if the section does not say where it ends: `Module.fault_place`.
-/
import WasmScript.Proofs.Module.Walk

namespace WasmScript

open WasmScript.Decode

/-- The last section header that is read is at `k`, where the bytes `code` start: the sections
before it are read, and if the one at `k` is read as well, nothing comes after it. -/
def LastHeader (bytes : ByteArray) (k : Nat) (code : List UInt8) : Prop :=
  ∃ front st, bytes.data.toList = preamble ++ (front.flatMap RawSection.bytes ++ code) ∧
    Walk 8 front .first st ∧ k = boundary front ∧ code ≠ [] ∧
    ∀ s back st', code = s.bytes ++ back → SectionStep k s st st' → back = []

/-- The end of a section whose header is at `k`, where the bytes `code` start: the one that it
declares, or that of the input if it declares one beyond it or none that can be read. -/
def SectionEnd (size k : Nat) (code : List UInt8) (stop : Nat) : Prop :=
  (∃ s rest, code = RawSection.bytes s ++ rest ∧ stop = k + s.bytes.length) ∨
    (∀ s rest, code ≠ RawSection.bytes s ++ rest) ∧ stop = size

variable {bytes : ByteArray} {k k' size stop start : Nat} {code code' bs : List UInt8} {b : UInt8}
    {e : DecodeError}
variable {st : Stage} {secs : List RawSection} {r r' : Reader}

theorem LastHeader.size_eq (h : LastHeader bytes k code) : k + code.length = bytes.size := by
  obtain ⟨front, -, hbytes, -, rfl, -⟩ := h
  have hsize := congrArg List.length hbytes
  rw [List.length_append, List.length_append, ← Nat.add_assoc] at hsize
  exact hsize.symm

/-- There is one such header at most: what the sections before it lead to is settled by the
bytes. -/
theorem LastHeader.unique (h : LastHeader bytes k code) (h' : LastHeader bytes k' code') :
    k = k' ∧ code = code' := by
  -- A header further on would have let the section at the first one be read, with more behind it.
  have hnone {front more : List RawSection} {st st' : Stage} {code code' : List UInt8}
      (hwalk : Walk 8 front .first st) (hwalk' : Walk 8 (front ++ more) .first st')
      (hcode : code = more.flatMap RawSection.bytes ++ code') (hne : code' ≠ [])
      (hlast : ∀ s back st', code = s.bytes ++ back → SectionStep (boundary front) s st st' →
        back = []) : more = [] := by
    cases more with
    | nil => rfl
    | cons s more =>
      obtain ⟨_, hfront, hlead | ⟨hlead, -⟩⟩ := hwalk'.of_append
      obtain rfl := hfront.unique hwalk
      rw [List.flatMap_cons, List.append_assoc] at hcode
      exact absurd (List.append_eq_nil_iff.mp (hlast s _ _ hcode hlead)).2 hne
  obtain ⟨front, st, hbytes, hwalk, rfl, hne, hlast⟩ := h
  obtain ⟨front', st', hbytes', hwalk', rfl, hne', hlast'⟩ := h'
  rcases RawSection.append_cases (List.append_cancel_left (hbytes.symm.trans hbytes')) with
    ⟨more, rfl, hcode⟩ | ⟨more, rfl, hcode⟩
  · obtain rfl := hnone hwalk hwalk' hcode hne' hlast
    exact ⟨by rw [List.append_nil], hcode⟩
  · obtain rfl := hnone hwalk' hwalk hcode hne hlast'
    exact ⟨by rw [List.append_nil], hcode.symm⟩

theorem SectionEnd.le (h : SectionEnd size k code stop) (hsize : k + code.length = size) :
    stop ≤ size := by
  rcases h with ⟨s, rest, rfl, rfl⟩ | ⟨-, rfl⟩
  · rw [← hsize, List.length_append]
    omega
  · exact Nat.le_refl _

/-! ### Faults in a section -/

/-- A fault of a parser is in the section and in the stretch that it reads. -/
theorem Parser.Local.fault {α : Type} {p : Parser α} (hp : Local start 0 p p Eq)
    (hr : r.BytesLeft bs) (hlow : start ≤ r.pos) (h : p r = .error e r') :
    e.sectionName = r.sectionName ∧ start ≤ e.offset ∧ e.offset ≤ r.limit := by
  have hrun := hp r r hlow ⟨rfl, rfl, bs, hr, hr⟩
  rw [h] at hrun
  cases hrun with
  | fails cause hoffset hhigh _ => exact ⟨rfl, hoffset, hhigh⟩

namespace Decode

theorem local_sized (id : SectionId) (start : Nat) (st : Stage) :
    Parser.Local start 0 (sized id start st) (sized id start st) Eq :=
  .next Parser.steady_u32 fun length => (local_interior_zero id start st).within length

/-- A section fails for its number, or between its header and its end under its own name. -/
theorem step_fault (hr : r.BytesLeft (b :: bs)) (h : step st r = .error e r') :
    (SectionId.ofNumber? b.toNat = none ∧ e.sectionName = "module" ∧ e.offset = r.pos) ∨
      ∃ id stop, SectionId.ofNumber? b.toNat = some id ∧ e.sectionName = id.name ∧
        SectionEnd r.limit r.pos (b :: bs) stop ∧ r.pos ≤ e.offset ∧ e.offset ≤ stop := by
  cases hid : SectionId.ofNumber? b.toNat with
  | none =>
    cases h.symm.trans (step_unknown hr hid)
    exact .inl ⟨rfl, rfl, rfl⟩
  | some id =>
    refine .inr ⟨id, ?_⟩
    -- A section that is framed has its faults inside, and otherwise its size is at fault.
    by_cases hframe : ∃ (s : RawSection) (rest : List UInt8), b :: bs = s.bytes ++ rest
    · obtain ⟨s, rest, heq⟩ := hframe
      have hs : r.BytesLeft (s.bytes ++ rest) := heq ▸ hr
      rw [step_framed hs] at h
      split at h
      · cases h
      · next hrun =>
        cases h
        have hlow : r.pos ≤ (r.inside s).pos := by
          change r.pos ≤ s.contentStart r.pos
          rw [RawSection.contentStart]
          omega
        obtain ⟨hlabel, hoffset, hhigh⟩ :=
          (local_interior_zero s.id r.pos st).fault hs.inside hlow hrun
        have hnumber : s.id = id := by
          have hbyte : b = UInt8.ofNat s.id.number := (List.cons.inj heq).1
          rw [hbyte, SectionId.ofNumber?_byte] at hid
          exact Option.some.inj hid
        exact ⟨_, rfl, hlabel.trans (congrArg SectionId.name hnumber), .inl ⟨s, rest, heq, rfl⟩,
          hoffset, hhigh⟩
    · rw [step_known hr hid] at h
      have hnext : ((r.skip 1).named id.name).BytesLeft bs := hr.tail
      obtain ⟨hlabel, hoffset, hhigh⟩ := (local_sized id r.pos st).fault hnext (Nat.le_succ _) h
      exact ⟨_, rfl, hlabel, .inr ⟨fun s rest heq => hframe ⟨s, rest, heq⟩, rfl⟩, hoffset, hhigh⟩

/-! ### Faults of a module -/

def behind (bytes : ByteArray) (secs : List RawSection) :
    Reader := ((Reader.ofBytes bytes "header").skip 8).pastAll secs

theorem pos_behind (bytes : ByteArray) (secs : List RawSection) :
    (behind bytes secs).pos = boundary secs := by
  rw [behind, Reader.pos_pastAll]
  rfl

theorem limit_behind (bytes : ByteArray) (secs : List RawSection) :
    (behind bytes secs).limit = bytes.size := by
  rw [behind, Reader.limit_pastAll]
  rfl

theorem sectionName_behind (bytes : ByteArray) (front : List RawSection) (s : RawSection) :
    (behind bytes (front ++ [s])).sectionName = s.id.name := by
  rw [behind, Reader.pastAll_append_singleton]
  rfl

theorem bytesLeft_behind
    (h : bytes.data.toList = preamble ++ (secs.flatMap RawSection.bytes ++ code)) :
    (behind bytes secs).BytesLeft code := by
  have hr := Reader.bytesLeft_ofBytes bytes "header"
  rw [h] at hr
  exact (Reader.BytesLeft.skip hr).pastAll

/-- A fault is the number in the last header, or it is in the section of that header and has its
name. -/
def Blames (bytes : ByteArray) (e : DecodeError) : Prop :=
  ∃ k b code, LastHeader bytes k (b :: code) ∧
    ((SectionId.ofNumber? b.toNat = none ∧ e.sectionName = "module" ∧ e.offset = k) ∨
      ∃ id stop, SectionId.ofNumber? b.toNat = some id ∧ e.sectionName = id.name ∧
        SectionEnd bytes.size k (b :: code) stop ∧ k ≤ e.offset ∧ e.offset ≤ stop)

/-- A section that fails has the last header. -/
theorem blames_of_step
    (hbytes : bytes.data.toList = preamble ++ (secs.flatMap RawSection.bytes ++ b :: code))
    (hwalk : Walk 8 secs .first st) (h : step st (behind bytes secs) = .error e r') :
    Blames bytes e := by
  have hr := bytesLeft_behind hbytes
  refine ⟨boundary secs, b, code, ⟨secs, st, hbytes, hwalk, rfl, List.cons_ne_nil _ _, ?_⟩, ?_⟩
  · intro s back st' heq hlead
    rw [← pos_behind bytes secs] at hlead
    cases (hlead.step (heq ▸ hr)).symm.trans h
  · rw [← pos_behind bytes secs, ← limit_behind bytes secs]
    exact step_fault hr h

/-- If all sections are read and something is missing, the last section has the last header, and the
fault is at its end. -/
theorem blames_of_incomplete
    (hbytes : bytes.data.toList = preamble ++ secs.flatMap RawSection.bytes)
    (hwalk : Walk 8 secs .first st) (hincomplete : ¬ st.progress.Complete) {cause : DecodeCause} :
    Blames bytes ⟨cause, (behind bytes secs).sectionName, (behind bytes secs).pos⟩ := by
  rcases List.eq_nil_or_concat secs with rfl | ⟨front, s, rfl⟩
  · -- Without sections nothing is missing.
    cases hwalk
    exact absurd ⟨.inr rfl, fun _ hcount => nomatch hcount⟩ hincomplete
  · rw [List.concat_eq_append] at hbytes hwalk ⊢
    have hpos : (behind bytes (front ++ [s])).pos = boundary front + s.bytes.length := by
      rw [pos_behind, boundary, List.flatMap_append, List.flatMap_singleton,
        List.length_append, ← Nat.add_assoc]
      rfl
    obtain ⟨st', hfront, -⟩ := hwalk.of_append
    rw [List.flatMap_append, List.flatMap_singleton] at hbytes
    have hend : SectionEnd bytes.size (boundary front) s.bytes (boundary front + s.bytes.length) :=
      .inl ⟨s, [], (List.append_nil _).symm, rfl⟩
    refine ⟨boundary front, _, _, ⟨front, st', hbytes, hfront, rfl, s.bytes_ne_nil, ?_⟩,
      .inr ⟨s.id, _, s.id.ofNumber?_byte, sectionName_behind bytes front s, hend, ?_,
        Nat.le_of_eq hpos⟩⟩
    · intro t back _ heq _
      have hwhole : s.bytes ++ [] = t.bytes ++ back := (List.append_nil _).trans heq
      exact (RawSection.eq_of_append hwhole).2.symm
    · exact hpos ▸ Nat.le_add_right _ _

theorem fault_cases (h : Module.decode bytes = .error e) :
    (e.sectionName = "header" ∧ e.offset ≤ bytes.size ∧ (e.offset = 0 ∨ e.offset = 4)) ∨
      Blames bytes e := by
  obtain ⟨r', hrun⟩ := Module.decode_eq_error_iff.mp h
  rcases module_cases (Reader.bytesLeft_ofBytes bytes "header") rfl with
    ⟨e', r'', hfail, hlabel, hlow, hoffset⟩ | ⟨secs, rest, st, hbytes, hwalk, hend⟩
  · cases hrun.symm.trans hfail
    exact .inl ⟨hlabel, hlow, hoffset⟩
  rcases hend with ⟨rfl, hfinish⟩ | ⟨hne, e', r'', hstep, hfail⟩
  · rw [List.append_nil] at hbytes
    have hincomplete : ¬ st.progress.Complete := by
      intro hcomplete
      rw [finish_of_complete hcomplete] at hfinish
      cases hrun.symm.trans hfinish
    obtain ⟨cause, hfault⟩ := finish_of_not_complete hincomplete (behind bytes secs)
    cases hrun.symm.trans (hfinish.trans hfault)
    exact .inr (blames_of_incomplete hbytes hwalk hincomplete)
  · cases hrun.symm.trans hfail
    obtain ⟨b, code, rfl⟩ := List.exists_cons_of_ne_nil hne
    exact .inr (blames_of_step hbytes hwalk hstep)

end Decode

namespace SectionId

theorem name_injective : ∀ id id' : SectionId, id.name = id'.name → id = id' := by
  intro id id'
  cases id <;> cases id' <;> decide

theorem name_ne (id : SectionId) : id.name ≠ "header" ∧ id.name ≠ "module" := by
  cases id <;> decide

end SectionId

namespace Module

/-- A fault has the name of a section and an offset between the header that was read last, which is
one of that section, and the end of the section; or it is in the preamble; or it is the number of a
section that there is not. -/
theorem fault_place (h : decode bytes = .error e) :
    e.offset ≤ bytes.size ∧
      (e.sectionName = "header" ∨ e.sectionName = "module" ∨ ∃ id : SectionId,
        e.sectionName = id.name) ∧
      (e.sectionName = "header" → e.offset = 0 ∨ e.offset = 4) ∧
      (e.sectionName = "module" → ∃ b code, LastHeader bytes e.offset (b :: code) ∧
        SectionId.ofNumber? b.toNat = none) ∧
      ∀ id : SectionId, e.sectionName = id.name → ∃ k b code stop, LastHeader bytes k (b :: code) ∧
        SectionId.ofNumber? b.toNat = some id ∧ SectionEnd bytes.size k (b :: code) stop ∧
        k ≤ e.offset ∧ e.offset ≤ stop := by
  -- The names of the header, of the module and of sections are all different, so each case has its
  -- own.
  rcases fault_cases h with
    ⟨hheader, hlow, hoffset⟩ | ⟨k, b, code, hlast, ⟨hnumber, hmodule, rfl⟩ | hsection⟩
  · refine ⟨hlow, .inl hheader, fun _ => hoffset, ?_, ?_⟩
    · intro hmodule
      exact absurd (hheader.symm.trans hmodule) (by decide)
    · intro id hid
      exact absurd (hid.symm.trans hheader) id.name_ne.1
  · refine ⟨?_, .inr (.inl hmodule), ?_, fun _ => ⟨b, code, hlast, hnumber⟩, ?_⟩
    · exact hlast.size_eq ▸ Nat.le_add_right _ _
    · intro hheader
      exact absurd (hheader.symm.trans hmodule) (by decide)
    · intro id hid
      exact absurd (hid.symm.trans hmodule) id.name_ne.2
  · obtain ⟨id, stop, hnumber, hid, hend, hoffset⟩ := hsection
    refine ⟨hoffset.2.trans (hend.le hlast.size_eq), .inr (.inr ⟨id, hid⟩), ?_, ?_, ?_⟩
    · intro hheader
      exact absurd (hid.symm.trans hheader) id.name_ne.1
    · intro hmodule
      exact absurd (hid.symm.trans hmodule) id.name_ne.2
    · intro id' hid'
      obtain rfl := SectionId.name_injective _ _ (hid.symm.trans hid')
      exact ⟨k, b, code, stop, hlast, hnumber, hend, hoffset⟩

/-- No types, and a function of the first of them. -/
def untypedBytes : ByteArray :=
  ⟨#[0x00, 0x61, 0x73, 0x6d, 0x01, 0x00, 0x00, 0x00,
     0x01, 0x01, 0x00,
     0x03, 0x02, 0x01, 0x00]⟩

/-- Its fault is in the function section. -/
theorem fault_place_untyped : decode untypedBytes = .error ⟨.typeIndex 0, "function", 14⟩ ∧
    ∃ k b code stop, LastHeader untypedBytes k (b :: code) ∧ SectionId.ofNumber? b.toNat =
      some .function ∧
      SectionEnd untypedBytes.size k (b :: code) stop ∧ k ≤ 14 ∧ 14 ≤ stop := by
  have hfault : decode untypedBytes = .error ⟨.typeIndex 0, "function", 14⟩ := by decide +kernel
  obtain ⟨-, -, -, -, hsection⟩ := fault_place hfault
  exact ⟨hfault, hsection .function rfl⟩

end Module

end WasmScript
