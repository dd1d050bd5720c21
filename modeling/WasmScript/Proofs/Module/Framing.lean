/-
  WasmScript/Proofs/Module/Framing.lean
  =====================================
  **Sections in their order** — that framed contents are read one section after another.

  `Decode.Continues bytes rank p Q` says that whatever section came last, as long as its
  rank is below `rank`, reading goes on through `bytes` and ends with `Q`.  A section of
  higher rank goes before such bytes by one step, and so does a section that is left out.
-/
import WasmScript.Proofs.Module.Sections

namespace WasmScript

namespace Assembler

theorem length_lt_sectionBytes (id : SectionId) (content : List UInt8) :
    content.length < (sectionBytes id content).length := by
  rw [sectionBytes, counted, List.length_cons, List.length_append]
  omega

/-- The content of a section of items is shorter than the section. -/
theorem length_lt_itemBytes (id : SectionId) {bss : List (List UInt8)} (h : bss ≠ []) :
    (u32 bss.length ++ bss.flatten).length < (itemBytes id bss).length := by
  rw [itemBytes, if_neg h]
  exact length_lt_sectionBytes id _

theorem length_flatten_le_itemBytes (id : SectionId) (bss : List (List UInt8)) :
    bss.flatten.length ≤ (itemBytes id bss).length := by
  by_cases h : bss = []
  · subst h
    exact Nat.zero_le _
  · have hlt := length_lt_itemBytes id h
    rw [List.length_append] at hlt
    omega

/-- No item is longer than its section. -/
theorem length_le_itemBytes (id : SectionId) {bss : List (List UInt8)} {bs : List UInt8}
    (h : bs ∈ bss) : bs.length ≤ (itemBytes id bss).length :=
  (List.sublist_flatten_of_mem h).length_le.trans (length_flatten_le_itemBytes id bss)

/-- A section has at least a byte for each item. -/
theorem count_le_itemBytes (id : SectionId) {bss : List (List UInt8)} (h : ∀ bs ∈ bss, bs ≠ []) :
    bss.length ≤ (itemBytes id bss).length := by
  have hle := Parser.length_le_flatten (R := fun _ bs => bs ≠ []) (List.forall₂_same.mpr h)
    fun _ _ h => h
  exact hle.trans (length_flatten_le_itemBytes id bss)

end Assembler

namespace Decode

open WasmScript.Parser Assembler

variable {p : Progress} {bytes rest : List UInt8} {id : SectionId} {Q : Progress → Prop}

/-- Whether reading goes on after any section of a rank below `rank`. -/
def Continues (bytes : List UInt8) (rank : Nat) (p : Progress) (Q : Progress → Prop) : Prop :=
  ∀ (fuel : Nat) (last : Option Nat), bytes.length < fuel → (∀ r ∈ last, r < rank) →
    (sections fuel last p).Reads bytes [] Q

theorem Continues.mono {low high : Nat} (h : Continues bytes high p Q) (hle : low ≤ high) :
    Continues bytes low p Q :=
  fun fuel last hfuel hlast => h fuel last hfuel fun r hr => Nat.lt_of_lt_of_le (hlast r hr) hle

theorem reads_entering (sectionName : String) (bs : List UInt8) :
    (entering sectionName).Reads bs bs fun _ => True :=
  fun r hr => ⟨(), { r with sectionName := sectionName }, rfl, hr, trivial⟩

theorem continues_end (rank : Nat) (h : Q p) : Continues [] rank p Q := by
  intro fuel last hfuel _
  obtain ⟨fuel, rfl⟩ := Nat.exists_eq_succ_of_ne_zero (Nat.ne_of_gt hfuel)
  refine .bind reads_remaining ?_
  rintro _ rfl
  exact reads_pure h

/-- What starts the reading of a section, whatever its number. -/
theorem continues_step {rank : Nat} {content : List UInt8}
    (h : ∀ fuel : Nat, rest.length < fuel → ∀ last : Option Nat, (∀ r ∈ last, r < rank) →
      ∀ start : Nat, (match SectionId.ofNumber? id.number with
        | none => failAt (.unknownSection id.number) start
        | some .custom => do
          entering SectionId.custom.name
          let size ← u32
          let label ← within size (some SectionId.custom.name) name
          let m := p.module
          sections fuel last
            { p with module := { m with customSections := m.customSections ++ [label] } }
        | some id => do
          entering id.name
          let size ← u32
          let p ← within size (some id.name) do
            if last.any fun rank => decide (id.rank ≤ rank) then
              failAt (.sectionOrder id.name) start
            else
              let p ← contents id p
              let rest ← remaining
              if rest ≠ 0 then fail (.unreadBytes id.name rest) else pure p
          sections fuel (some id.rank) p : Parser Progress).Reads
        (counted content ++ rest) [] Q) :
    Continues (sectionBytes id content ++ rest) rank p Q := by
  intro fuel last hfuel hlast
  rw [sectionBytes, List.cons_append, List.length_cons, List.length_append] at hfuel
  -- There is fuel for each byte that is left, and this section takes some.
  obtain ⟨fuel, rfl⟩ := Nat.exists_eq_succ_of_ne_zero (show fuel ≠ 0 by omega)
  refine .bind reads_remaining ?_
  rintro _ rfl
  rw [if_neg (by simp [sectionBytes])]
  refine .bind (reads_entering "module" _) fun _ _ => .bind reads_position fun start _ => ?_
  have hnumber : (UInt8.ofNat id.number).toNat = id.number := by cases id <;> rfl
  refine .bind (accepts_byte (counted content ++ rest)) ?_
  rintro _ rfl
  rw [hnumber]
  exact h fuel (by omega) last hlast start

theorem continues_section {content : List UInt8} {P : Progress → Prop} (hid : id ≠ .custom)
    (hread : (contents id p).Reads content [] P) (hsize : content.length < 2 ^ 32)
    (hnext : ∀ p', P p' → Continues rest (id.rank + 1) p' Q) :
    Continues (sectionBytes id content ++ rest) id.rank p Q := by
  refine continues_step fun fuel hfuel last hlast start => ?_
  have hfound : SectionId.ofNumber? id.number = some id := by cases id <;> rfl
  have hinner : (do
      if last.any fun rank => decide (id.rank ≤ rank) then failAt (.sectionOrder id.name) start
      else
        let p ← contents id p
        let rest ← remaining
        if rest ≠ 0 then fail (.unreadBytes id.name rest) else pure p : Parser Progress).Reads
      content [] P := by
    -- The section before it has a lower rank.
    have hrank : ¬ (last.any fun rank => decide (id.rank ≤ rank)) = true := by
      cases last with
      | none => exact Bool.false_ne_true
      | some r =>
        have hr := hlast r rfl
        simp only [Option.any_some, decide_eq_true_eq]
        omega
    rw [if_neg hrank]
    refine .bind hread fun p' hp' => .bind reads_remaining ?_
    rintro _ rfl
    exact reads_pure hp'
  rw [hfound]
  cases id with
  | custom => exact (hid rfl).elim
  | _ =>
    refine .bind (reads_entering _ _) fun _ _ => ?_
    rw [counted, List.append_assoc]
    refine .bind (accepts_u32 (u32_spec hsize) _) ?_
    rintro _ rfl
    refine .bind (accepts_within hinner _ rest) fun p' hp' => ?_
    exact hnext p' hp' fuel _ hfuel fun r hr => by
      obtain rfl := Option.some.inj hr
      exact Nat.lt_succ_self _

/-- A section of items, or nothing in its place, of which a property is known. -/
theorem continues_found {bss : List (List UInt8)} {P : Progress → Prop} (hid : id ≠ .custom)
    (hitem : ∀ bs ∈ bss, bs ≠ []) (hsize : (itemBytes id bss).length < 2 ^ 32)
    (hread : Leb128.Unsigned 32 bss.length (u32 bss.length) →
      (contents id p).Reads (u32 bss.length ++ bss.flatten) [] P)
    (hempty : bss = [] → P p) (hnext : ∀ p', P p' → Continues rest (id.rank + 1) p' Q) :
    Continues (itemBytes id bss ++ rest) id.rank p Q := by
  by_cases h : bss = []
  · subst h
    exact (hnext p (hempty rfl)).mono (Nat.le_succ _)
  · have hlt := length_lt_itemBytes id h
    have hcount := count_le_itemBytes id hitem
    rw [itemBytes, if_neg h]
    exact continues_section hid (hread (u32_spec (by omega))) (by omega) hnext

/-- A section of items, or nothing in its place. -/
theorem continues_items {bss : List (List UInt8)} {p' : Progress} (hid : id ≠ .custom)
    (hitem : ∀ bs ∈ bss, bs ≠ []) (hsize : (itemBytes id bss).length < 2 ^ 32)
    (hread : Leb128.Unsigned 32 bss.length (u32 bss.length) →
      (contents id p).Reads (u32 bss.length ++ bss.flatten) [] (· = p'))
    (hempty : bss = [] → p = p') (hnext : Continues rest (id.rank + 1) p' Q) :
    Continues (itemBytes id bss ++ rest) id.rank p Q := by
  refine continues_found hid hitem hsize hread hempty ?_
  rintro _ rfl
  exact hnext

/-- A section of items that are read by one parser. -/
theorem continues_vector {α : Type} {item : Parser α} {as : List α} {bss : List (List UInt8)}
    (set : Array α → Progress) (hid : id ≠ .custom)
    (hcontents : contents id p = vector item >>= fun found => pure (set found)) (hset : set #[] = p)
    (hitems : Items item as bss) (hsize : (itemBytes id bss).length < 2 ^ 32)
    (hnext : Continues rest (id.rank + 1) (set as.toArray) Q) :
    Continues (itemBytes id bss ++ rest) id.rank p Q := by
  refine continues_items hid (ne_nil_of_items hitems) hsize (fun hcount => ?_) (fun hnil => ?_)
    hnext
  · rw [← hitems.length_eq] at hcount ⊢
    have hvector := accepts_vector hcount hitems []
    rw [List.append_nil] at hvector
    rw [hcontents]
    refine .bind hvector ?_
    rintro _ rfl
    exact reads_pure rfl
  · subst hnil
    obtain rfl := List.forall₂_nil_right_iff.mp hitems
    exact hset.symm

/-- Custom sections, of which the names are kept. -/
theorem continues_custom {names : List String} {cs : List (List UInt8)} (rank : Nat)
    (h : List.Forall₂ (fun label content => IsName label ∧
      ∃ more, content = encodeName label ++ more) names cs)
    (hsize : (cs.flatMap (sectionBytes .custom)).length < 2 ^ 32) :
    ∀ p : Progress, Q { p with module :=
        { p.module with customSections := p.module.customSections ++ names } } →
      Continues (cs.flatMap (sectionBytes .custom)) rank p Q := by
  -- The induction is on the sections, whose names are added one after the other.
  induction h with
  | nil =>
    intro p hp
    rw [List.append_nil] at hp
    exact continues_end rank hp
  | @cons label content names cs hhead _ ih =>
    intro p hp
    obtain ⟨hlabel, more, rfl⟩ := hhead
    rw [List.flatMap_cons, List.length_append] at hsize
    have hlt := length_lt_sectionBytes .custom (encodeName label ++ more)
    have hlabelSize : (encodeName label).length < 2 ^ 32 := by
      rw [List.length_append] at hlt
      omega
    refine continues_step fun fuel hfuel last hlast start => ?_
    refine .bind (reads_entering _ _) fun _ _ => ?_
    rw [counted, List.append_assoc]
    refine .bind (accepts_u32 (u32_spec (by omega)) _) ?_
    rintro _ rfl
    refine .bind (accepts_within (accepts_encodedName hlabel hlabelSize more) _ _) ?_
    rintro _ rfl
    refine ih (by omega) _ ?_ fuel last hfuel hlast
    rw [List.append_assoc]
    exact hp

theorem reads_header (rest : List UInt8) :
    header.Reads (Binary.magic ++ (Binary.version ++ rest)) rest fun _ => True := by
  refine .bind reads_remaining ?_
  rintro _ rfl
  have hlong : ¬ (Binary.magic ++ (Binary.version ++ rest)).length < 8 := by
    simp only [Binary.magic, Binary.version, List.length_append, List.length_cons, List.length_nil]
    omega
  rw [if_neg hlong]
  refine .bind (@accepts_bytes Binary.magic _) fun magic hmagic => ?_
  rw [if_neg (not_not.mpr hmagic)]
  refine .bind (@accepts_bytes Binary.version rest) fun version hversion => ?_
  rw [if_neg (not_not.mpr hversion)]
  exact reads_pure trivial

end Decode

end WasmScript
