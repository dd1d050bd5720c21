/-
  WasmScript/Proofs/Module/Locality.lean
  ======================================
  **Parsers see their stretch only** — two runs of a parser over the same bytes.

  What stands around a stretch of bytes has no part in what is read of it, and the place of the
  stretch shows in offsets only.  `d` bytes further on a parser gives the same and takes as many
  bytes, or it fails for the same cause, at an offset that is larger by `d`.  The offset of a fault
  lies between the place where the parser starts and the end of its stretch.

  `Parser.Local start d p q R` says this of `p` in one place and `q` in the other.  The two differ
  in the offsets that they have saved, none of which is below `start`, and `R` relates what they
  give.  The rules below go through a parser step by step; each parser has one lemma.
-/
import WasmScript.Proofs.Module.Integers
import WasmScript.Module.Decode.Module

namespace WasmScript

/-- Readers of the same bytes in the same section, the second one `d` bytes further on. -/
structure Reader.Shifted (d : Nat) (r s : Reader) : Prop where
  pos : s.pos = r.pos + d
  sectionName : s.sectionName = r.sectionName
  same : ∃ bs, r.BytesLeft bs ∧ s.BytesLeft bs

namespace Reader

variable {d n : Nat} {r s : Reader} {bs : List UInt8}

theorem BytesLeft.le_limit (h : r.BytesLeft bs) : r.pos ≤ r.limit := by
  have hlimit := h.1
  omega

/-- The bytes that are left, taken apart after some of them. -/
theorem BytesLeft.split (h : r.BytesLeft bs) (hn : n ≤ r.remaining) :
    ∃ front back, bs = front ++ back ∧ front.length = n := by
  rw [h.remaining] at hn
  exact ⟨bs.take n, bs.drop n, (List.take_append_drop n bs).symm, List.length_take_of_le hn⟩

theorem remaining_skip (r : Reader) (n : Nat) : (r.skip n).remaining = r.remaining - n :=
  Nat.sub_add_eq _ _ _

namespace Shifted

theorem le_limit (h : r.Shifted d s) : r.pos ≤ r.limit := by
  obtain ⟨_, hr, -⟩ := h.same
  exact hr.le_limit

theorem remaining (h : r.Shifted d s) : s.remaining = r.remaining := by
  obtain ⟨_, hr, hs⟩ := h.same
  rw [hr.remaining, hs.remaining]

theorem skip (h : r.Shifted d s) (hn : n ≤ r.remaining) : (r.skip n).Shifted d (s.skip n) := by
  obtain ⟨bs, hr, hs⟩ := h.same
  obtain ⟨front, back, rfl, rfl⟩ := hr.split hn
  refine ⟨?_, h.sectionName, back, hr.skip, hs.skip⟩
  have hpos := h.pos
  change s.pos + front.length = r.pos + front.length + d
  omega

theorem stretch (h : r.Shifted d s) (hn : n ≤ r.remaining) (sectionName : String) :
    (r.stretch n sectionName).Shifted d (s.stretch n sectionName) := by
  obtain ⟨bs, hr, hs⟩ := h.same
  obtain ⟨front, back, rfl, rfl⟩ := hr.split hn
  exact ⟨h.pos, rfl, front, hr.stretch sectionName, hs.stretch sectionName⟩

end Shifted

end Reader

namespace Parser

variable {α β γ δ : Type} {start d n : Nat} {r s : Reader}

theorem position_eq (r : Reader) : position r = .ok r.pos r := rfl

/-- Outcomes of two runs, from readers that are `d` bytes apart. -/
inductive ShiftedOutcomes (start d : Nat) (r s : Reader) (R : α → β → Prop) :
    EStateM.Result DecodeError Reader α → EStateM.Result DecodeError Reader β → Prop where
  | gives {a : α} {b : β} {n : Nat} : R a b → n ≤ r.remaining →
      ShiftedOutcomes start d r s R (.ok a (r.skip n)) (.ok b (s.skip n))
  | fails {offset n : Nat} (cause : DecodeCause) : start ≤ offset → offset ≤ r.limit →
      n ≤ r.remaining →
      ShiftedOutcomes start d r s R (.error ⟨cause, r.sectionName, offset⟩ (r.skip n))
        (.error ⟨cause, s.sectionName, offset + d⟩ (s.skip n))

/-- A parser and its counterpart `d` bytes further on, from `start` or any later place. -/
def Local (start d : Nat) (p : Parser α) (q : Parser β) (R : α → β → Prop) : Prop :=
  ∀ r s : Reader, start ≤ r.pos → r.Shifted d s → ShiftedOutcomes start d r s R (p r) (q s)

/-- A parser that saves no offsets and gives none. -/
def Steady (p : Parser α) : Prop := ∀ start d, Local start d p p Eq

variable {R : α → β → Prop} {Q : γ → δ → Prop}
variable {p : Parser α} {q : Parser β} {k : α → Parser γ} {l : β → Parser δ}

namespace ShiftedOutcomes

variable {x : EStateM.Result DecodeError Reader α} {y : EStateM.Result DecodeError Reader β}

theorem mono {R' : α → β → Prop} {first : Nat} (h : ShiftedOutcomes start d r s R x y)
    (hfirst : first ≤ start) (hR : ∀ a b, R a b → R' a b) : ShiftedOutcomes first d r s R' x y := by
  cases h with
  | gives hab hn => exact .gives (hR _ _ hab) hn
  | fails cause hlow hhigh hn => exact .fails cause (hfirst.trans hlow) hhigh hn

/-- What comes of the rest of a run comes of the run. -/
theorem after (h : ShiftedOutcomes start d (r.skip n) (s.skip n) R x y) (hn : n ≤ r.remaining) :
    ShiftedOutcomes start d r s R x y := by
  have hleft := r.remaining_skip n
  cases h with
  | gives hab hm =>
    rw [Reader.skip_skip, Reader.skip_skip]
    exact .gives hab (by omega)
  | fails cause hlow hhigh hm =>
    rw [Reader.skip_skip, Reader.skip_skip]
    exact .fails cause hlow hhigh (by omega)

end ShiftedOutcomes

/-! ### Steps -/

namespace Local

theorem bind (hp : Local start d p q R) (hk : ∀ a b, R a b → Local start d (k a) (l b) Q) :
    Local start d (p >>= k) (q >>= l) Q := by
  intro r s hlow h
  have hfirst := hp r s hlow h
  generalize hx : p r = x, hy : q s = y at hfirst
  cases hfirst with
  | gives hab hn =>
    rw [bind_at_ok hx, bind_at_ok hy]
    exact (hk _ _ hab _ _ (Nat.le_add_right_of_le hlow) (h.skip hn)).after hn
  | fails cause hoffset hhigh hn =>
    rw [bind_at_error hx, bind_at_error hy]
    exact .fails cause hoffset hhigh hn

theorem pure {a : α} {b : β} (hab : R a b) : Local start d (pure a) (pure b) R :=
  fun _ _ _ _ => .gives (n := 0) hab (Nat.zero_le _)

theorem mono {R' : α → β → Prop} (hp : Local start d p q R) (hR : ∀ a b, R a b → R' a b) :
    Local start d p q R' :=
  fun r s hlow h => (hp r s hlow h).mono (Nat.le_refl _) hR

theorem map {f : α → γ} {g : β → δ} (hp : Local start d p q R) (h : ∀ a b, R a b → Q (f a) (g b)) :
    Local start d (f <$> p) (g <$> q) Q := by
  rw [map_eq_pure_bind, map_eq_pure_bind]
  exact hp.bind fun a b hab => .pure (h a b hab)

/-- What is known of all that a parser gives may be used of both runs. -/
theorem known {P : α → Prop} (hp : Local start d p q R)
    (h : ∀ r a r' bs, r.BytesLeft bs → p r = .ok a r' → P a) :
    Local start d p q fun a b => P a ∧ R a b := by
  intro r s hlow hshift
  have hrun := hp r s hlow hshift
  obtain ⟨bs, hbs, -⟩ := hshift.same
  generalize hx : p r = x, q s = y at hrun ⊢
  cases hrun with
  | gives hab hn => exact .gives ⟨h r _ _ bs hbs hx, hab⟩ hn
  | fails cause hoffset hhigh hn => exact .fails cause hoffset hhigh hn

/-- A fault at the offset that was saved last. -/
theorem failAt (cause : DecodeCause) :
    Local start d (failAt cause start) (failAt cause (start + d)) R :=
  fun _ _ hlow h => .fails (n := 0) cause (Nat.le_refl _) (hlow.trans h.le_limit) (Nat.zero_le _)

theorem fail (cause : DecodeCause) : Local start d (fail cause) (fail cause) R := by
  intro r s hlow h
  unfold Parser.fail
  rw [h.pos]
  exact .fails (n := 0) cause hlow h.le_limit (Nat.zero_le _)

/-- From where its offset is saved, a parser need not look back further. -/
theorem placed {k : Nat → Parser γ} {l : Nat → Parser δ}
    (hk : ∀ pos, start ≤ pos → Local pos d (k pos) (l (pos + d)) Q) :
    Local start d (position >>= k) (position >>= l) Q := by
  intro r s hlow h
  rw [bind_at_ok (position_eq r), bind_at_ok (position_eq s), h.pos]
  exact (hk r.pos hlow r s (Nat.le_refl _) h).mono hlow fun _ _ hab => hab

/-- A step that gives the same in both places. -/
theorem next {p : Parser α} {k : α → Parser γ} {l : α → Parser δ} (hp : Steady p)
    (hk : ∀ a, Local start d (k a) (l a) Q) : Local start d (p >>= k) (p >>= l) Q := by
  refine (hp start d).bind ?_
  rintro a _ rfl
  exact hk a

theorem ite {c : Prop} [Decidable c] {p' : Parser α} {q' : Parser β} (hp : Local start d p q R)
    (hp' : Local start d p' q' R) :
    Local start d (if c then p else p') (if c then q else q') R := by
  split
  · exact hp
  · exact hp'

end Local

namespace Steady

variable {p p' : Parser α} {k : α → Parser γ}

theorem bind (hp : Steady p) (hk : ∀ a, Steady (k a)) : Steady (p >>= k) :=
  fun start d => .next hp fun a => hk a start d

theorem pure (a : α) : Steady (pure a) := fun _ _ => .pure rfl

theorem map {f : α → γ} (hp : Steady p) : Steady (f <$> p) :=
  fun start d => (hp start d).map fun _ _ hab => congrArg f hab

theorem fail (cause : DecodeCause) : Steady (fail cause : Parser α) := fun _ _ => .fail cause

theorem placed {k : Nat → Parser γ} (hk : ∀ pos d, Local pos d (k pos) (k (pos + d)) Eq) :
    Steady (position >>= k) :=
  fun _ d => .placed fun pos _ => hk pos d

theorem ite {c : Prop} [Decidable c] (hp : Steady p) (hp' : Steady p') :
    Steady (if c then p else p') :=
  fun start d => .ite (hp start d) (hp' start d)

end Steady

theorem steady_remaining : Steady remaining := by
  intro start d r s _ h
  exact .gives (n := 0) h.remaining.symm (Nat.zero_le _)

theorem steady_byte : Steady byte := by
  intro start d r s hlow h
  obtain ⟨bs, hr, hs⟩ := h.same
  cases bs with
  | nil =>
    have hend : s.limit = r.limit + d := by
      have hr' : r.pos = r.limit := hr.1
      have hs' : s.pos = s.limit := hs.1
      rw [← hs', h.pos, hr']
    rw [byte_of_nil hr, byte_of_nil hs, hend]
    exact .fails (n := 0) _ (hlow.trans h.le_limit) (Nat.le_refl _) (Nat.zero_le _)
  | cons b bs =>
    rw [byte_of_bytesLeft hr, byte_of_bytesLeft hs]
    refine .gives rfl ?_
    rw [hr.remaining]
    exact Nat.succ_pos _

theorem steady_peek : Steady peek := by
  intro start d r s _ h
  obtain ⟨bs, hr, hs⟩ := h.same
  cases bs with
  | nil =>
    rw [peek_of_nil hr, peek_of_nil hs]
    exact .gives (n := 0) rfl (Nat.zero_le _)
  | cons b bs =>
    rw [peek_of_bytesLeft hr, peek_of_bytesLeft hs]
    exact .gives (n := 0) rfl (Nat.zero_le _)

theorem steady_bytes (length : Nat) : Steady (bytes length) := by
  intro start d r s hlow h
  unfold Parser.bytes
  rw [h.remaining]
  by_cases hlength : r.remaining < length
  · rw [if_pos hlength, if_pos hlength]
    exact Local.fail (R := Eq) _ r s hlow h
  · rw [if_neg hlength, if_neg hlength]
    obtain ⟨bs, hr, hs⟩ := h.same
    obtain ⟨front, back, rfl, rfl⟩ := hr.split (Nat.le_of_not_lt hlength)
    exact .gives (ByteArray.ext (Array.ext' (hr.extract.trans hs.extract.symm)))
      (Nat.le_of_not_lt hlength)

theorem within_of_lt {p : Parser α} {length : Nat} (h : r.remaining < length)
    (sectionName : Option String) :
    within length sectionName p r = .error ⟨.lengthOverrun length, r.sectionName, r.pos⟩ r := by
  have hsub : sub length sectionName r = .error ⟨.lengthOverrun length, r.sectionName, r.pos⟩ r :=
    if_pos h
  exact bind_at_error hsub

theorem within_of_le {p : Parser α} {length : Nat} (h : length ≤ r.remaining)
    (sectionName : Option String) :
    within length sectionName p r =
      match p (r.stretch length (sectionName.getD r.sectionName)) with
      | .ok a _ => .ok a (r.skip length)
      | .error e _ => .error e (r.skip length) := by
  have hsub : sub length sectionName r
      = .ok (r.stretch length (sectionName.getD r.sectionName)) (r.skip length) :=
        if_neg (Nat.not_lt.mpr h)
  exact bind_at_ok hsub

theorem Local.within (hp : Local start d p q R) (length : Nat) :
    Local start d (within length none p) (within length none q) R := by
  intro r s hlow h
  rcases Nat.lt_or_ge r.remaining length with hlt | hle
  · rw [within_of_lt hlt, within_of_lt (h.remaining ▸ hlt), h.pos]
    exact .fails (n := 0) _ hlow h.le_limit (Nat.zero_le _)
  · rw [within_of_le hle, within_of_le (h.remaining ▸ hle)]
    have hinner := hp (r.stretch length r.sectionName) (s.stretch length r.sectionName) hlow
      (h.stretch hle r.sectionName)
    have hlimit : r.pos + length ≤ r.limit := by
      have hpos := h.le_limit
      unfold Reader.remaining at hle
      omega
    simp only [Option.getD_none, h.sectionName]
    generalize p (r.stretch length r.sectionName) = x, q (s.stretch length r.sectionName) =
      y at hinner ⊢
    cases hinner with
    | gives hab _ => exact .gives hab hle
    | fails cause hoffset hhigh _ =>
      have houter :=
        ShiftedOutcomes.fails (R := R) (s := s) (d := d) cause hoffset
          (Nat.le_trans hhigh hlimit) hle
      rwa [h.sectionName] at houter

/-! ### Integers, names and vectors -/

theorem local_u32Loop (start left : Nat) : ∀ i result : Nat,
    Local start d (u32Loop start left i result) (u32Loop (start + d) left i result) Eq := by
  induction left with
  | zero => exact fun i result => .failAt _
  | succ left ih =>
    intro i result
    refine .next steady_byte fun b => ?_
    exact .ite (.failAt _) (.ite (.pure rfl) (ih _ _))

theorem steady_u32 : Steady u32 := .placed fun start _ => local_u32Loop start 5 0 0

theorem local_signedTail (type : String) (spare start left : Nat) : ∀ shift : Nat,
    Local start d (signedTail type spare start left shift)
      (signedTail type spare (start + d) left shift) Eq := by
  induction left with
  | zero => exact fun shift => .failAt _
  | succ left ih =>
    intro shift
    refine .next steady_byte fun b => ?_
    refine .ite (.failAt _) (.ite (.pure rfl) ((ih _).bind ?_))
    rintro high _ rfl
    exact .pure rfl

theorem steady_s32 : Steady s32 := by
  rw [s32_eq]
  exact .placed fun start _ => local_signedTail "s32" 0x78 start 5 0

theorem steady_s64 : Steady s64 := by
  rw [s64_eq]
  exact .placed fun start _ => local_signedTail "s64" 0x7f start 10 0

theorem steady_name : Steady name := by
  refine .placed fun start d => .next steady_u32 fun length =>
    .next (steady_bytes length) fun content => ?_
  cases text? content with
  | some s => exact .pure rfl
  | none => exact .failAt _

theorem steady_repeated {p : Parser α} (hp : Steady p) (count : Nat) :
    ∀ items : Array α, Steady (repeated p count items) := by
  induction count with
  | zero => exact fun items => .pure _
  | succ count ih => exact fun items => .bind hp fun a => ih _

theorem steady_vectorCount : Steady vectorCount := by
  refine .bind steady_u32 fun count => .bind steady_remaining fun left => ?_
  exact .ite (.fail _) (.pure _)

theorem steady_vector {p : Parser α} (hp : Steady p) : Steady (vector p) :=
  .bind steady_vectorCount fun count => steady_repeated hp count #[]

theorem steady_valueType : Steady valueType := by
  refine .placed fun pos d => .next steady_byte fun b => ?_
  split
  · exact .pure rfl
  · exact .pure rfl
  all_goals exact .failAt _

end Parser

namespace Decode

open WasmScript.Parser

variable {scope : Scope} {start d : Nat}

/-! ### Instructions -/

theorem steady_blockType : Steady (blockType scope) := by
  refine .placed fun pos d => .next steady_peek fun next => ?_
  split
  · exact .next steady_byte fun _ => .pure rfl
  · refine .ite (.next steady_valueType fun _ => .pure rfl) (.next steady_s64 fun index => ?_)
    split
    · exact .pure rfl
    · exact .failAt _

theorem steady_memArg (access : Access) : Steady (memArg access) := by
  refine .placed fun pos d => .next steady_u32 fun align => ?_
  exact .ite (.failAt _) (.ite (.failAt _) (.next steady_u32 fun _ => .pure rfl))

theorem steady_memoryIndex : Steady memoryIndex :=
  .placed fun _ _ => .next steady_byte fun _ => .ite (.failAt _) (.pure rfl)

theorem local_escaped (pos : Nat) : Local pos d (escaped pos) (escaped (pos + d)) Eq := by
  refine .next steady_u32 fun number => ?_
  split
  · exact .next steady_memoryIndex fun _ => .next steady_memoryIndex fun _ => .pure rfl
  · exact .next steady_memoryIndex fun _ => .pure rfl
  · exact .failAt _
  · exact .failAt _
  · exact .ite (.failAt _) (.ite (.failAt _) (.failAt _))

theorem local_plain (pos byte : Nat) : Local pos d (plain pos byte) (plain (pos + d) byte) Eq :=
  .ite (.failAt _)
    (.ite (.failAt _) (.ite (.pure rfl) (.ite (.failAt _) (.ite (.failAt _) (.failAt _)))))

theorem local_access (pos byte : Nat) :
    Local pos d (access pos byte) (access (pos + d) byte) Eq := by
  unfold access
  split
  · exact .next (steady_memArg _) fun arg => .pure rfl
  · exact .failAt _

theorem local_operation (pos first : Nat) :
    Local pos d (operation scope pos first) (operation scope (pos + d) first) Eq := by
  unfold operation
  split
  case h_10 =>
    exact .next (steady_vector steady_u32) fun depths => .next steady_u32 fun _ => .pure rfl
  case h_12 => exact .next steady_u32 fun index => .ite (.pure rfl) (.failAt _)
  case h_16 =>
    exact .next (steady_vector steady_valueType) fun types => .ite (.pure rfl) (.failAt _)
  case h_22 => exact .next steady_memoryIndex fun _ => .pure rfl
  case h_23 => exact .next steady_memoryIndex fun _ => .pure rfl
  case h_24 => exact steady_s32.map pos d
  case h_25 => exact steady_s64.map pos d
  case h_28 => exact local_escaped pos
  case h_31 => exact local_access pos first
  case h_32 => exact local_plain pos first
  all_goals first
    | exact .pure rfl
    | exact steady_u32.map pos d
    | exact steady_blockType.map pos d
    | exact .failAt _

end Decode

end WasmScript
