/-
  WasmScript/Proofs/Module/BlockTypes.lean
  ========================================
  **Readers of block types** — which bytes are taken for a block type.

  The first byte tells three encodings apart: `0x40` stands for nothing, another byte from
  `0x41` to `0x7f` for a single result, and everything else starts the index of a type.
  The format has indices of 33 bits, in at most five bytes, but the reader takes those of
  64 bits.  So it takes some codes that are not of the format, the `Overlong` ones, and
  nothing else: `blockTypes_read_iff_not_overlong`.
-/
import WasmScript.Proofs.Module.Encoding
import WasmScript.Proofs.Module.Integers

namespace WasmScript

open Leb128 WasmScript.Parser

/-! ### Codes -/

theorem ValueType.byte_range (t : ValueType) : 0x40 < t.byte.toNat ∧ t.byte.toNat < 0x80 := by
  cases t <;> decide

/-- Bytes that name a type by an index of 64 bits. -/
def BlockType.Named (types : Array FunctionType) (type : BlockType) (code : List UInt8) : Prop :=
  ∃ index : Nat, types[index]? = some type ∧ Signed 64 index code

/-- Bytes that name a type by an index of 64 bits that is not one of 33 bits. -/
def BlockType.Overlong (types : Array FunctionType) (type : BlockType) (code : List UInt8) : Prop :=
  ∃ index : Nat, types[index]? = some type ∧ Signed 64 index code ∧ ¬ Signed 33 index code

variable {types : Array FunctionType} {type : BlockType} {code : List UInt8}

/-- Indices of 33 bits are those of five bytes at most. -/
theorem signed33_iff_length {index : Nat} (hsize : index < 2 ^ 32) (h : Signed 64 index code) :
    Signed 33 index code ↔ code.length ≤ 5 := by
  constructor
  · intro hshort
    have hlength := hshort.length_lt (by decide)
    omega
  · intro hlength
    exact h.narrow (by omega) (by omega) (by exact_mod_cast hsize)

theorem encoded_or_overlong_iff :
    type.Encoded types code ∨ type.Overlong types code ↔
      (type = ⟨[], []⟩ ∧ code = [0x40]) ∨ (∃ t : ValueType, type = ⟨[], [t]⟩ ∧ code = [t.byte]) ∨
        type.Named types code := by
  constructor
  · rintro (hcode | ⟨index, htype, hcode, -⟩)
    · cases hcode with
      | empty => exact .inl ⟨rfl, rfl⟩
      | single t => exact .inr (.inl ⟨t, rfl, rfl⟩)
      | indexed htype hcode => exact .inr (.inr ⟨_, htype, hcode.mono (by decide)⟩)
    · exact .inr (.inr ⟨index, htype, hcode⟩)
  · rintro (⟨rfl, rfl⟩ | ⟨t, rfl, rfl⟩ | ⟨index, htype, hcode⟩)
    · exact .inl .empty
    · exact .inl (.single t)
    · by_cases hshort : Signed 33 index code
      · exact .inl (.indexed htype hshort)
      · exact .inr ⟨index, htype, hcode, hshort⟩

namespace Decode

/-- Whether some bytes do not start with one that stands for a block type by itself. -/
def StartsIndex (bs : List UInt8) : Prop := ∀ b ∈ bs.head?, b.toNat < 0x40 ∨ 0x80 ≤ b.toNat

variable {scope : Scope} {r r' : Reader} {bs rest : List UInt8} {b : UInt8}

/-! ### The three encodings -/

theorem valueType_ok_iff (h : r.BytesLeft (b :: rest)) {t : ValueType} :
    valueType r = .ok t r' ↔ b = t.byte ∧ r' = r.skip 1 := by
  constructor
  · intro hok
    obtain ⟨pos, _, hpos, hok⟩ := bind_at_eq_ok hok
    cases hpos
    obtain ⟨n, _, hbyte, hok⟩ := bind_at_eq_ok hok
    rw [byte_of_bytesLeft h] at hbyte
    cases hbyte
    generalize hn : b.toNat = n at hok
    split at hok
    · cases hok
      exact ⟨UInt8.toNat_inj.mp hn, rfl⟩
    · cases hok
      exact ⟨UInt8.toNat_inj.mp hn, rfl⟩
    all_goals cases hok
  · rintro ⟨rfl, rfl⟩
    have hrun : valueType r = _ := (bind_at_ok rfl).trans (bind_at_ok (byte_of_bytesLeft h))
    rw [hrun]
    cases t <;> rfl

def named (scope : Scope) (pos : Nat) : Parser BlockType := do
  let index ← s64
  match if 0 ≤ index then scope.types[index.toNat]? else none with
  | some type => pure type
  | none => failAt (.blockTypeIndex index) pos

theorem blockType_empty (h : r.BytesLeft (0x40 :: rest)) :
    blockType scope r = .ok ⟨[], []⟩ (r.skip 1) := by
  refine (bind_at_ok rfl).trans ((bind_at_ok (peek_of_bytesLeft h)).trans ?_)
  exact bind_at_ok (byte_of_bytesLeft h)

theorem blockType_single (h : r.BytesLeft (b :: rest)) (hempty : b.toNat ≠ 0x40)
    (hb : 0x40 ≤ b.toNat ∧ b.toNat < 0x80) :
    blockType scope r = (valueType >>= fun t => pure ⟨[], [t]⟩) r := by
  refine (bind_at_ok rfl).trans ((bind_at_ok (peek_of_bytesLeft h)).trans (congrFun ?_ r))
  split
  · next heq => exact absurd (Option.some.inj heq) hempty
  · rw [Option.any_some, if_pos (decide_eq_true hb)]

theorem blockType_named (h : r.BytesLeft bs) (hb : StartsIndex bs) :
    blockType scope r = named scope r.pos r := by
  cases bs with
  | nil => exact (bind_at_ok rfl).trans (bind_at_ok (peek_of_nil h))
  | cons b rest =>
    have hrange := hb b rfl
    refine (bind_at_ok rfl).trans ((bind_at_ok (peek_of_bytesLeft h)).trans (congrFun ?_ r))
    split
    · next heq =>
      have hforty : b.toNat = 0x40 := Option.some.inj heq
      omega
    · rw [Option.any_some, if_neg]
      · rfl
      · intro hany
        have hboth := of_decide_eq_true hany
        omega

/-! ### Indices -/

theorem named_ok_iff (h : r.BytesLeft bs) {pos : Nat} : named scope pos r = .ok type r' ↔
    ∃ code, code <+: bs ∧ type.Named scope.types code ∧ r' = r.skip code.length := by
  constructor
  · intro hok
    obtain ⟨n, r₁, hindex, hok⟩ := bind_at_eq_ok hok
    obtain ⟨code, hbegin, hcode, rfl⟩ := (recognizes_s64.accepts_iff h n r₁).mp hindex
    cases hfound : if 0 ≤ n then scope.types[n.toNat]? else none with
    | none => rw [hfound] at hok; cases hok
    | some found =>
      rw [hfound] at hok
      cases hok
      obtain ⟨hpos, htype⟩ := Option.ite_none_right_eq_some.mp hfound
      obtain ⟨index, rfl⟩ := Int.eq_ofNat_of_zero_le hpos
      exact ⟨code, hbegin, ⟨index, htype, hcode⟩, rfl⟩
  · rintro ⟨code, hbegin, ⟨index, htype, hcode⟩, rfl⟩
    have hindex := (recognizes_s64.accepts_iff h index _).mpr ⟨code, hbegin, hcode, rfl⟩
    refine (bind_at_ok hindex).trans ?_
    rw [if_pos (Int.natCast_nonneg index), Int.toNat_natCast, htype]
    rfl

theorem named_of_none (h : r.BytesLeft bs) {pos : Nat} {n : Int} (hbegin : code <+: bs)
    (hcode : Signed 64 n code) (hnone : ∀ index : Nat, n = index → scope.types[index]? = none) :
    named scope pos r = .error ⟨.blockTypeIndex n, r.sectionName, pos⟩ (r.skip code.length) := by
  have hindex := (recognizes_s64.accepts_iff h n _).mpr ⟨code, hbegin, hcode, rfl⟩
  have hfound : (if 0 ≤ n then scope.types[n.toNat]? else none) = none := by
    split
    · next hpos => exact hnone n.toNat (Int.toNat_of_nonneg hpos).symm
    · rfl
  refine (bind_at_ok hindex).trans ?_
  rw [hfound]
  rfl

/-! ### What is read -/

theorem startsIndex_of_named (hcode : type.Named types code) (hbegin : code <+: bs) :
    StartsIndex bs := by
  obtain ⟨index, -, hindex⟩ := hcode
  obtain ⟨b, rest, rfl, hb⟩ := first_of_index hindex
  obtain ⟨more, rfl⟩ := hbegin
  rintro _ ⟨⟩
  exact hb

theorem not_startsIndex_of_byte (hbegin : [b] <+: bs) (hb : 0x40 ≤ b.toNat ∧ b.toNat < 0x80) :
    ¬ StartsIndex bs := by
  obtain ⟨rest, rfl⟩ := hbegin
  intro hstarts
  have hrange := hstarts b rfl
  omega

theorem exists_byte_of_not_startsIndex (h : ¬ StartsIndex bs) :
    ∃ b rest, bs = b :: rest ∧ 0x40 ≤ b.toNat ∧ b.toNat < 0x80 := by
  cases bs with
  | nil => exact absurd (fun _ hb => nomatch hb) h
  | cons b rest =>
    by_contra hnone
    refine h ?_
    rintro _ ⟨⟩
    by_contra hrange
    exact hnone ⟨b, rest, rfl, by omega, by omega⟩

/-- The codes that are taken, and where the reader stands after them. -/
theorem blockType_ok_iff (h : r.BytesLeft bs) : blockType scope r = .ok type r' ↔
    ∃ code, code <+: bs ∧ (type.Encoded scope.types code ∨ type.Overlong scope.types code) ∧
      r' = r.skip code.length := by
  simp only [encoded_or_overlong_iff]
  -- The first byte tells an index from the codes of a single byte.
  by_cases hb : StartsIndex bs
  · rw [blockType_named h hb, named_ok_iff h]
    constructor
    · rintro ⟨code, hbegin, hcode, rfl⟩
      exact ⟨code, hbegin, .inr (.inr hcode), rfl⟩
    · rintro ⟨code, hbegin, ⟨-, rfl⟩ | ⟨t, -, rfl⟩ | hcode, rfl⟩
      · exact absurd hb (not_startsIndex_of_byte hbegin (by decide))
      · have hrange := ValueType.byte_range t
        exact absurd hb (not_startsIndex_of_byte hbegin ⟨Nat.le_of_lt hrange.1, hrange.2⟩)
      · exact ⟨code, hbegin, hcode, rfl⟩
  · obtain ⟨b, rest, rfl, hrange⟩ := exists_byte_of_not_startsIndex hb
    by_cases hempty : b = 0x40
    · subst hempty
      rw [blockType_empty h]
      constructor
      · rintro ⟨⟩
        exact ⟨[0x40], ⟨rest, rfl⟩, .inl ⟨rfl, rfl⟩, rfl⟩
      · rintro ⟨code, hbegin, ⟨rfl, rfl⟩ | ⟨t, -, rfl⟩ | hcode, rfl⟩
        · rfl
        · have hbyte : t.byte = 0x40 := (List.cons_prefix_cons.mp hbegin).1
          cases t <;> cases hbyte
        · exact absurd (startsIndex_of_named hcode hbegin) hb
    · rw [blockType_single h (fun hbyte => hempty (UInt8.toNat_inj.mp hbyte)) hrange]
      constructor
      · intro hok
        obtain ⟨t, r₁, ht, hok⟩ := bind_at_eq_ok hok
        cases hok
        obtain ⟨rfl, rfl⟩ := (valueType_ok_iff h).mp ht
        exact ⟨[t.byte], ⟨rest, rfl⟩, .inr (.inl ⟨t, rfl, rfl⟩), rfl⟩
      · rintro ⟨code, hbegin, ⟨-, rfl⟩ | ⟨t, rfl, rfl⟩ | hcode, rfl⟩
        · exact absurd (List.cons_prefix_cons.mp hbegin).1.symm hempty
        · have hbyte : b = t.byte := (List.cons_prefix_cons.mp hbegin).1.symm
          exact bind_at_ok ((valueType_ok_iff h).mpr ⟨hbyte, rfl⟩)
        · exact absurd (startsIndex_of_named hcode hbegin) hb

/-- A code of the format is not an overlong one of another type either. -/
theorem not_encoded_of_overlong {other : BlockType} (hlong : type.Overlong types code) :
    ¬ other.Encoded types code := by
  obtain ⟨index, htype, hindex, hnot⟩ := hlong
  intro hcode
  cases hcode with
  | empty =>
    obtain ⟨b, rest, hbytes, hb⟩ := first_of_index hindex
    cases hbytes
    revert hb
    decide
  | single t =>
    have hrange := ValueType.byte_range t
    obtain ⟨b, rest, hbytes, hb⟩ := first_of_index hindex
    cases hbytes
    omega
  | indexed _ hshort => exact hnot (hindex.unique (hshort.mono (by decide)) ▸ hshort)

/-- The reader takes the block types of the format and nothing else exactly where no overlong
index stands.  That one is taken as well, although it has more than five bytes.  Any other index
is refused where it starts, as one that names no type or as malformed. -/
theorem blockTypes_read_iff_not_overlong (scope : Scope) {r : Reader} {bs : List UInt8}
    (h : r.BytesLeft bs) :
    ((∀ (type : BlockType) (r' : Reader), blockType scope r = .ok type r' ↔
        ∃ code, code <+: bs ∧ type.Encoded scope.types code ∧ r' = r.skip code.length) ↔
      ¬ ∃ (type : BlockType) (code : List UInt8), code <+: bs ∧ type.Overlong scope.types code) ∧
    (∀ (type : BlockType) (code : List UInt8), code <+: bs → type.Overlong scope.types code →
      blockType scope r = .ok type (r.skip code.length)) ∧
    (∀ (index : Nat) (code : List UInt8), index < 2 ^ 32 → Signed 64 index code →
      (Signed 33 index code ↔ code.length ≤ 5)) ∧
    (∀ (n : Int) (code : List UInt8), StartsIndex bs → code <+: bs → Signed 64 n code →
      (∀ index : Nat, n = index → scope.types[index]? = none) →
      ∃ r', blockType scope r = .error ⟨.blockTypeIndex n, r.sectionName, r.pos⟩ r') ∧
    (StartsIndex bs → ¬ BrokenOff 10 bs → (∀ n code, Signed 64 n code → ¬ code <+: bs) →
      ∃ r', blockType scope r = .error ⟨.integerTooLarge "s64", r.sectionName, r.pos⟩ r') := by
  refine ⟨⟨?_, ?_⟩, ?_, ?_, ?_, ?_⟩
  · rintro hformat ⟨type, code, hbegin, hlong⟩
    have hok := (blockType_ok_iff h).mpr ⟨code, hbegin, .inr hlong, rfl⟩
    obtain ⟨other, hother, hcode, hskip⟩ := (hformat _ _).mp hok
    have hlength : other.length = code.length := by
      have hpos := congrArg Reader.pos hskip
      exact (Nat.add_left_cancel hpos).symm
    -- Two codes at the front of the bytes are one if they have the same length.
    have hsame : other = code :=
      (List.prefix_of_prefix_length_le hother hbegin hlength.le).eq_of_length hlength
    exact not_encoded_of_overlong hlong (hsame ▸ hcode)
  · intro hnone type r'
    rw [blockType_ok_iff h]
    constructor
    · rintro ⟨code, hbegin, hcode | hlong, rfl⟩
      · exact ⟨code, hbegin, hcode, rfl⟩
      · exact absurd ⟨type, code, hbegin, hlong⟩ hnone
    · rintro ⟨code, hbegin, hcode, rfl⟩
      exact ⟨code, hbegin, .inl hcode, rfl⟩
  · intro type code hbegin hlong
    exact (blockType_ok_iff h).mpr ⟨code, hbegin, .inr hlong, rfl⟩
  · intro index code hsize hcode
    exact signed33_iff_length hsize hcode
  · intro n code hb hbegin hcode hnone
    exact ⟨_, (blockType_named h hb).trans (named_of_none h hbegin hcode hnone)⟩
  · intro hb hbroken hnone
    obtain ⟨r', hfail⟩ := recognizes_s64.refuses h hbroken hnone
    exact ⟨r', (blockType_named h hb).trans (bind_at_error hfail)⟩

/-- A padded index of five bytes is one of the format. -/
theorem blockTypes_read_iff_not_overlong_padded :
    (Reader.ofBytes ⟨#[0x80, 0x80, 0x80, 0x80, 0x00]⟩ "code").BytesLeft
    [0x80, 0x80, 0x80, 0x80, 0x00] ∧
      blockType ⟨#[⟨[.i64], [.i32]⟩], 0⟩ (.ofBytes ⟨#[0x80, 0x80, 0x80, 0x80, 0x00]⟩ "code")
        = .ok ⟨[.i64], [.i32]⟩
          ((Reader.ofBytes ⟨#[0x80, 0x80, 0x80, 0x80, 0x00]⟩ "code").skip 5) := by
  have h : (Reader.ofBytes ⟨#[0x80, 0x80, 0x80, 0x80, 0x00]⟩ "code").BytesLeft
      [0x80, 0x80, 0x80, 0x80, 0x00] :=
    Reader.bytesLeft_ofBytes _ _
  have hread := blockTypes_read_iff_not_overlong ⟨#[⟨[.i64], [.i32]⟩], 0⟩ h
  have hnone : ¬ ∃ (type : BlockType) (code : List UInt8), code <+: [0x80, 0x80, 0x80, 0x80, 0x00] ∧
      type.Overlong #[⟨[.i64], [.i32]⟩] code := by
    rintro ⟨type, code, hbegin, index, htype, hcode, hlong⟩
    obtain ⟨hindex, -⟩ := Array.getElem?_eq_some_iff.mp htype
    have hsize : index < 2 ^ 32 := Nat.lt_trans hindex (by decide)
    exact hlong ((hread.2.2.1 index code hsize hcode).mpr hbegin.length_le)
  refine ⟨h, (hread.1.mpr hnone _ _).mpr ⟨_, List.prefix_refl _, ?_, rfl⟩⟩
  have hzero : Signed 5 (0 : Int) [0x00] := @Signed.last 5 0x00 (by decide) (by decide)
  have hpad {bits : Nat} {code : List UInt8} (hbits : 7 < bits)
      (hcode : Signed (bits - 7) (0 : Int) code) :
      Signed bits (0 : Int) (0x80 :: code) := @Signed.next bits 0 0x80 code (by decide) hbits hcode
  exact @BlockType.Encoded.indexed _ 0 _ _ rfl
    (hpad (by decide) (hpad (by decide) (hpad (by decide) (hpad (by decide) hzero))))

/-- With a byte more it is not, and is taken all the same. -/
theorem overlong_index_taken :
    blockType ⟨#[⟨[.i64], [.i32]⟩], 0⟩ (.ofBytes ⟨#[0x80, 0x80, 0x80, 0x80, 0x80, 0x00]⟩ "code")
        = .ok ⟨[.i64], [.i32]⟩
          ((Reader.ofBytes ⟨#[0x80, 0x80, 0x80, 0x80, 0x80, 0x00]⟩ "code").skip 6) ∧
      ¬ ∃ (type : BlockType) (code : List UInt8), code <+: [0x80, 0x80, 0x80, 0x80, 0x80, 0x00] ∧
        type.Encoded #[⟨[.i64], [.i32]⟩] code := by
  refine ⟨rfl, ?_⟩
  rintro ⟨type, code, hbegin, hcode⟩
  cases hcode with
  | empty => exact absurd (List.cons_prefix_cons.mp hbegin).1 (by decide)
  | single t => exact absurd (List.cons_prefix_cons.mp hbegin).1 (by cases t <;> decide)
  | indexed _ hindex =>
    -- The first five bytes do not end an integer.
    have hlength := hindex.length_lt (by decide)
    obtain ⟨b, hmem, hsmall⟩ := hindex.exists_last
    have hfive : code <+: [0x80, 0x80, 0x80, 0x80, 0x80] :=
      List.prefix_of_prefix_length_le hbegin ⟨[0x00], rfl⟩ (show code.length ≤ 5 by omega)
    have hbyte : b = 0x80 := by
      have hin := hfive.subset hmem
      simpa using hin
    rw [hbyte] at hsmall
    exact absurd hsmall (by decide)

end Decode

end WasmScript
