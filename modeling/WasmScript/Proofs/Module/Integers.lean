/-
  WasmScript/Proofs/Module/Integers.lean
  ======================================
  **Readers of integers** — what they make of any bytes at all.

  `Accepts` says which bytes a reader of integers takes.  Here is the rest: the bytes are a
  prefix of what is left, no others are taken, and what is not taken is refused in one of two
  ways.  Bytes that break off before the integer ends fail at the end of the input; anything
  else fails at the offset where the integer starts.

  `Settled` is that trichotomy for a reader at one place, which the loops keep byte by byte,
  and `Recognizes` the same for a reader at any place, as a characterization of its outcomes.
-/
import WasmScript.Proofs.Module.Accepts
import WasmScript.Proofs.Module.Layout
import WasmScript.Proofs.Sequences

namespace WasmScript

namespace Reader

variable {r : Reader} {bs rest : List UInt8} {b : UInt8}

theorem skip_skip (m n : Nat) : (r.skip m).skip n = r.skip (m + n) := by
  simp only [Reader.skip, Nat.add_assoc]

theorem BytesLeft.tail (h : r.BytesLeft (b :: rest)) : (r.skip 1).BytesLeft rest :=
  @BytesLeft.skip r [b] rest h

end Reader

namespace Parser

variable {α : Type} {p : Parser α} {k : Nat → Parser α} {G G' : α → List UInt8 → Prop}
variable {r : Reader} {bs rest code : List UInt8} {b : UInt8} {most start : Nat}
variable {cause : DecodeCause}

theorem byte_of_bytesLeft (h : r.BytesLeft (b :: rest)) : byte r = .ok b.toNat (r.skip 1) := by
  rw [byte, h.peek?]

theorem byte_of_nil (h : r.BytesLeft []) :
    byte r = .error ⟨.unexpectedEnd, r.sectionName, r.limit⟩ r := by
  have hend : r.pos = r.limit := h.1
  have hpeek : r.peek? = none := if_neg (by omega)
  rw [byte, hpeek, ← hend]
  rfl

theorem peek_of_bytesLeft (h : r.BytesLeft (b :: rest)) : peek r = .ok (some b.toNat) r := by
  rw [peek, h.peek?]

theorem peek_of_nil (h : r.BytesLeft []) : peek r = .ok none r := by
  have hend : r.pos = r.limit := h.1
  have hpeek : r.peek? = none := if_neg (by omega)
  rw [peek, hpeek]

/-! ### Bytes of an integer -/

/-- The input ends before an integer of at most so many bytes does. -/
def BrokenOff (most : Nat) (bs : List UInt8) : Prop := bs.length < most ∧ ∀ b ∈ bs, 128 ≤ b.toNat

theorem brokenOff_cons (h : 128 ≤ b.toNat) :
    BrokenOff (most + 1) (b :: rest) ↔ BrokenOff most rest := by
  rw [BrokenOff, BrokenOff, List.length_cons, Nat.add_lt_add_iff_right, List.forall_mem_cons]
  exact and_congr_right fun _ => and_iff_right h

/-- What comes of reading an integer: a code of the grammar that the input starts with, the end
of the input before that of the integer, or a fault at the start of the integer. -/
inductive Settled (p : Parser α) (cause : DecodeCause) (most start : Nat)
    (G : α → List UInt8 → Prop) (r : Reader) (bs : List UInt8) : Prop where
  | read {a : α} {code rest : List UInt8} : bs = code ++ rest → G a code →
      p r = .ok a (r.skip code.length) → Settled p cause most start G r bs
  | broken {r' : Reader} : BrokenOff most bs →
      p r = .error ⟨.unexpectedEnd, r.sectionName, r.limit⟩ r' → Settled p cause most start G r bs
  | refused {r' : Reader} : ¬ BrokenOff most bs →
      p r = .error ⟨cause, r.sectionName, start⟩ r' → Settled p cause most start G r bs

namespace Settled

theorem atEnd (h : r.BytesLeft []) : Settled (byte >>= k) cause (most + 1) start G r [] :=
  .broken ⟨Nat.succ_pos most, fun _ hmem => absurd hmem List.not_mem_nil⟩
    (bind_at_error (byte_of_nil h))

/-- A byte after which nothing more of the integer is read. -/
theorem last {a : α} (h : r.BytesLeft (b :: rest)) (hk : k b.toNat = pure a) (hG : G a [b]) :
    Settled (byte >>= k) cause most start G r (b :: rest) := by
  refine .read rfl hG ?_
  rw [bind_at_ok (byte_of_bytesLeft h), hk]
  rfl

/-- A byte at which the integer is found not to be one of the grammar. -/
theorem stopped (h : r.BytesLeft (b :: rest)) (hk : k b.toNat = failAt cause start)
    (hbroken : ¬ BrokenOff most (b :: rest)) :
    Settled (byte >>= k) cause most start G r (b :: rest) := by
  have hrun : (byte >>= k) r = failAt cause start (r.skip 1) := by
    rw [bind_at_ok (byte_of_bytesLeft h), hk]
  exact .refused hbroken hrun

/-- A byte that does not end the integer, and what comes after it. -/
theorem more {f : α → α} (h : r.BytesLeft (b :: rest)) (hlarge : 128 ≤ b.toNat)
    (hk : k b.toNat = p >>= fun a => pure (f a)) (hG : ∀ a code, G' a code → G (f a) (b :: code))
    (hp : Settled p cause most start G' (r.skip 1) rest) :
    Settled (byte >>= k) cause (most + 1) start G r (b :: rest) := by
  have hrun : (byte >>= k) r = (p >>= fun a => pure (f a)) (r.skip 1) := by
    rw [bind_at_ok (byte_of_bytesLeft h), hk]
  cases hp with
  | @read a code rest hbytes hcode hok =>
    refine .read (congrArg (b :: ·) hbytes) (hG a code hcode) ?_
    rw [hrun, bind_at_ok hok, Reader.skip_skip, Nat.add_comm, ← List.length_cons (a := b)]
    rfl
  | broken hbroken hfail =>
    exact .broken ((brokenOff_cons hlarge).mpr hbroken) (hrun.trans (bind_at_error hfail))
  | refused hbroken hfail =>
    exact .refused (mt (brokenOff_cons hlarge).mp hbroken) (hrun.trans (bind_at_error hfail))

end Settled

/-! ### The loops -/

theorem settled_u32Tail : ∀ (left shift : Nat) {r : Reader} {bs : List UInt8}, r.BytesLeft bs →
    Settled (u32Tail start (left + 1) shift) (.integerTooLarge "u32") (left + 1) start
      (fun m code => ∃ n, m = n <<< shift ∧ Leb128.Unsigned (7 * left + 4) n code) r bs := by
  intro left
  induction left with
  | zero =>
    intro shift r bs h
    cases bs with
    | nil => exact .atEnd h
    | cons b rest =>
      by_cases hlarge : 0x10 ≤ b.toNat
      · refine .stopped h (if_pos ⟨rfl, hlarge⟩) fun hbroken => ?_
        exact absurd hbroken.1 (by rw [List.length_cons]; omega)
      · refine .last h ((if_neg fun hbad => hlarge hbad.2).trans (if_pos (by omega))) ?_
        exact ⟨b.toNat, rfl, .last (by omega) (by omega)⟩
  | succ left ih =>
    intro shift r bs h
    cases bs with
    | nil => exact .atEnd h
    | cons b rest =>
      -- Only the last byte that is possible may have bits that do not fit.
      have hmore : ¬ (left + 1 = 0 ∧ 0x10 ≤ b.toNat) := fun hbad => Nat.succ_ne_zero _ hbad.1
      by_cases hsmall : b.toNat < 0x80
      · refine .last h ((if_neg hmore).trans (if_pos hsmall)) ⟨b.toNat, rfl, .last hsmall ?_⟩
        exact Nat.lt_of_lt_of_le hsmall
          (Nat.pow_le_pow_right (n := 2) (by decide) (show 7 ≤ _ by omega))
      · refine .more h (by omega) ((if_neg hmore).trans (if_neg hsmall)) ?_ (ih (shift + 7) h.tail)
        rintro _ code ⟨n, rfl, hcode⟩
        refine ⟨b.toNat - 128 + 128 * n, ?_, ?_⟩
        · simp only [Nat.shiftLeft_eq, pow_add]
          ring
        · refine .next (by omega) (by omega) ?_
          rwa [show 7 * (left + 1) + 4 - 7 = 7 * left + 4 by omega]

/-- A last byte stands for its seven bits, signed, wherever they fit. -/
theorem signed_last {bits : Nat} (hsmall : b.toNat < 128)
    (h : b.toNat < 2 ^ (bits - 1) ∨ 128 ≤ b.toNat + 2 ^ (bits - 1)) :
    Leb128.Signed bits (signedSeven b.toNat) [b] := by
  by_cases hlow : b.toNat < 0x40
  · rw [signedSeven, if_pos hlow]
    exact .last hlow (by omega)
  · rw [signedSeven, if_neg hlow]
    exact .negative (by omega) hsmall (by omega)

/-- A byte whose spare bits repeat the sign has no more bits than are left. -/
theorem small_of_spare {spare extra n : Nat} (hspare : (spare, extra) ∈ [(0x78, 4), (0x7f, 1)])
    (hn : n < 128) (h : n &&& spare = 0 ∨ n &&& spare = spare) :
    n < 2 ^ (extra - 1) ∨ 128 ≤ n + 2 ^ (extra - 1) := by
  have hall : ∀ p ∈ ([(0x78, 4), (0x7f, 1)] : List (Nat × Nat)), ∀ n < 128,
      n &&& p.1 = 0 ∨ n &&& p.1 = p.1 → n < 2 ^ (p.2 - 1) ∨ 128 ≤ n + 2 ^ (p.2 - 1) := by decide
  exact hall (spare, extra) hspare n hn h

theorem settled_signedTail (type : String) {spare extra : Nat}
    (hspare : (spare, extra) ∈ [(0x78, 4), (0x7f, 1)]) :
    ∀ (left shift : Nat) {r : Reader} {bs : List UInt8}, r.BytesLeft bs →
      Settled (signedTail type spare start (left + 1) shift) (.integerTooLarge type)
        (left + 1) start
        (fun m code => ∃ n, m = n * Bits.twoPow shift ∧ Leb128.Signed (7 * left + extra) n code) r
          bs := by
  have hextra : 0 < extra := by
    simp only [List.mem_cons, Prod.mk.injEq, List.not_mem_nil, or_false] at hspare
    omega
  intro left
  -- The induction is on the bytes that may still come, of which the last one may not use all of its
  -- bits.
  induction left with
  | zero =>
    intro shift r bs h
    rw [show 7 * 0 + extra = extra by omega]
    cases bs with
    | nil => exact .atEnd h
    | cons b rest =>
      by_cases hbad : 0x80 ≤ b.toNat ∨ b.toNat &&& spare ≠ 0 ∧ b.toNat &&& spare ≠ spare
      · refine .stopped h (if_pos ⟨rfl, hbad⟩) fun hbroken => ?_
        exact absurd hbroken.1 (by rw [List.length_cons]; omega)
      · have hsmall : b.toNat < 128 := Nat.lt_of_not_le fun hlarge => hbad (.inl hlarge)
        have hsign : b.toNat &&& spare = 0 ∨ b.toNat &&& spare = spare := by
          by_contra hneither
          exact hbad (.inr (not_or.mp hneither))
        refine .last h ((if_neg fun hfirst => hbad hfirst.2).trans (if_pos hsmall)) ?_
        exact ⟨signedSeven b.toNat, rfl, signed_last hsmall (small_of_spare hspare hsmall hsign)⟩
  | succ left ih =>
    intro shift r bs h
    cases bs with
    | nil => exact .atEnd h
    | cons b rest =>
      have hmore : ¬ (left + 1 = 0 ∧
          (0x80 ≤ b.toNat ∨ b.toNat &&& spare ≠ 0 ∧ b.toNat &&& spare ≠ spare)) :=
        fun hbad => Nat.succ_ne_zero _ hbad.1
      by_cases hsmall : b.toNat < 0x80
      · refine .last h ((if_neg hmore).trans (if_pos hsmall)) ⟨signedSeven b.toNat, rfl, ?_⟩
        refine signed_last hsmall (.inl (Nat.lt_of_lt_of_le hsmall ?_))
        exact Nat.pow_le_pow_right (n := 2) (by decide) (show 7 ≤ _ by omega)
      · refine .more h (by omega) ((if_neg hmore).trans (if_neg hsmall)) ?_ (ih (shift + 7) h.tail)
        rintro _ code ⟨n, rfl, hcode⟩
        refine ⟨b.toNat - 128 + 128 * n, ?_, ?_⟩
        · have hshift : (Bits.twoPow (shift + 7) : Int) = Bits.twoPow shift * 128 := by
            simp [Bits.twoPow, pow_add]
          rw [hshift]
          ring
        · refine .next (by omega) (by omega) ?_
          rwa [show 7 * (left + 1) + extra - 7 = 7 * left + extra by omega]

/-! ### What is recognized -/

/-- A parser of integers of a grammar, whose codes have at most so many bytes.  It takes the
bytes that start with a code and no others: where they break off it fails at the end of the
input, and else where it started. -/
structure Recognizes (p : Parser α) (type : String) (most : Nat)
    (G : α → List UInt8 → Prop) : Prop where
  bounded : ∀ {a : α} {code : List UInt8}, G a code → code.length ≤ most
  accepts_iff : ∀ {r : Reader} {bs : List UInt8}, r.BytesLeft bs → ∀ (a : α) (r' : Reader),
    p r = .ok a r' ↔ ∃ code, code <+: bs ∧ G a code ∧ r' = r.skip code.length
  breaks : ∀ {r : Reader} {bs : List UInt8}, r.BytesLeft bs → BrokenOff most bs →
    ∃ r', p r = .error ⟨.unexpectedEnd, r.sectionName, r.limit⟩ r'
  refuses : ∀ {r : Reader} {bs : List UInt8}, r.BytesLeft bs → ¬ BrokenOff most bs →
    (∀ a code, G a code → ¬ code <+: bs) →
    ∃ r', p r = .error ⟨.integerTooLarge type, r.sectionName, r.pos⟩ r'

theorem Settled.of_tail {tail : Nat → Parser α} (h : ∀ a code, G' a code → G a code)
    (hp : Settled (tail r.pos) cause most r.pos G' r bs) :
    Settled (position >>= tail) cause most r.pos G r bs := by
  have hrun : (position >>= tail) r = tail r.pos r := bind_at_ok rfl
  cases hp with
  | read hbytes hcode hok => exact .read hbytes (h _ _ hcode) (hrun.trans hok)
  | broken hbroken hfail => exact .broken hbroken (hrun.trans hfail)
  | refused hbroken hfail => exact .refused hbroken (hrun.trans hfail)

/-- No code of a grammar that a parser takes goes on where a code breaks off, or the reader
would both take the bytes and refuse them. -/
theorem recognizes {type : String}
    (hbound : ∀ {a : α} {code : List UInt8}, G a code → code.length ≤ most)
    (hends : ∀ {a : α} {code : List UInt8}, G a code → ∃ b ∈ code, b.toNat < 128)
    (haccepts : ∀ {a : α} {code : List UInt8}, G a code → p.Accepts code (· = a))
    (hsettled : ∀ {r : Reader} {bs : List UInt8}, r.BytesLeft bs →
      Settled p (.integerTooLarge type) most r.pos G r bs) : Recognizes p type most G := by
  -- Where the input starts with a code, the code that was read is that one.
  have hreads : ∀ {r : Reader} {a : α} {code rest : List UInt8},
    r.BytesLeft (code ++ rest) → G a code →
      p r = .ok a (r.skip code.length) := by
    intro r a code rest h hcode
    obtain ⟨_, r', hok, hleft, rfl⟩ := haccepts hcode rest r h
    cases hsettled h with
    | @read _ code' _ _ _ hok' =>
      rw [hok] at hok'
      cases hok'
      have hlimit := h.1
      have hend : r.pos + code'.length + rest.length = r.limit := hleft.1
      rw [List.length_append] at hlimit
      rw [hok, show code'.length = code.length by omega]
    | broken _ hfail => rw [hok] at hfail; cases hfail
    | refused _ hfail => rw [hok] at hfail; cases hfail
  refine ⟨hbound, ?_, ?_, ?_⟩
  · intro r bs h a r'
    constructor
    · intro hok
      cases hsettled h with
      | @read a' code rest hbytes hcode hok' =>
        rw [hok] at hok'
        cases hok'
        exact ⟨code, ⟨rest, hbytes.symm⟩, hcode, rfl⟩
      | broken _ hfail => rw [hok] at hfail; cases hfail
      | refused _ hfail => rw [hok] at hfail; cases hfail
    · rintro ⟨code, ⟨rest, rfl⟩, hcode, rfl⟩
      exact hreads h hcode
  · intro r bs h hbroken
    cases hsettled h with
    | read hbytes hcode hok =>
      obtain ⟨b, hmem, hsmall⟩ := hends hcode
      have hlarge := hbroken.2 b (hbytes ▸ List.mem_append_left _ hmem)
      exact absurd hlarge (Nat.not_le_of_lt hsmall)
    | broken _ hfail => exact ⟨_, hfail⟩
    | refused hnot _ => exact absurd hbroken hnot
  · intro r bs h hnot hnone
    cases hsettled h with
    | read hbytes hcode _ => exact absurd ⟨_, hbytes.symm⟩ (hnone _ _ hcode)
    | broken hbroken _ => exact absurd hbroken hnot
    | refused _ hfail => exact ⟨_, hfail⟩

theorem recognizes_u32 : Recognizes u32 "u32" 5 (Leb128.Unsigned 32) := by
  refine recognizes (fun hcode => ?_) (fun hcode => hcode.exists_last)
    (fun hcode => accepts_u32 hcode) fun h => u32_eq ▸ (settled_u32Tail 4 0 h).of_tail ?_
  · have hlength := hcode.length_lt (by decide)
    omega
  · rintro _ code ⟨n, rfl, hcode⟩
    exact hcode

/-- A signed integer stands for itself when it is read from its lowest bit on. -/
theorem of_tail_zero {bits : Nat} {m : Int}
    (h : ∃ n, m = n * Bits.twoPow 0 ∧ Leb128.Signed bits n code) : Leb128.Signed bits m code := by
  obtain ⟨n, rfl, hcode⟩ := h
  rwa [show n * (Bits.twoPow 0 : Int) = n from Int.mul_one n]

theorem recognizes_s32 : Recognizes s32 "s32" 5 (Leb128.Signed 32) := by
  refine recognizes (fun hcode => ?_) (fun hcode => hcode.exists_last)
    (fun hcode => accepts_s32 hcode) fun h =>
    s32_eq ▸ (settled_signedTail "s32" (by decide : (0x78, 4) ∈ _) 4 0 h).of_tail ?_
  · have hlength := hcode.length_lt (by decide)
    omega
  · exact fun _ _ => of_tail_zero

theorem recognizes_s64 : Recognizes s64 "s64" 10 (Leb128.Signed 64) := by
  refine recognizes (fun hcode => ?_) (fun hcode => hcode.exists_last)
    (fun hcode => accepts_s64 hcode) fun h =>
    s64_eq ▸ (settled_signedTail "s64" (by decide : (0x7f, 1) ∈ _) 9 0 h).of_tail ?_
  · have hlength := hcode.length_lt (by decide)
    omega
  · exact fun _ _ => of_tail_zero

/-! ### What is written -/

/-- A reader of a grammar gets back from an encoding what an integer is reduced to, whatever
follows, and nothing shorter stands for that. -/
structure ReadsBack (encode : Int → List UInt8) (p : Parser α) (reduce : Int → α)
    (G : α → List UInt8 → Prop) : Prop where
  read : ∀ (v : Int) {r : Reader} {rest : List UInt8}, r.BytesLeft (encode v ++ rest) →
    p r = .ok (reduce v) (r.skip (encode v).length)
  shortest : ∀ (v : Int) {code : List UInt8}, G (reduce v) code → (encode v).length ≤ code.length

theorem Recognizes.readsBack {type : String} {encode : Int → List UInt8} {reduce : Int → α}
    (hp : Recognizes p type most G) (hcode : ∀ v, G (reduce v) (encode v))
    (hshort : ∀ v {code}, G (reduce v) code → (encode v).length ≤ code.length) :
    ReadsBack encode p reduce G := by
  refine ⟨fun v r rest h => ?_, fun v _ => hshort v⟩
  exact (hp.accepts_iff h (reduce v) _).mpr ⟨encode v, ⟨rest, rfl⟩, hcode v, rfl⟩

/-- Reading undoes writing modulo the width, and each reader takes the integers of its width in
all their encodings and refuses everything else. -/
theorem integers_read_back_and_recognized :
    ReadsBack Assembler.u32 u32 (fun v => (v % 2 ^ 32).toNat) (Leb128.Unsigned 32) ∧
    ReadsBack Assembler.s32 s32 (fun v => v.bmod (2 ^ 32)) (Leb128.Signed 32) ∧
    ReadsBack Assembler.s64 s64 (fun v => v.bmod (2 ^ 64)) (Leb128.Signed 64) ∧
    Recognizes u32 "u32" 5 (Leb128.Unsigned 32) ∧
    Recognizes s32 "s32" 5 (Leb128.Signed 32) ∧
    Recognizes s64 "s64" 10 (Leb128.Signed 64) := by
  refine ⟨?_, ?_, ?_, recognizes_u32, recognizes_s32, recognizes_s64⟩
  · have hreduce (v : Int) : (v % 2 ^ 32).toNat = Bits.unsigned32 v := rfl
    refine recognizes_u32.readsBack (fun v => ?_) fun v code hcode => ?_
    · rw [hreduce]
      exact Assembler.u32_reduced v
    · rw [hreduce] at hcode
      exact Leb128.length_unsigned_le hcode
  · exact recognizes_s32.readsBack Assembler.s32_spec fun v _ hcode => Leb128.length_signed_le hcode
  · exact recognizes_s64.readsBack Assembler.s64_spec fun v _ hcode => Leb128.length_signed_le hcode

-- A padded zero is read, and a byte with a bit that is one too many is found malformed.
example : ∃ r, u32 (.ofBytes ⟨#[0x80, 0x80, 0x80, 0x80, 0x00]⟩ "code") = .ok 0 r := ⟨_, rfl⟩

example : ∃ e r, s32 (.ofBytes ⟨#[0x80, 0x80, 0x80, 0x80, 0x08]⟩ "code") = .error e r ∧
    e.code = DiagnosticCode.malformedLeb128.number ∧ e.offset = 0 := ⟨_, _, rfl, rfl, rfl⟩

end Parser

end WasmScript
