/-
  WasmScript/Proofs/Module/Accepts.lean
  =====================================
  **What parsers accept** — bytes after which a parser does not fail, and what it gives.

  `Parser.Reads p before after P` says that `p` goes from a reader that has the bytes
  `before` left to one that has `after` left.  Most parsers do not look at what follows:
  `Parser.Accepts p bs P` says that `p` reads `bs` whatever comes after it.  Neither says
  at which offset a reader stands, so what is given may be known only up to offsets.
-/
import WasmScript.Proofs.Module.IntegerLoops
import WasmScript.Proofs.Integer.Leb128
import WasmScript.Text.Units.Lemmas

namespace WasmScript

namespace Reader

/-- Whether the bytes that are left are the given ones. -/
def BytesLeft (r : Reader) (bs : List UInt8) : Prop :=
  r.pos + bs.length = r.limit ∧ bs <+: r.bytes.data.toList.drop r.pos

variable {r : Reader} {bs cs : List UInt8} {b : UInt8}

theorem bytesLeft_ofBytes (bytes : ByteArray) (sectionName : String) :
    (ofBytes bytes sectionName).BytesLeft bytes.data.toList := by
  refine ⟨?_, ?_⟩
  · change 0 + bytes.data.toList.length = bytes.size
    rw [Nat.zero_add]
    rfl
  · exact List.prefix_refl _

namespace BytesLeft

theorem remaining (h : r.BytesLeft bs) : r.remaining = bs.length := by
  rw [Reader.remaining, ← h.1]
  exact Nat.add_sub_cancel_left _ _

theorem skip (h : r.BytesLeft (bs ++ cs)) : (r.skip bs.length).BytesLeft cs := by
  obtain ⟨hlimit, rest, hrest⟩ := h
  rw [List.length_append] at hlimit
  refine ⟨(Nat.add_assoc _ _ _).trans hlimit, rest, ?_⟩
  change cs ++ rest = r.bytes.data.toList.drop (r.pos + bs.length)
  rw [← List.drop_drop, ← hrest, List.append_assoc, List.drop_left]

theorem extract (h : r.BytesLeft (bs ++ cs)) :
    (r.bytes.extract r.pos (r.pos + bs.length)).data.toList = bs := by
  obtain ⟨-, rest, hrest⟩ := h
  rw [ByteArray.data_extract, Array.toList_extract, List.extract_eq_take_drop,
    Nat.add_sub_cancel_left, ← hrest, List.append_assoc, List.take_left]

theorem stretch (h : r.BytesLeft (bs ++ cs)) (sectionName : String) :
    (r.stretch bs.length sectionName).BytesLeft bs :=
  ⟨rfl, (List.prefix_append bs cs).trans h.2⟩

theorem peek? (h : r.BytesLeft (b :: bs)) : r.peek? = some b.toNat := by
  obtain ⟨hlimit, rest, hrest⟩ := h
  rw [List.length_cons] at hlimit
  have hbyte : r.bytes.data.toList[r.pos]? = some b := by
    have hhead := congrArg List.head? hrest
    rw [List.head?_drop] at hhead
    exact hhead.symm
  obtain ⟨hsize, hget⟩ := List.getElem?_eq_some_iff.mp hbyte
  have hbound : r.pos < r.bytes.size := hsize
  have hat : r.byteAt r.pos = b.toNat := by
    rw [byteAt, dif_pos hbound]
    exact congrArg UInt8.toNat hget
  rw [Reader.peek?, if_pos (by omega), hat]

end BytesLeft

end Reader

namespace Parser

variable {α β : Type}

/-- Whether a parser goes from some bytes that are left to others. -/
def Reads (p : Parser α) (before after : List UInt8) (P : α → Prop) : Prop :=
  ∀ r : Reader, r.BytesLeft before → ∃ a r', p r = .ok a r' ∧ r'.BytesLeft after ∧ P a

/-- Whether a parser reads some bytes, whatever follows them. -/
def Accepts (p : Parser α) (bs : List UInt8) (P : α → Prop) : Prop :=
  ∀ rest : List UInt8, p.Reads (bs ++ rest) rest P

variable {p : Parser α} {k : α → Parser β} {P P' : α → Prop} {Q : β → Prop}
variable {bs cs before middle after : List UInt8} {a : α} {b : UInt8}

/-! ### Steps -/

namespace Reads

theorem bind (hp : p.Reads before middle P) (hk : ∀ a, P a → (k a).Reads middle after Q) :
    (p >>= k).Reads before after Q := by
  intro r h
  obtain ⟨a, r₁, hr₁, hleft, ha⟩ := hp r h
  obtain ⟨b, r₂, hr₂, hend, hb⟩ := hk a ha r₁ hleft
  refine ⟨b, r₂, ?_, hend, hb⟩
  change EStateM.bind p k r = .ok b r₂
  rw [EStateM.bind, hr₁]
  exact hr₂

theorem mono (hp : p.Reads before after P) (h : ∀ a, P a → P' a) : p.Reads before after P' := by
  intro r hr
  obtain ⟨a, r', hok, hleft, ha⟩ := hp r hr
  exact ⟨a, r', hok, hleft, h a ha⟩

end Reads

theorem reads_pure (h : P a) : (pure a : Parser α).Reads before before P :=
  fun r hr => ⟨a, r, rfl, hr, h⟩

theorem reads_remaining : remaining.Reads before before (· = before.length) :=
  fun r hr => ⟨r.remaining, r, rfl, hr, hr.remaining⟩

theorem reads_position : position.Reads before before fun _ => True :=
  fun r hr => ⟨r.pos, r, rfl, hr, trivial⟩

theorem reads_peek : peek.Reads (b :: before) (b :: before) (· = some b.toNat) :=
  fun r hr => ⟨r.peek?, r, rfl, hr, hr.peek?⟩

namespace Accepts

/-- A parser whose value is known and what comes after it. -/
theorem step (hp : p.Accepts bs (· = a)) (hk : (k a).Accepts cs Q) :
    (p >>= k).Accepts (bs ++ cs) Q := by
  intro rest
  rw [List.append_assoc]
  refine .bind (hp (cs ++ rest)) ?_
  rintro _ rfl
  exact hk rest

/-- A parser and something after it that reads nothing. -/
theorem finish (hp : p.Accepts bs P) (hk : ∀ a, P a → (k a).Accepts [] Q) :
    (p >>= k).Accepts bs Q :=
  fun rest => .bind (hp rest) fun a ha => hk a ha rest

/-- A parser after something that reads nothing. -/
theorem later (hp : ∀ rest, p.Reads (bs ++ rest) (bs ++ rest) P)
    (hk : ∀ a, P a → (k a).Accepts bs Q) : (p >>= k).Accepts bs Q :=
  fun rest => .bind (hp rest) fun a ha => hk a ha rest

/-- A parser that asks for its position first. -/
theorem placed {k : Nat → Parser β} (hk : ∀ pos, (k pos).Accepts bs Q) :
    (position >>= k).Accepts bs Q :=
  later (fun _ => reads_position) fun pos _ => hk pos

theorem mono (hp : p.Accepts bs P) (h : ∀ a, P a → P' a) : p.Accepts bs P' :=
  fun rest => (hp rest).mono h

theorem map {f : α → β} (hp : p.Accepts bs (· = a)) (h : Q (f a)) : (f <$> p).Accepts bs Q := by
  rw [map_eq_pure_bind]
  refine .finish hp ?_
  rintro _ rfl
  exact fun rest => reads_pure h

end Accepts

theorem accepts_pure (h : P a) : (pure a : Parser α).Accepts [] P := fun _ => reads_pure h

theorem accepts_byte : byte.Accepts [b] (· = b.toNat) := by
  intro rest r hr
  have hskip : (r.skip [b].length).BytesLeft rest := Reader.BytesLeft.skip hr
  refine ⟨b.toNat, r.skip 1, ?_, hskip, rfl⟩
  rw [byte, Reader.BytesLeft.peek? hr]

/-- A byte that is known and what comes after it. -/
theorem Accepts.next {k : Nat → Parser β} (hk : (k b.toNat).Accepts cs Q) :
    (byte >>= k).Accepts (b :: cs) Q := by
  have hstep : (byte >>= k).Accepts ([b] ++ cs) Q := .step accepts_byte hk
  exact hstep

/-- A value that is there without reading. -/
theorem Accepts.known {a : α} (hk : (k a).Accepts bs Q) : (pure a >>= k).Accepts bs Q := by
  rwa [pure_bind]

theorem accepts_bytes : (bytes bs.length).Accepts bs (·.data.toList = bs) := by
  intro rest r hr
  refine ⟨r.bytes.extract r.pos (r.pos + bs.length), r.skip bs.length, ?_, hr.skip, hr.extract⟩
  have hleft : ¬ r.remaining < bs.length := by
    rw [hr.remaining, List.length_append]
    omega
  rw [bytes, if_neg hleft]

/-- What is run on the next bytes need not read all of them. -/
theorem accepts_within (hp : p.Reads bs after P) (sectionName : Option String) :
    (within bs.length sectionName p).Accepts bs P := by
  intro rest r hr
  have hleft : ¬ r.remaining < bs.length := by
    rw [hr.remaining, List.length_append]
    omega
  have hsub : sub bs.length sectionName r
      = .ok (r.stretch bs.length (sectionName.getD r.sectionName)) (r.skip bs.length) := by
    rw [sub, if_neg hleft]
  obtain ⟨a, r', hok, -, ha⟩ := hp _ (hr.stretch (sectionName.getD r.sectionName))
  refine ⟨a, r.skip bs.length, ?_, hr.skip, ha⟩
  simp only [within, bind, EStateM.bind, hsub, hok]

/-! ### Integers -/

theorem accepts_u32Tail (start : Nat) : ∀ (left shift : Nat) {n : Nat} {bs : List UInt8},
    Leb128.Unsigned (7 * left + 4) n bs →
      (u32Tail start (left + 1) shift).Accepts bs (· = n <<< shift) := by
  intro left
  -- The induction is on the bytes that may still come, and the last of five has four bits left.
  induction left with
  | zero =>
    intro shift n bs h
    cases h with
    | @last _ b hsmall hlt =>
      refine .finish accepts_byte ?_
      rintro _ rfl
      rw [if_neg (by omega), if_pos hsmall]
      exact accepts_pure rfl
    | next _ hbits => omega
  | succ left ih =>
    intro shift n bs h
    cases h with
    | @last _ b hsmall hlt =>
      refine .finish accepts_byte ?_
      rintro _ rfl
      rw [if_neg (by omega), if_pos hsmall]
      exact accepts_pure rfl
    | @next _ m b bs hlarge _ hrest =>
      refine .next ?_
      rw [show 7 * (left + 1) + 4 - 7 = 7 * left + 4 by omega] at hrest
      rw [if_neg (by omega), if_neg (by omega)]
      refine .finish (ih (shift + 7) hrest) ?_
      rintro _ rfl
      refine accepts_pure ?_
      simp only [Nat.shiftLeft_eq, pow_add]
      ring

theorem accepts_u32 {n : Nat} (h : Leb128.Unsigned 32 n bs) : u32.Accepts bs (· = n) := by
  rw [u32_eq]
  exact .placed fun start => accepts_u32Tail start 4 0 h

/-- The last possible byte of a signed integer repeats the sign in its spare bits. -/
theorem spare_of_small {spare extra n : Nat} (hspare : (spare, extra) ∈ [(0x78, 4), (0x7f, 1)])
    (hn : n < 128) (h : n < 2 ^ (extra - 1) ∨ 128 ≤ n + 2 ^ (extra - 1)) :
    n &&& spare = 0 ∨ n &&& spare = spare := by
  have hall : ∀ p ∈ ([(0x78, 4), (0x7f, 1)] : List (Nat × Nat)), ∀ n < 128,
      n < 2 ^ (p.2 - 1) ∨ 128 ≤ n + 2 ^ (p.2 - 1) → n &&& p.1 = 0 ∨ n &&& p.1 = p.1 := by decide
  exact hall (spare, extra) hspare n hn h

theorem accepts_signedTail (type : String) {spare extra : Nat} (start : Nat)
    (hspare : (spare, extra) ∈ [(0x78, 4), (0x7f, 1)]) :
    ∀ (left shift : Nat) {n : Int} {bs : List UInt8}, Leb128.Signed (7 * left + extra) n bs →
      (signedTail type spare start (left + 1) shift).Accepts bs (· = n * Bits.twoPow shift) := by
  have hextra : extra ≤ 7 := by
    simp only [List.mem_cons, Prod.mk.injEq, List.not_mem_nil, or_false] at hspare
    omega
  intro left
  -- A last byte, which may be the last possible one.
  have hlast (left shift : Nat) {b : UInt8} (hsmall : b.toNat < 128)
      (h : left = 0 → b.toNat < 2 ^ (extra - 1) ∨ 128 ≤ b.toNat + 2 ^ (extra - 1)) :
      (signedTail type spare start (left + 1) shift).Accepts [b]
        (· = signedSeven b.toNat * Bits.twoPow shift) := by
    refine .finish accepts_byte ?_
    rintro _ rfl
    rw [if_neg, if_pos hsmall]
    · exact accepts_pure rfl
    · rintro ⟨hzero, hlarge | ⟨hno, hother⟩⟩
      · omega
      · rcases spare_of_small hspare hsmall (h hzero) with hall | hall
        · exact hno hall
        · exact hother hall
  induction left with
  | zero =>
    intro shift n bs h
    rw [Nat.mul_zero, Nat.zero_add] at h
    cases h with
    | @last _ b hsmall hlt =>
      have hvalue : signedSeven b.toNat = b.toNat := if_pos hsmall
      rw [← hvalue]
      exact hlast 0 shift (by omega) fun _ => .inl hlt
    | @negative _ b hlow hhigh hge =>
      have hvalue : signedSeven b.toNat = b.toNat - 128 := if_neg (by omega)
      rw [← hvalue]
      exact hlast 0 shift hhigh fun _ => .inr hge
    | next _ hbits => omega
  | succ left ih =>
    intro shift n bs h
    cases h with
    | @last _ b hsmall hlt =>
      have hvalue : signedSeven b.toNat = b.toNat := if_pos hsmall
      rw [← hvalue]
      exact hlast (left + 1) shift (by omega) fun h => absurd h (Nat.succ_ne_zero _)
    | @negative _ b hlow hhigh hge =>
      have hvalue : signedSeven b.toNat = b.toNat - 128 := if_neg (by omega)
      rw [← hvalue]
      exact hlast (left + 1) shift hhigh fun h => absurd h (Nat.succ_ne_zero _)
    | @next _ m b bs hlarge _ hrest =>
      rw [show 7 * (left + 1) + extra - 7 = 7 * left + extra by omega] at hrest
      refine .next ?_
      rw [if_neg (by omega), if_neg (by omega)]
      refine .finish (ih (shift + 7) hrest) ?_
      rintro _ rfl
      refine accepts_pure ?_
      have hshift : (Bits.twoPow (shift + 7) : Int) = Bits.twoPow shift * 128 := by
        simp [Bits.twoPow, pow_add]
      rw [hshift]
      ring

theorem accepts_s32 {n : Int} (h : Leb128.Signed 32 n bs) : s32.Accepts bs (· = n) := by
  rw [s32_eq]
  refine .placed fun start => ?_
  refine (accepts_signedTail "s32" start (by decide : (0x78, 4) ∈ _) 4 0 h).mono ?_
  rintro _ rfl
  exact Int.mul_one n

theorem accepts_s64 {n : Int} (h : Leb128.Signed 64 n bs) : s64.Accepts bs (· = n) := by
  rw [s64_eq]
  refine .placed fun start => ?_
  refine (accepts_signedTail "s64" start (by decide : (0x7f, 1) ∈ _) 9 0 h).mono ?_
  rintro _ rfl
  exact Int.mul_one n

/-! ### Vectors -/

/-- Items and their bytes, in the order in which they are read.  Each takes at least a byte. -/
abbrev Items (item : Parser α) (as : List α) (bss : List (List UInt8)) : Prop :=
  List.Forall₂ (fun a bs => item.Accepts bs (· = a) ∧ bs ≠ []) as bss

/-- There are no more items than bytes. -/
theorem length_le_flatten {R : α → List UInt8 → Prop} {as : List α} {bss : List (List UInt8)}
    (h : List.Forall₂ R as bss) (hne : ∀ a bs, R a bs → bs ≠ []) :
    as.length ≤ bss.flatten.length := by
  induction h with
  | nil => exact Nat.le_refl _
  | cons hhead _ ih =>
    have hpos := List.length_pos_iff.mpr (hne _ _ hhead)
    rw [List.length_cons, List.flatten_cons, List.length_append]
    omega

theorem ne_nil_of_items {item : Parser α} {as : List α} {bss : List (List UInt8)}
    (h : Items item as bss) : ∀ bs ∈ bss, bs ≠ [] := by
  induction h with
  | nil => exact fun bs hbs => absurd hbs List.not_mem_nil
  | cons hhead _ ih => exact List.forall_mem_cons.mpr ⟨hhead.2, ih⟩

theorem accepts_repeated {item : Parser α} {as : List α} {bss : List (List UInt8)}
    (h : Items item as bss) : ∀ items : Array α,
      (repeated item as.length items).Accepts bss.flatten (·.toList = items.toList ++ as) := by
  induction h with
  | nil => exact fun items => accepts_pure (List.append_nil _).symm
  | @cons a bs as bss hhead _ ih =>
    intro items
    refine .step hhead.1 ((ih (items.push a)).mono ?_)
    intro all hall
    rw [hall, Array.toList_push, List.append_assoc]
    rfl

theorem reads_vectorCount {n : Nat} (hcs : Leb128.Unsigned 32 n cs) (hn : n ≤ after.length) :
    vectorCount.Reads (cs ++ after) after (· = n) := by
  refine .bind (accepts_u32 hcs after) ?_
  rintro _ rfl
  refine .bind reads_remaining ?_
  rintro _ rfl
  rw [if_neg (by omega)]
  exact reads_pure rfl

theorem accepts_vector {item : Parser α} {as : List α} {bss : List (List UInt8)}
    (hcs : Leb128.Unsigned 32 as.length cs) (h : Items item as bss) :
    (vector item).Accepts (cs ++ bss.flatten) (· = as.toArray) := by
  intro rest
  have hcount : as.length ≤ (bss.flatten ++ rest).length := by
    rw [List.length_append]
    exact Nat.le_add_right_of_le (length_le_flatten h fun _ _ h => h.2)
  rw [List.append_assoc]
  refine .bind (reads_vectorCount hcs hcount) ?_
  rintro _ rfl
  refine (accepts_repeated h #[] rest).mono ?_
  intro all hall
  exact Array.toList_inj.mp (hall.trans (List.nil_append as))

end Parser

/-! ### Names -/

/-- Whether a text is found again when it is written as a name: no surrogate stands alone in it,
and it does not start with a byte order mark. -/
structure IsName (s : String) : Prop where
  settled : Units.settled s = s
  unmarked : s.toList.head? ≠ some '\uFEFF'

namespace Parser

theorem dropMark_toUTF8 {s : String} (h : IsName s) :
    dropMark (Units.toUTF8 s) = Units.toUTF8 s := by
  rw [dropMark, if_neg]
  intro hmark
  have hsplit : (Units.written s).toUTF8 = ['\uFEFF'].utf8Encode
      ++ (Units.toUTF8 s).extract 3 (Units.toUTF8 s).size := by
    have hhead : (Units.toUTF8 s).extract 0 3 = ['\uFEFF'].utf8Encode := by
      apply ByteArray.ext
      apply Array.ext'
      rw [hmark]
      rfl
    rw [← hhead, ByteArray.extract_append_extract, Nat.min_eq_left (Nat.zero_le 3),
      ByteArray.extract_zero_max_size]
    rfl
  obtain ⟨cs, hcs⟩ := Units.toList_cons_of_toUTF8 hsplit
  apply h.unmarked
  rw [← h.settled, Units.settled, Units.carried, String.toList_ofList, hcs]
  rfl

theorem accepts_name {s : String} {cs : List UInt8} (h : IsName s)
    (hcs : Leb128.Unsigned 32 (Units.toUTF8 s).size cs) :
    name.Accepts (cs ++ (Units.toUTF8 s).data.toList) (· = s) := by
  refine .placed fun start => .step (accepts_u32 hcs) (.finish accepts_bytes ?_)
  intro content hcontent
  have hcontent : content = Units.toUTF8 s := by
    apply ByteArray.ext
    exact Array.ext' hcontent
  rw [hcontent, text?, dropMark_toUTF8 h, Units.ofUTF8?_toUTF8 h.settled]
  exact accepts_pure rfl

end Parser

end WasmScript
