/-
  WasmScript/Proofs/Script/Accesses.lean
  ======================================
  **Loads and stores in scripts** — which bytes they touch, and what they make of them.

  A memory access goes through four hands: the table of opcodes, the node in a body, the
  script with its conversions around the call, and the accessor of the memory.  Here all four
  together are compared with one description in words and bytes: the address is the sum of
  base and offset modulo 2^32, the base read as unsigned; `Access.word` is what a load makes
  of the bytes there, and a store writes the lowest bytes of its operand.
-/
import WasmScript.Proofs.Memory.Contents
import WasmScript.Proofs.Run.Agreement
import WasmScript.Proofs.Run.Fits
import WasmScript.Proofs.Script.Forms
import WasmScript.Script.Statement

namespace WasmScript

/-! ### Bytes and words -/

theorem littleEndian_lt (bs : List UInt8) : littleEndian bs < 256 ^ bs.length := by
  induction bs with
  | nil => exact Nat.one_pos
  | cons b bs ih =>
    have hb := b.toNat_lt
    rw [littleEndian, List.length_cons, Nat.pow_succ]
    omega

/-- Bytes above the lowest ones do not matter. -/
theorem lowBytes_mod (width : Nat) :
    ∀ n : Nat, lowBytes width (n % 256 ^ width) = lowBytes width n := by
  induction width with
  | zero => exact fun _ => rfl
  | succ width ih =>
    intro n
    have hlow : n % 256 ^ (width + 1) % 256 = n % 256 :=
      Nat.mod_mod_of_dvd n (Dvd.intro_left _ (Nat.pow_succ ..).symm)
    have hhigh : n % 256 ^ (width + 1) / 256 = n / 256 % 256 ^ width := by
      rw [Nat.pow_succ', Nat.mod_mul_right_div_self]
    rw [lowBytes, lowBytes, hlow, hhigh, ih]

/-- A word that is extended by zeros is the number that it was. -/
theorem toInt_setWidth_ofNat {w v n : Nat} (hn : n < 2 ^ w) (h : w < v) :
    ((BitVec.ofNat w n).setWidth v).toInt = n := by
  have hnat : ((BitVec.ofNat w n).setWidth v).toNat = n := by
    rw [BitVec.toNat_setWidth_of_le h.le, BitVec.toNat_ofNat, Nat.mod_eq_of_lt hn]
  have hpow : 2 ^ (w + 1) ≤ 2 ^ v := Nat.pow_le_pow_right (by decide) h
  rw [BitVec.toInt_eq_toNat_of_lt (by rw [hnat]; omega), hnat]

namespace Accessor

/-- The integer that an accessor reads from the bytes at its address. -/
def read (a : Accessor) (bs : List UInt8) : Int :=
  if a.isSigned then Bits.signed (8 * a.width) (littleEndian bs) else littleEndian bs

end Accessor

namespace Access

/-- The word that a load makes of the bytes at its address. -/
def word (access : Access) (bs : List UInt8) : BitVec access.type.width :=
  let n := BitVec.ofNat (8 * access.width) (littleEndian bs)
  match access.extension with
  | .sign => n.signExtend access.type.width
  | .zero | .none => n.setWidth access.type.width

theorem width_accessor (access : Access) : access.accessor.width = access.width := by
  cases access <;> rfl

theorem width_le (access : Access) : 8 * access.width ≤ access.type.width := by
  cases access <;> decide

/-- A load extends by zeros just where its accessor is unsigned, and then it extends. -/
theorem extends_of_load {access : Access} (h : access.isStore = false) :
    (access.extension = .zero → access.accessor.isSigned = false ∧ 8 * access.width <
      access.type.width)
    ∧ (access.extension ≠ .zero → access.accessor.isSigned = true)
    ∧ (access.extension = .none → 8 * access.width = access.type.width) := by
  revert h
  cases access <;> decide

/-- What the accessor of a load reads is the word of the load. -/
theorem read_accessor {access : Access} (hload : access.isStore = false) {bs : List UInt8}
    (hbs : bs.length = access.width) : access.accessor.read bs = (access.word bs).toInt := by
  obtain ⟨hzero, hsigned, hnone⟩ := extends_of_load hload
  have hlt : littleEndian bs < 2 ^ (8 * access.width) := by
    rw [Nat.pow_mul, ← hbs]
    exact littleEndian_lt bs
  have hextend (h : access.extension ≠ .zero) : access.accessor.read bs
      = ((BitVec.ofNat (8 * access.width) (littleEndian bs)).signExtend
        access.type.width).toInt := by
    rw [Accessor.read, if_pos (hsigned h), width_accessor, Bits.signed_eq_toInt,
      BitVec.ofInt_natCast, BitVec.toInt_signExtend_of_le access.width_le]
  unfold word
  cases hext : access.extension with
  | sign => exact hextend (by rw [hext]; decide)
  | none =>
    rw [hextend (by rw [hext]; decide), BitVec.signExtend_eq_setWidth_of_le _ (hnone hext).ge]
  | zero =>
    obtain ⟨hunsigned, hwide⟩ := hzero hext
    rw [Accessor.read, if_neg (by rw [hunsigned]; decide), toInt_setWidth_ofNat hlt hwide]

/-- A narrow access of a big integer goes through an accessor of numbers, any other one through one
of its own type. -/
theorem type_accessor (access : Access) :
    access.accessor.type = if access.isNarrowI64 then .i32 else access.type := by
  cases access <;> rfl

theorem narrow {access : Access} (h : access.isNarrowI64) :
    access.type = .i64 ∧ 8 * access.width ≤ 32 := by
  revert h
  cases access <;> decide

end Access

variable {σ : Type}

/-- Whether the instance at a place has a memory, which is at some place of the memories. -/
def Store.Owns (s : Store σ) (place p : Nat) (memory : LinearMemory) : Prop :=
  ∃ i, s.instances[place]? = some i ∧ i.memory = some p ∧ s.memories[p]? = some memory

namespace Script

open IR (Expression Run Surroundings Variables loadOf storeOf describeAccess)

variable {around : Surroundings σ} {s s₁ s₂ : Variables σ} {t u : Term} {p : Nat}
    {memory : LinearMemory}

/-! ### Calls of the memory -/

def setMemory (s : Variables σ) (p : Nat) (memory : LinearMemory) : Variables σ :=
  { s with store := { s.store with memories := s.store.memories.setIfInBounds p memory } }

/-- A memory that is left as it was. -/
theorem setMemory_owned (h : s.store.Owns around.place p memory) : setMemory s p memory = s := by
  obtain ⟨i, -, -, hmemory⟩ := h
  unfold setMemory
  rw [Store.setMemory_self hmemory]

/-- A run of an operation on the memory of the instance that gives something. -/
theorem act_of_ok {α : Type} {op : LinearMemory.Op α} {a : α} {memory' : LinearMemory}
    (h : s.store.Owns around.place p memory) (hop : op memory = .ok a memory') :
    Run.act (.onOwnMemory around.place op) s = .ok a (setMemory s p memory') := by
  obtain ⟨i, hi, hp, hmemory⟩ := h
  unfold Run.act
  dsimp only
  rw [Action.onOwnMemory_of_instance hi hp hmemory, hop]
  rfl

/-- A run of an operation on the memory of the instance that traps. -/
theorem act_of_error {α : Type} {op : LinearMemory.Op α} {kind : TrapKind}
    (h : s.store.Owns around.place p memory) (hop : op memory = .error kind memory) :
    Run.act (.onOwnMemory around.place op) s = .error (.trap kind) s := by
  have hsame := setMemory_owned h
  obtain ⟨i, hi, hp, hmemory⟩ := h
  unfold Run.act
  dsimp only
  rw [Action.onOwnMemory_of_instance hi hp hmemory, hop]
  exact congrArg (EStateM.Result.error (Failure.trap kind)) hsame

/-- The number that an address is. -/
theorem toInteger?_word (n : Int) : Scalar.toInteger? .i32 (.number (.ofInt n)) = some n :=
  (Number.Represents.ofInt n).toInteger?

/-- A call that loads through an accessor. -/
theorem evaluate_load (a : Accessor) {i : Nat} (ht : t.evaluate around s = .ok (.word i) s₁)
    (hmemory : s₁.store.Owns around.place p memory) :
    (Term.call (.access a) [t]).evaluate around s =
      if i + a.width ≤ memory.size then
        .ok (.scalar (.ofValue (.ofInt a.type (a.read (slice memory.contents i a.width))))) s₁
      else .error (.trap .outOfBounds) s₁ := by
  have hload := LinearMemory.load_eq a i memory
  rw [evaluate_call_one ht, Callee.call, toInteger?_word]
  by_cases hin : i + a.width ≤ memory.size
  · rw [if_pos hin] at hload ⊢
    rw [LinearMemory.natAt_eq _ _ _ hin] at hload
    have hact := act_of_ok hmemory hload
    rw [setMemory_owned hmemory] at hact
    exact bind_at_ok hact
  · rw [if_neg hin] at hload ⊢
    exact (bind_at_ok rfl).trans (bind_at_error (act_of_error hmemory hload))

/-- A call that stores an integer through an accessor. -/
theorem evaluate_store (a : Accessor) {i : Nat} {n : Int}
    (ht : t.evaluate around s = .ok (.word i) s₁)
    (hu : u.EvaluatesTo around s₁ (.ofInt a.type n) s₂)
    (hmemory : s₂.store.Owns around.place p memory) :
    (Term.call (.access a) [t, u]).evaluate around s =
      if i + a.width ≤ memory.size then
        .ok .nothing (setMemory s₂ p { memory with
          bytes := LinearMemory.setNat memory.bytes i (Bits.unsigned (8 * a.width) n) a.width })
      else .error (.trap .outOfBounds) s₂ := by
  obtain ⟨d, hd, hrepresents⟩ := hu
  have hstore := LinearMemory.store_eq a i n memory
  rw [evaluate_call_two ht hd, Callee.call, toInteger?_word, toInteger?_of_stands hrepresents]
  by_cases hin : i + a.width ≤ memory.size
  · rw [if_pos hin] at hstore ⊢
    exact bind_at_ok (act_of_ok hmemory hstore)
  · rw [if_neg hin] at hstore ⊢
    exact (bind_at_ok rfl).trans
      ((bind_at_ok rfl).trans (bind_at_error (act_of_error hmemory hstore)))

/-! ### Addresses -/

/-- The sum of a base and an offset, modulo 2^32. -/
theorem unsigned_add (w : BitVec 32) (offset : Nat) :
    Bits.unsigned 32 (w.toInt + offset) = (w.toNat + offset) % 2 ^ 32 := by
  rw [Bits.unsigned_eq_toNat, BitVec.ofInt_add, BitVec.ofInt_toInt, BitVec.ofInt_natCast,
    BitVec.toNat_add, BitVec.toNat_ofNat, Nat.add_mod_mod]

/-- An address that is computed. -/
theorem evaluate_addressForm {w : BitVec 32} {offset : Nat} (hoffset : offset < 2 ^ 32)
    (ht : t.EvaluatesTo around s (.i32 w.toInt) s₁) :
    (addressForm t offset).evaluate around s = .ok
    (.word ((w.toNat + offset) % 2 ^ 32 : Nat)) s₁ := by
  unfold addressForm
  by_cases hzero : offset = 0
  · subst hzero
    rw [if_pos rfl, evaluate_toUnsigned32 ht, Bits.unsigned_toInt, Nat.add_zero,
      Nat.mod_eq_of_lt w.isLt]
  · rw [if_neg hzero, ← unsigned_add]
    refine evaluate_toUnsigned32 ?_
    obtain ⟨x, y, hx, hy, he⟩ := evaluate_numbers .plus ht (evaluatesTo_number offset)
    have hw := natAbs_toInt_le w
    have hsum := hx.add hy (by omega)
    refine ⟨.number (x.add y), ?_, hsum⟩
    rw [Term.group, Term.evaluate, he]
    rfl

/-- The fold of a literal base gives the address that would be computed. -/
theorem unsigned_fold (w : BitVec 32) (offset : Nat) :
    Bits.unsigned32 (Bits.signed32 (w.toInt + offset)) = (w.toNat + offset) % 2 ^ 32 := by
  rw [Bits.unsigned32, Bits.signed32, Bits.unsigned_eq_toNat,
    Bits.ofInt_signed, ← Bits.unsigned_eq_toNat, unsigned_add]

/-- A literal base gives its number. -/
theorem eq_of_evaluatesTo_number {n m : Int}
    (h : (Term.number n).EvaluatesTo around s (.i32 m) s₁) : s₁ = s ∧ n = m := by
  obtain ⟨d, hd, hrepresents⟩ := h
  cases hd
  exact ⟨rfl,
    Option.some.inj ((toInteger?_word n).symm.trans (Number.Represents.toInteger? hrepresents))⟩

/-- The address of an access, be it folded or computed. -/
theorem exists_address {base : Expression} (hbase : ofExpression base = .ok t) {offset : Nat}
    (hoffset : offset < 2 ^ 32) :
    ∃ u, ofExpression (base.effectiveAddress offset) = .ok u ∧
      ∀ (around : Surroundings σ) (s s₁ : Variables σ) (w : BitVec 32),
        t.EvaluatesTo around s (.i32 w.toInt) s₁ →
        (asAddress (base.effectiveAddress offset) u).evaluate around s
          = .ok (.word ((w.toNat + offset) % 2 ^ 32 : Nat)) s₁ := by
  unfold Expression.effectiveAddress
  split
  · next n =>
    cases hbase
    refine ⟨_, rfl, fun around s s₁ w ht => ?_⟩
    obtain ⟨rfl, rfl⟩ := eq_of_evaluatesTo_number ht
    rw [asAddress, unsigned_fold]
    rfl
  · refine ⟨addressForm t offset, ?_, fun around s s₁ w ht => evaluate_addressForm hoffset ht⟩
    rw [ofExpression, hbase]
    rfl

/-! ### Loads -/

/-- The script of a load gives the word of the bytes at its address, or it traps. -/
theorem evaluate_ofLoad {access : Access} (hload : access.isStore = false) {e : Expression}
    (he : ofExpression e = .ok u) :
    ∃ script, ofExpression (.load access e) = .ok script ∧
      ∀ {around : Surroundings σ} {s s₁ : Variables σ} {i : Nat},
        (asAddress e u).evaluate around s = .ok (.word i) s₁ →
        ∀ {p : Nat} {memory : LinearMemory}, s₁.store.Owns around.place p memory →
          script.evaluate around s =
          if i + access.width ≤ memory.size then
            .ok (.scalar
              (.ofValue
              (.ofInt access.type (access.word (slice memory.contents i access.width)).toInt))) s₁
          else .error (.trap .outOfBounds) s₁ := by
  refine ⟨_, by rw [ofExpression, he]; rfl, ?_⟩
  intro around s s₁ i haddress p memory hmemory
  have hcall := evaluate_load access.accessor haddress hmemory
  rw [access.width_accessor] at hcall
  by_cases hin : i + access.width ≤ memory.size
  · have hlength : (slice memory.contents i access.width).length = access.width := by
      rw [slice, List.length_take, List.length_drop, LinearMemory.length_contents]
      omega
    rw [if_pos hin, Access.read_accessor hload hlength, access.type_accessor] at hcall
    rw [if_pos hin]
    generalize (access.word (slice memory.contents i access.width)).toInt = n at hcall ⊢
    -- A narrow access of 64 bits is read as a word and made a big integer of.
    by_cases hnarrow : access.isNarrowI64
    · rw [if_pos hnarrow] at hcall ⊢
      rw [(Access.narrow hnarrow).1]
      exact evaluate_bigInt (.of_word hcall)
    · rw [if_neg hnarrow] at hcall ⊢
      exact hcall
  · rw [if_neg hin] at hcall ⊢
    split
    · rw [Term.evaluate]
      exact bind_at_error (by rw [Term.evaluateAll]; exact bind_at_error hcall)
    · exact hcall

/-! ### Stores -/

/-- The integer that a store hands to its accessor. -/
def handed (access : Access) (n : Int) :
    Int := if access.isNarrowI64 then Arithmetic.i32WrapI64 n else n

/-- What a store hands to its accessor has the lowest bytes of the operand. -/
theorem lowBytes_handed (access : Access) (x : BitVec access.type.width) :
    lowBytes access.width (Bits.unsigned (8 * access.width) (handed access x.toInt))
      = lowBytes access.width x.toNat := by
  have hword : BitVec.ofInt (8 * access.width) x.toInt = x.setWidth (8 * access.width) := by
    rw [← Bits.setWidth_ofInt access.width_le, BitVec.ofInt_toInt]
  have hhanded : BitVec.ofInt (8 * access.width) (handed access x.toInt) =
      BitVec.ofInt (8 * access.width) x.toInt := by
    unfold handed
    split
    · next hnarrow =>
      have hle := (Access.narrow hnarrow).2
      rw [Arithmetic.i32WrapI64, ← Bits.setWidth_ofInt hle, Bits.ofInt_signed,
        Bits.setWidth_ofInt hle]
    · rfl
  have hlow : Bits.unsigned (8 * access.width) (handed access x.toInt) =
      x.toNat % 256 ^ access.width := by
    rw [Bits.unsigned_eq_toNat, hhanded, hword, BitVec.toNat_setWidth, Nat.pow_mul]
  rw [hlow, lowBytes_mod]

/-- The operand of a store as its accessor takes it. -/
theorem evaluatesTo_handed (access : Access) {n : Int}
    (hu : u.EvaluatesTo around s (.ofInt access.type n) s₁) :
    (if access.isNarrowI64 then Term.help .i32WrapI64 [u] else u).EvaluatesTo around s
      (.ofInt access.accessor.type (handed access n)) s₁ := by
  rw [access.type_accessor, handed]
  by_cases hnarrow : access.isNarrowI64
  · rw [if_pos hnarrow, if_pos hnarrow, if_pos hnarrow]
    rw [(Access.narrow hnarrow).1] at hu
    exact .of_word (evaluate_help_one .i32WrapI64 hu)
  · rwa [if_neg hnarrow, if_neg hnarrow, if_neg hnarrow]

/-- The script of a store writes the lowest bytes of its operand at its address, or it traps. -/
theorem evaluate_ofStore {access : Access} {e value : Expression} {t₁ t₂ : Term}
    (he : ofExpression e = .ok t₁) (hvalue : ofExpression value = .ok t₂) :
    ∃ call, ofStatement (.store access e value) = .ok [.evaluate call] ∧
      ∀ {around : Surroundings σ} {s s₁ s₂ : Variables σ} {i : Nat} {x : BitVec access.type.width},
        (asAddress e t₁).evaluate around s = .ok (.word i) s₁ →
        t₂.EvaluatesTo around s₁ (.ofInt access.type x.toInt) s₂ →
        ∀ {p : Nat} {memory : LinearMemory}, s₂.store.Owns around.place p memory →
          ∃ bytes : ByteArray,
            (i + access.width ≤ memory.size →
              bytes.data.toList = overwrite memory.contents i (lowBytes access.width x.toNat)) ∧
            call.evaluate around s =
              if i + access.width ≤
                memory.size then .ok .nothing (setMemory s₂ p { memory with bytes })
              else .error (.trap .outOfBounds) s₂ := by
  refine ⟨_, by rw [ofStatement, ofAddress, he, hvalue]; rfl, ?_⟩
  intro around s s₁ s₂ i x haddress hx p memory hmemory
  have hcall := evaluate_store access.accessor haddress (evaluatesTo_handed access hx) hmemory
  rw [access.width_accessor] at hcall
  refine ⟨_, fun hin => ?_, hcall⟩
  rw [← lowBytes_handed access x]
  exact LinearMemory.toList_setNat _ _ _ _ hin

/-! ### Every access -/

theorem describeAccess_opcode (access : Access) :
    describeAccess access.opcode.byte = .ok access := by
  cases access <;> rfl

/-- Loads and stores, from their opcodes down to the bytes: an access touches the bytes at the sum
of its base and its offset modulo 2^32, or traps where they are not all in the memory; a load gives
the word of these bytes, and a store writes the lowest ones of its operand there.  An address that
is folded is the one that would be computed. -/
theorem access_reaches_bytes (access : Access) (arg : MemArg) (hoffset : arg.offset < 2 ^ 32)
    {base : Expression} {t : Term} (hbase : ofExpression base = .ok t) :
    describeAccess access.opcode.byte = .ok access ∧
    (access.isStore = false → ∃ load script, loadOf access arg base = .ok load ∧ ofExpression load =
      .ok script ∧
      ∀ (around : Surroundings σ) (s s₁ : Variables σ) (w : BitVec 32),
        t.EvaluatesTo around s (.i32 w.toInt) s₁ →
        ∀ p memory, s₁.store.Owns around.place p memory →
          let address := (w.toNat + arg.offset) % 2 ^ 32
          script.evaluate around s =
            if address + access.width ≤ memory.size then
              .ok (.scalar (.ofValue
                (.ofInt access.type
                  (access.word (slice memory.contents address access.width)).toInt))) s₁
            else .error (.trap .outOfBounds) s₁) ∧
    (access.isStore → ∀ value operand, ofExpression value = .ok operand →
      ∃ store script, storeOf access arg base value = .ok store ∧ ofStatement store =
          .ok [.evaluate script] ∧
        ∀ (around : Surroundings σ) (s s₁ s₂ : Variables σ) (w : BitVec 32)
            (x : BitVec access.type.width),
          t.EvaluatesTo around s (.i32 w.toInt) s₁ →
            operand.EvaluatesTo around s₁ (.ofInt access.type x.toInt) s₂ →
          ∀ p memory, s₂.store.Owns around.place p memory →
            let address := (w.toNat + arg.offset) % 2 ^ 32
            ∃ bytes : ByteArray,
              (address + access.width ≤ memory.size →
                bytes.data.toList =
                  overwrite memory.contents address (lowBytes access.width x.toNat)) ∧
              script.evaluate around s =
                if address + access.width ≤
                  memory.size then .ok .nothing (setMemory s₂ p { memory with bytes })
                else .error (.trap .outOfBounds) s₂) ∧
    ∀ w : BitVec 32, base = .literal (.i32 w.toInt) →
      ∃ folded, ofAddress (base.effectiveAddress arg.offset) = .ok (.number folded) ∧
        ∀ (around : Surroundings σ) (s : Variables σ),
          (addressForm t arg.offset).evaluate around s =
            (Term.number folded).evaluate around s := by
  -- The address is the same for a load and for a store: the base with the offset added to it.
  obtain ⟨u, hu, haddress⟩ := exists_address (σ := σ) hbase hoffset
  refine ⟨describeAccess_opcode access, fun hload => ?_, fun hstore value operand hvalue => ?_, ?_⟩
  · obtain ⟨script, hscript, hruns⟩ := evaluate_ofLoad hload hu
    refine ⟨_, script, IR.Build.loadOf_eq hload, hscript,
      fun around s s₁ w hw p memory hmemory => ?_⟩
    exact hruns (haddress around s s₁ w hw) hmemory
  · obtain ⟨script, hscript, hruns⟩ := evaluate_ofStore hu hvalue
    refine ⟨_, script, IR.Build.storeOf_eq hstore, hscript,
      fun around s s₁ s₂ w x hw hx p memory hmemory => ?_⟩
    exact hruns (haddress around s s₁ w hw) hx hmemory
  · rintro w rfl
    cases hbase
    refine ⟨_, rfl, fun around s => ?_⟩
    rw [evaluate_addressForm hoffset (evaluatesTo_number w.toInt), unsigned_fold]
    rfl

/-- With a base of -1 and an offset of 2 a 64-bit value of -2 is stored in the second and the third
byte, and it is loaded from there with its sign. -/
theorem access_reaches_bytes_wrapping :
    (∃ store script, storeOf .i64Store16 ⟨1, 2⟩ (.literal (.i32 (-1))) (.literal (.i64 (-2))) =
      .ok store ∧
      ofStatement store = .ok [.evaluate script] ∧
      ∀ (around : Surroundings Unit) (s : Variables Unit) p memory,
        s.store.Owns around.place p memory →
        3 ≤ memory.size → ∃ bytes : ByteArray, bytes.data.toList =
          overwrite memory.contents 1 [0xfe, 0xff] ∧
          script.evaluate around s = .ok .nothing (setMemory s p { memory with bytes })) ∧
    ∃ load script, loadOf .i64Load16S ⟨1, 2⟩ (.literal (.i32 (-1))) = .ok load ∧ ofExpression load =
      .ok script ∧
      ∀ (around : Surroundings Unit) (s : Variables Unit) p memory,
        s.store.Owns around.place p memory →
        3 ≤ memory.size → slice memory.contents 1 2 = [0xfe, 0xff] →
          script.evaluate around s = .ok (.integer (-2)) s := by
  have hbase : ofExpression (.literal (.i32 (-1))) = .ok (.number (-1)) := rfl
  have hw {around : Surroundings Unit} (s : Variables Unit) :
      (Term.number (-1)).EvaluatesTo around s (.i32 (-1#32).toInt) s := evaluatesTo_number (-1)
  have hx {around : Surroundings Unit} (s : Variables Unit) :
      (Term.bigInteger (-2)).EvaluatesTo around s (.i64 (-2#64).toInt) s :=
        evaluatesTo_bigInteger (-2)
  constructor
  · obtain ⟨-, -, hstores, -⟩ := access_reaches_bytes .i64Store16 ⟨1, 2⟩ (by decide) hbase
    obtain ⟨store, script, hstore, hscript, hruns⟩ := hstores rfl (.literal (.i64 (-2))) _ rfl
    refine ⟨store, script, hstore, hscript, fun around s p memory hmemory hsize => ?_⟩
    obtain ⟨bytes, hbytes, hrun⟩ := hruns around s s s _ _ (hw s) (hx s) p memory hmemory
    exact ⟨bytes, hbytes hsize, hrun.trans (if_pos hsize)⟩
  · obtain ⟨-, hloads, -, -⟩ := access_reaches_bytes .i64Load16S ⟨1, 2⟩ (by decide) hbase
    obtain ⟨load, script, hload, hscript, hruns⟩ := hloads rfl
    refine ⟨load, script, hload, hscript, fun around s p memory hmemory hsize hbytes => ?_⟩
    have hword : (Access.word .i64Load16S (slice memory.contents 1 2)).toInt = -2 := by
      rw [hbytes]
      rfl
    refine ((hruns around s s _ (hw s) p memory hmemory).trans (if_pos hsize)).trans ?_
    exact congrArg (fun n => EStateM.Result.ok (Datum.integer n) s) hword

end Script

end WasmScript
