/-
  WasmScript/Proofs/Module/IntegerLoops.lean
  ==========================================
  **Loops of the integer readers** — the same integers, from the last byte back.

  A reader of integers goes through their bytes and puts the bits of each one into what it
  has: by a product and a sum, by the operators of 32-bit numbers, or by those of integers
  of any size.  The sign is known with the last byte, and is then spread over the bits above.

  For proofs an integer is better read as the grammar has it, as its first seven bits and
  the rest.  `u32Tail` and `signedTail` do that, and `u32_eq`, `s32_eq` and `s64_eq` say that
  they are the readers: bits that do not overlap are added, and whatever is cut off or filled
  in at the top is what two's complement leaves out.  The readers of signed integers differ in
  how they hold bits, and `Loops` is what they have in common.
-/
import WasmScript.Proofs.Integer.Words
import WasmScript.Proofs.Module.Ensures
import Mathlib.Tactic.Ring

namespace WasmScript

/-! ### Bits -/

namespace Bits

/-- Bits below a place and bits from there on are added, in 32 bits as well. -/
theorem or_shl32 {low : Nat} {k : Nat} (h : low < 2 ^ k) (n : Int) :
    Bits.or 32 (signed32 low) (shl32 n k) = signed32 (low + n * twoPow k) := by
  have hdisjoint : BitVec.ofInt 32 low &&& BitVec.ofInt 32 n <<< k = 0#32 := by
    refine BitVec.eq_of_getLsbD_eq fun i _ => ?_
    rw [BitVec.getLsbD_and, BitVec.getLsbD_shiftLeft, BitVec.getLsbD_zero]
    by_cases hi : i < k
    · simp [hi]
    · have hlow : low.testBit i = false :=
        Nat.testBit_lt_two_pow
          (Nat.lt_of_lt_of_le h (Nat.pow_le_pow_right (by decide) (Nat.le_of_not_lt hi)))
      simp [BitVec.ofInt_natCast, BitVec.getLsbD_ofNat, hlow]
  rw [or_eq_toInt, signed32, ofInt_signed,
    ofInt_shl32, ← BitVec.add_eq_or_of_and_eq_zero
      _ _ hdisjoint, ← ofInt_mul_twoPow, ← BitVec.ofInt_add, signed32, signed_eq_toInt]

end Bits

namespace Parser

open Bits (twoPow signed32)

variable {start left i b : Nat}

theorem and_seven (b : Nat) : b &&& 0x7f = b % 128 := Nat.and_two_pow_sub_one_eq_mod b 7

theorem twoPow_next (i : Nat) : twoPow (7 * (i + 1)) = 128 * twoPow (7 * i) := by
  rw [Bits.twoPow_eq, Bits.twoPow_eq, Nat.mul_succ]
  ring

/-- Seven more bits. -/
theorem add_seven_lt {low n : Nat} (hlow : low < twoPow (7 * i)) (hn : n < 128) :
    low + n * twoPow (7 * i) < twoPow (7 * (i + 1)) := by
  have hle := Nat.mul_le_mul_right (twoPow (7 * i)) (show n + 1 ≤ 128 from hn)
  rw [Nat.add_mul, Nat.one_mul] at hle
  rw [twoPow_next]
  omega

/-- The masks of a byte: its high bit, what is left for the last byte of a `u32`, and its sign. -/
theorem masks (hb : b < 256) :
    (b &&& 0x80 = 0 ↔ b < 128) ∧ (b &&& 0xf0 = 0 ↔ b < 16) ∧ (b &&& 0x40 = 0 ↔ b % 128 < 64) := by
  have hall : ∀ b < 256, (b &&& 0x80 = 0 ↔ b < 128) ∧ (b &&& 0xf0 = 0 ↔ b < 16) ∧
      (b &&& 0x40 = 0 ↔ b % 128 < 64) := by decide +kernel
  exact hall b hb

/-! ### From the last byte back -/

/-- The bytes of a `u32` from the one at bit `shift` on, of which at most `left` may follow. -/
def u32Tail (start : Nat) : (left : Nat) → (shift : Nat) → Parser Nat
  | 0, _ => failAt (.integerTooLarge "u32") start
  | left + 1, shift => do
    let b ← byte
    if left = 0 ∧ 0x10 ≤ b then failAt (.integerTooLarge "u32") start
    else if b < 0x80 then pure (b <<< shift)
    else
      let high ← u32Tail start left (shift + 7)
      pure ((b - 0x80) <<< shift + high)

/-- The seven bits of a last byte, signed. -/
def signedSeven (b : Nat) : Int := if b < 0x40 then b else (b : Int) - 0x80

/-- The bytes of a signed integer from the one at bit `shift` on.  The `spare` bits of the last
possible byte must all repeat the sign. -/
def signedTail (type : String) (spare : Nat) (start : Nat) :
    (left : Nat) → (shift : Nat) → Parser Int
  | 0, _ => failAt (.integerTooLarge type) start
  | left + 1, shift => do
    let b ← byte
    if left = 0 ∧ (0x80 ≤ b ∨ (b &&& spare ≠ 0 ∧ b &&& spare ≠ spare)) then
      failAt (.integerTooLarge type) start
    else if b < 0x80 then pure (signedSeven b * Bits.twoPow shift)
    else
      let high ← signedTail type spare start left (shift + 7)
      pure (((b : Int) - 0x80) * Bits.twoPow shift + high)

/-! ### Unsigned integers -/

theorem u32Loop_eq (left : Nat) : ∀ {i : Nat} (result : Nat), i + left = 4 →
    u32Loop start (left + 1) i result
      = u32Tail start (left + 1) (7 * i) >>= fun high => pure (result + high) := by
  -- The induction is on the bytes that may still come, and the loop has added up those before them.
  induction left using Nat.strongRecOn with
  | ind left ih =>
    intro i result hi
    rw [u32Loop, u32Tail, bind_assoc]
    refine bind_byte_congr fun b hb => ?_
    obtain ⟨hhigh, hspare, -⟩ := masks hb
    have hfirst : (i = 4 ∧ b &&& 0xf0 ≠ 0) ↔ (left = 0 ∧ 0x10 ≤ b) := by
      rw [ne_eq, hspare]
      omega
    simp only [hfirst, hhigh, and_seven, Bits.twoPow_eq]
    by_cases hbad : left = 0 ∧ 0x10 ≤ b
    · rw [if_pos hbad, if_pos hbad]
      rfl
    rw [if_neg hbad, if_neg hbad]
    by_cases hsmall : b < 128
    · rw [if_pos hsmall, if_pos hsmall, pure_bind, Nat.mod_eq_of_lt hsmall, Nat.shiftLeft_eq]
    · rw [if_neg hsmall, if_neg hsmall, bind_assoc]
      obtain ⟨left, rfl⟩ := Nat.exists_eq_add_of_le' (show 1 ≤ left by omega)
      rw [ih left (Nat.lt_succ_self left) _ (by omega), Nat.mul_succ]
      refine bind_congr fun high => ?_
      have hseven : b % 128 = b - 128 := by omega
      rw [pure_bind, hseven, Nat.shiftLeft_eq, Nat.add_assoc]

theorem u32_eq : u32 = position >>= fun start => u32Tail start 5 0 := by
  refine bind_congr fun start => ?_
  rw [u32Loop_eq 4 0 rfl]
  simp only [Nat.zero_add]
  exact bind_pure _

/-! ### Signed integers -/

/-- What a loop does with the byte at each place: `low`, which it holds as `held low`, is what the
bytes before stand for, and `value` is what it makes of the integer in the end. -/
def Loops (type : String) (spare last start : Nat) {β : Type} (held : Nat → β) (value : Int → Int)
    (loop : (left i : Nat) → β → Parser Int) : Prop :=
  ∀ left i low : Nat, i ≤ last → low < twoPow (7 * i) →
    loop (left + 1) i (held low) = byte >>= fun b =>
      if i = last ∧ (0x80 ≤ b ∨ (b &&& spare ≠ 0 ∧ b &&& spare ≠ spare)) then
        failAt (.integerTooLarge type) start
      else if b < 0x80 then pure (value (low + signedSeven b * twoPow (7 * i)))
      else loop left (i + 1) (held (low + (b - 0x80) * twoPow (7 * i)))

theorem Loops.eq_signedTail {type : String} {spare last : Nat} {β : Type} {held : Nat → β}
    {value : Int → Int} {loop : (left i : Nat) → β → Parser Int}
      (h : Loops type spare last start held value loop) (left : Nat) :
    ∀ {i : Nat} (low : Nat), i + left = last → low < twoPow (7 * i) →
      loop (left + 1) i (held low) =
        signedTail type spare start (left + 1) (7 * i) >>= fun high =>
          pure (value (low + high)) := by
  -- The induction is on the bytes that may still come; what was read so far is below `2 ^ (7 * i)`.
  induction left using Nat.strongRecOn with
  | ind left ih =>
    intro i low hi hlow
    rw [h left i low (by omega) hlow, signedTail, bind_assoc]
    refine bind_byte_congr fun b hb => ?_
    have hlast : i = last ↔ left = 0 := by omega
    simp only [hlast]
    by_cases hbad : left = 0 ∧ (0x80 ≤ b ∨ (b &&& spare ≠ 0 ∧ b &&& spare ≠ spare))
    · rw [if_pos hbad, if_pos hbad]
      rfl
    rw [if_neg hbad, if_neg hbad]
    by_cases hsmall : b < 0x80
    · rw [if_pos hsmall, if_pos hsmall]
      rfl
    · rw [if_neg hsmall, if_neg hsmall, bind_assoc]
      obtain ⟨left, rfl⟩ := Nat.exists_eq_add_of_le' (show 1 ≤ left by omega)
      have hmore := add_seven_lt hlow (show b - 0x80 < 128 by omega)
      rw [ih left (Nat.lt_succ_self left) _ (by omega) hmore, Nat.mul_succ]
      refine bind_congr fun high => ?_
      rw [pure_bind]
      push_cast [show 0x80 ≤ b by omega]
      rw [Int.add_assoc]

/-- The sign of the last byte is spread over the bits above in 32 bits, if there are any. -/
theorem spread_sign (hb : b < 128) {low : Nat} (hlow : low < twoPow (7 * i)) (hi : i ≤ 4) :
    (if 7 * (i + 1) < 32 ∧ b &&& 0x40 ≠ 0 then
        Bits.or 32 (signed32 (low + b * twoPow (7 * i) : Nat)) (Bits.shl32 (-1) (7 * (i + 1)))
      else signed32 (low + b * twoPow (7 * i) : Nat)) =
        signed32 (low + signedSeven b * twoPow (7 * i)) := by
  have hsign : b &&& 0x40 = 0 ↔ b < 64 := by rw [(masks (by omega)).2.2, Nat.mod_eq_of_lt hb]
  unfold signedSeven
  -- Without a sign nothing is spread.
  by_cases hpos : b < 64
  · rw [if_neg fun h => h.2 (hsign.mpr hpos), if_pos hpos]
    push_cast
    rfl
  · rw [if_neg hpos]
    by_cases hroom : 7 * (i + 1) < 32
    · rw [if_pos ⟨hroom, fun h => hpos (hsign.mp h)⟩, Bits.or_shl32 (add_seven_lt hlow hb),
        twoPow_next]
      push_cast
      ring_nf
    · -- The fifth byte fills the 32 bits, and what its sign adds is a multiple of 2^32.
      rw [if_neg fun h => hroom h.1]
      obtain rfl : i = 4 := by omega
      have hsplit : (low : Int) + ((b : Int) - 0x80) * twoPow (7 * 4)
          = ((low + b * twoPow (7 * 4) : Nat) : Int) + (-8) * (twoPow 32 : Nat) := by
        have hfour : (twoPow (7 * 4) : Int) = 0x10000000 := rfl
        have hall : (twoPow 32 : Int) = 0x100000000 := rfl
        push_cast
        rw [hfour, hall]
        omega
      rw [hsplit, signed32, signed32, Bits.signed, Bits.signed, Int.add_mul_bmod_self_right]

theorem loops_s32 (start : Nat) :
    Loops "s32" 0x78 4 start (fun low => signed32 low) signed32 (s32Loop start) := by
  intro left i low hi hlow
  rw [s32Loop]
  refine bind_byte_congr fun b hb => ?_
  have hhigh := (masks hb).1
  have hbits : Bits.or 32 (signed32 low) (Bits.shl32 ((b % 128 : Nat) : Int) (7 * i))
      = signed32 (low + b % 128 * twoPow (7 * i) : Nat) := by
    rw [Bits.or_shl32 hlow]
    push_cast
    rfl
  simp only [ne_eq (b &&& 0x80), hhigh, Nat.not_lt, and_seven, hbits]
  refine if_congr Iff.rfl rfl ?_
  by_cases hsmall : b < 128
  · rw [if_pos hsmall, if_pos hsmall, Nat.mod_eq_of_lt hsmall]
    exact congrArg pure (spread_sign hsmall hlow hi)
  · rw [if_neg hsmall, if_neg hsmall, show b % 128 = b - 128 by omega]

/-- The signed reading of bits of which the topmost seven are those of a byte. -/
theorem signed_top (hb : b < 128) {low : Nat} (hlow : low < twoPow (7 * i)) :
    Bits.signed (7 * (i + 1)) (low + b * twoPow (7 * i) : Nat) =
      low + signedSeven b * twoPow (7 * i) := by
  have hbits := add_seven_lt hlow hb
  rw [twoPow_next] at hbits
  rw [Bits.signed, twoPow_next, Int.bmod_def, Int.emod_eq_of_lt (by omega) (by omega)]
  unfold signedSeven
  by_cases hpos : b < 64
  · have hbelow := Nat.mul_le_mul_right (twoPow (7 * i)) (show b + 1 ≤ 64 from hpos)
    rw [Nat.add_mul, Nat.one_mul] at hbelow
    rw [if_pos (by omega), if_pos hpos]
    push_cast
    rfl
  · have habove := Nat.mul_le_mul_right (twoPow (7 * i)) (show 64 ≤ b from Nat.le_of_not_lt hpos)
    rw [if_neg (by omega), if_neg hpos]
    push_cast
    ring

theorem loops_s64 (start : Nat) : Loops "s64" 0x7f 9 start id (Bits.signed 64) (s64Loop start) := by
  intro left i low hi hlow
  rw [id, s64Loop]
  refine bind_byte_congr fun b hb => ?_
  have hhigh := (masks hb).1
  have hbits : low ||| (b &&& 0x7f) <<< (7 * i) = low + b % 128 * twoPow (7 * i) := by
    rw [and_seven, Nat.or_comm, ← Nat.shiftLeft_add_eq_or_of_lt hlow, Nat.shiftLeft_eq,
      Nat.add_comm]
    rfl
  simp only [ne_eq (b &&& 0x80), hhigh, Nat.not_lt, hbits]
  refine if_congr Iff.rfl rfl ?_
  by_cases hsmall : b < 128
  · rw [if_pos hsmall, if_pos hsmall, Nat.mod_eq_of_lt hsmall, signed_top hsmall hlow]
  · rw [if_neg hsmall, if_neg hsmall, show b % 128 = b - 128 by omega]
    rfl

/-! ### What signed integers are -/

/-- The last possible byte of a signed integer repeats the sign in its spare bits. -/
theorem signedSeven_spare {b : Nat} (hb : b < 128) {spare bound : Nat}
    (hspare : (spare, bound) ∈ [(0x78, 8), (0x7f, 1)]) (h : b &&& spare = 0 ∨ b &&& spare = spare) :
    -(bound : Int) ≤ signedSeven b ∧ signedSeven b < bound := by
  have hall : ∀ p ∈ ([(0x78, 8), (0x7f, 1)] : List (Nat × Nat)), ∀ b < 128,
      (b &&& p.1 = 0 ∨ b &&& p.1 = p.1) →
      -(p.2 : Int) ≤ signedSeven b ∧ signedSeven b < p.2 := by decide
  exact hall (spare, bound) hspare b hb h

theorem signedSeven_bounds {b : Nat} (hb : b < 128) : -64 ≤ signedSeven b ∧ signedSeven b < 64 := by
  unfold signedSeven
  split <;> omega

/-- The bytes from the one at bit `shift` on stand for a multiple of its value, bounded by what the
last possible byte may hold. -/
theorem ensures_signedTail (type : String) {spare bound : Nat} (start : Nat)
    (hspare : (spare, bound) ∈ [(0x78, 8), (0x7f, 1)]) :
    ∀ left shift : Nat, (signedTail type spare start (left + 1) shift).Ensures fun n =>
      ∃ k : Int, n = k * Bits.twoPow shift ∧ -(bound * 128 ^ left : Nat) ≤ k
        ∧ k < (bound * 128 ^ left : Nat) := by
  have hbound : 1 ≤ bound ∧ bound ≤ 64 := by
    simp only [List.mem_cons, Prod.mk.injEq, List.not_mem_nil, or_false] at hspare
    omega
  intro left
  -- The induction is on the bytes that may still come, each of which adds seven bits to the number.
  induction left with
  | zero =>
    intro shift
    refine .bind ensures_byte fun b _ => ?_
    split
    · exact ensures_failAt _ _
    · next hlast =>
      have hb : b < 0x80 := by by_contra hge; exact hlast ⟨rfl, .inl (by omega)⟩
      rw [if_pos hb]
      refine ensures_pure ⟨signedSeven b, rfl, ?_⟩
      rw [Nat.pow_zero, Nat.mul_one]
      refine signedSeven_spare hb hspare ?_
      by_contra hno
      rw [not_or] at hno
      exact hlast ⟨rfl, .inr hno⟩
  | succ left ih =>
    intro shift
    refine .bind ensures_byte fun b hbyte => ?_
    have hpow : 1 ≤ bound * 128 ^ left := Nat.mul_pos hbound.1 (Nat.pow_pos (by omega))
    have hsucc : bound * 128 ^ (left + 1) = bound * 128 ^ left * 128 := by
      rw [Nat.pow_succ, Nat.mul_assoc]
    rw [if_neg (by simp)]
    split
    · next hb =>
      have hseven := signedSeven_bounds hb
      exact ensures_pure ⟨signedSeven b, rfl, by omega, by omega⟩
    · refine .bind (ih (shift + 7)) fun high ⟨k, hk, hlow, hhigh⟩ => ?_
      refine ensures_pure ⟨(b : Int) - 0x80 + 128 * k, ?_, by omega, by omega⟩
      have hshift : (Bits.twoPow (shift + 7) : Int) = Bits.twoPow shift * 128 := by
        simp [Bits.twoPow, pow_add]
      rw [hk, hshift, Int.add_mul]
      ring

theorem ensures_tail32 (start : Nat) :
    (signedTail "s32" 0x78 start 5 0).Ensures fun n => -0x80000000 ≤ n ∧ n < 0x80000000 := by
  refine (ensures_signedTail "s32" start (by decide : (0x78, 8) ∈ _) 4 0).mono ?_
  rintro _ ⟨k, rfl, hlow, hhigh⟩
  have hone : (Bits.twoPow 0 : Int) = 1 := rfl
  rw [hone, Int.mul_one]
  omega

theorem ensures_tail64 (start : Nat) :
    (signedTail "s64" 0x7f start 10 0).Ensures fun n => -0x8000000000000000 ≤ n ∧
      n < 0x8000000000000000 := by
  refine (ensures_signedTail "s64" start (by decide : (0x7f, 1) ∈ _) 9 0).mono ?_
  rintro _ ⟨k, rfl, hlow, hhigh⟩
  have hone : (Bits.twoPow 0 : Int) = 1 := rfl
  rw [hone, Int.mul_one]
  omega

theorem s32_eq : s32 = position >>= fun start => signedTail "s32" 0x78 start 5 0 := by
  refine bind_congr fun start => ?_
  have hloop : s32Loop start 5 0 0 = _ := (loops_s32 start).eq_signedTail 4 0 rfl (by decide)
  rw [hloop]
  refine (ensures_tail32 start).bind_pure_eq fun n hn => ?_
  have hall : (twoPow 32 : Int) = 0x100000000 := rfl
  rw [Int.natCast_zero, Int.zero_add]
  exact Int.bmod_eq_of_le (by omega) (by omega)

theorem s64_eq : s64 = position >>= fun start => signedTail "s64" 0x7f start 10 0 := by
  refine bind_congr fun start => ?_
  have hloop : s64Loop start 10 0 0 = _ := (loops_s64 start).eq_signedTail 9 0 rfl (by decide)
  rw [hloop]
  refine (ensures_tail64 start).bind_pure_eq fun n hn => ?_
  have hall : (twoPow 64 : Int) = 0x10000000000000000 := rfl
  rw [Int.natCast_zero, Int.zero_add]
  exact Int.bmod_eq_of_le (by omega) (by omega)

theorem ensures_s32 : s32.Ensures fun n => -0x80000000 ≤ n ∧ n < 0x80000000 := by
  rw [s32_eq]
  exact .next ensures_tail32

theorem ensures_s64 : s64.Ensures fun n => -0x8000000000000000 ≤ n ∧ n < 0x8000000000000000 := by
  rw [s64_eq]
  exact .next ensures_tail64

end Parser

end WasmScript
