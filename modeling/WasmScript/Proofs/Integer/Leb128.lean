/-
  WasmScript/Proofs/Integer/Leb128.lean
  =====================================
  **Encodings of integers** — which bytes stand for an integer of so many bits.

  `Leb128.Unsigned` and `Leb128.Signed` are the two grammars of the binary format.  They
  allow padding as long as an encoding has no more bytes than its width needs, so an
  integer has several encodings; the shortest one, which the encoders give, is one of them.
-/
import WasmScript.Integer.Leb128
import WasmScript.Integer.Bits
import Mathlib.Tactic.Common
import Mathlib.Tactic.Ring

namespace WasmScript.Leb128

/-! ### The grammars -/

/-- Bytes that stand for an unsigned integer of so many bits. -/
inductive Unsigned : (bits n : Nat) → List UInt8 → Prop where
  | last {bits : Nat} {b : UInt8} : b.toNat < 128 → b.toNat < 2 ^ bits →
      Unsigned bits b.toNat [b]
  | next {bits n : Nat} {b : UInt8} {bs : List UInt8} : 128 ≤ b.toNat → 7 < bits →
      Unsigned (bits - 7) n bs → Unsigned bits (b.toNat - 128 + 128 * n) (b :: bs)

/-- Bytes that stand for a signed integer of so many bits. -/
inductive Signed : (bits : Nat) → (n : Int) → List UInt8 → Prop where
  | last {bits : Nat} {b : UInt8} : b.toNat < 64 → b.toNat < 2 ^ (bits - 1) →
      Signed bits b.toNat [b]
  | negative {bits : Nat} {b : UInt8} : 64 ≤ b.toNat → b.toNat < 128 →
      128 ≤ b.toNat + 2 ^ (bits - 1) → Signed bits (b.toNat - 128) [b]
  | next {bits : Nat} {n : Int} {b : UInt8} {bs : List UInt8} : 128 ≤ b.toNat → 7 < bits →
      Signed (bits - 7) n bs → Signed bits (b.toNat - 128 + 128 * n) (b :: bs)

variable {bits : Nat} {bs : List UInt8}

/-! ### The encoders in arithmetic -/

theorem or_high {n : Nat} (h : n < 128) : n ||| 0x80 = n + 128 := by
  have hadd : 2 ^ 7 * 1 + n = 2 ^ 7 * 1 ||| n := Nat.two_pow_add_eq_or_of_lt h 1
  rw [Nat.or_comm, ← show 2 ^ 7 * 1 = 0x80 from rfl, ← hadd]
  omega

theorem and_sign_eq_zero_iff {n : Nat} (h : n < 128) : n &&& 0x40 = 0 ↔ n < 64 := by
  have hall : ∀ n < 128, n &&& 0x40 = 0 ↔ n < 64 := by decide
  exact hall n h

theorem unsigned_eq (n : Nat) :
    unsigned n = if n < 128 then [UInt8.ofNat n] else UInt8.ofNat (n % 128 + 128) :: unsigned
      (n / 128) := by
  have hbyte : n &&& 0x7f = n % 128 := Nat.and_two_pow_sub_one_eq_mod n 7
  have hrest : n >>> 7 = n / 128 := Nat.shiftRight_eq_div_pow n 7
  rw [unsigned]
  simp only [hbyte, hrest]
  by_cases hsmall : n < 128
  · rw [if_pos (Nat.div_eq_of_lt hsmall), if_pos hsmall, Nat.mod_eq_of_lt hsmall]
  · rw [if_neg (by omega), if_neg hsmall, or_high (Nat.mod_lt n (by decide))]

theorem signed_eq (n : Int) :
    signed n = if -64 ≤ n ∧ n < 64 then [UInt8.ofNat (n % 128).toNat]
      else UInt8.ofNat ((n % 128).toNat + 128) :: signed (n / 128) := by
  have hbyte : Bits.unsigned 7 n = (n % 128).toNat := rfl
  have hrest : n >>> (7 : Nat) = n / 128 := Int.shiftRight_eq_div_pow n 7
  have hlow : (n % 128).toNat < 128 := by omega
  have hends :
      ((n / 128 = 0 ∧ (n % 128).toNat &&& 0x40 = 0) ∨
        (n / 128 = -1 ∧ (n % 128).toNat &&& 0x40 ≠ 0)) ↔
      -64 ≤ n ∧ n < 64 := by
    rw [ne_eq, and_sign_eq_zero_iff hlow]
    omega
  rw [signed]
  simp only [hbyte, hrest, hends, or_high hlow]

/-! ### Codes of the grammars -/

theorem Unsigned.ne_nil {n : Nat} (h : Unsigned bits n bs) : bs ≠ [] := by
  cases h <;> exact List.cons_ne_nil _ _

theorem Signed.ne_nil {n : Int} (h : Signed bits n bs) : bs ≠ [] := by
  cases h <;> exact List.cons_ne_nil _ _

theorem two_pow_add_seven (k : Nat) : 2 ^ (k + 7) = 128 * 2 ^ k := by
  ring

theorem Unsigned.lt {n : Nat} (h : Unsigned bits n bs) : n < 2 ^ bits := by
  induction h with
  | last _ hlt => exact hlt
  | @next bits n b bs hmore hbits _ ih =>
    have hb := b.toNat_lt
    have hpow : 2 ^ bits = 128 * 2 ^ (bits - 7) := by
      rw [← two_pow_add_seven, Nat.sub_add_cancel (Nat.le_of_lt hbits)]
    omega

theorem Unsigned.exists_last {n : Nat} (h : Unsigned bits n bs) : ∃ b ∈ bs, b.toNat < 128 := by
  induction h with
  | last hsmall _ => exact ⟨_, List.mem_cons_self, hsmall⟩
  | next _ _ _ ih =>
    obtain ⟨b, hmem, hsmall⟩ := ih
    exact ⟨b, List.mem_cons_of_mem _ hmem, hsmall⟩

theorem Signed.exists_last {n : Int} (h : Signed bits n bs) : ∃ b ∈ bs, b.toNat < 128 := by
  induction h with
  | last hsmall _ => exact ⟨_, List.mem_cons_self, Nat.lt_trans hsmall (by decide)⟩
  | negative _ hsmall _ => exact ⟨_, List.mem_cons_self, hsmall⟩
  | next _ _ _ ih =>
    obtain ⟨b, hmem, hsmall⟩ := ih
    exact ⟨b, List.mem_cons_of_mem _ hmem, hsmall⟩

/-- No encoding begins another one, whatever follows them. -/
theorem Unsigned.eq_of_append {m n : Nat} {cs bs' cs' : List UInt8} (hm : Unsigned bits m bs)
    (hn : Unsigned bits n cs) (h : bs ++ bs' = cs ++ cs') : m = n ∧ bs = cs := by
  -- The induction is on the first code, and each byte says whether it is the last.
  induction hm generalizing n cs with
  | last hsmall _ =>
    cases hn with
    | last _ _ =>
      obtain rfl := (List.cons.inj h).1
      exact ⟨rfl, rfl⟩
    | next hlarge _ _ =>
      obtain rfl := (List.cons.inj h).1
      omega
  | next hlarge _ _ ih =>
    cases hn with
    | last hsmall _ =>
      obtain rfl := (List.cons.inj h).1
      omega
    | next _ _ hrest =>
      obtain ⟨rfl, htail⟩ := List.cons.inj h
      obtain ⟨rfl, rfl⟩ := ih hrest htail
      exact ⟨rfl, rfl⟩

theorem Signed.unique {m n : Int} (hm : Signed bits m bs) (hn : Signed bits n bs) : m = n := by
  induction hm generalizing n with
  | last => cases hn <;> omega
  | negative => cases hn <;> omega
  | next hlarge _ _ ih =>
    cases hn with
    | last hsmall _ => omega
    | negative _ hsmall _ => omega
    | next _ _ hrest => rw [ih hrest]

/-- More bits are enough as well. -/
theorem Signed.mono {n : Int} (h : Signed bits n bs) {more : Nat} (hle : bits ≤ more) :
    Signed more n bs := by
  induction h generalizing more with
  | @last bits b hsmall hlt =>
    have hpow := Nat.pow_le_pow_right (n := 2) (by decide) (Nat.sub_le_sub_right hle 1)
    exact .last hsmall (Nat.lt_of_lt_of_le hlt hpow)
  | @negative bits b hlow hhigh hge =>
    have hpow := Nat.pow_le_pow_right (n := 2) (by decide) (Nat.sub_le_sub_right hle 1)
    exact .negative hlow hhigh (by omega)
  | next hbyte hbits _ ih => exact .next hbyte (by omega) (ih (by omega))

/-! ### Lengths -/

/-- Each byte but the last stands for seven bits that are there. -/
theorem Unsigned.length_lt {n : Nat} (h : Unsigned bits n bs) (hbits : 0 < bits) :
    7 * bs.length < bits + 7 := by
  induction h with
  | last => exact Nat.lt_add_of_pos_left hbits
  | next _ hseven _ ih =>
    have hrest := ih (Nat.sub_pos_of_lt hseven)
    rw [List.length_cons]
    omega

theorem Signed.length_lt {n : Int} (h : Signed bits n bs) (hbits : 0 < bits) :
    7 * bs.length < bits + 7 := by
  induction h with
  | last => exact Nat.lt_add_of_pos_left hbits
  | negative => exact Nat.lt_add_of_pos_left hbits
  | next _ hseven _ ih =>
    have hrest := ih (Nat.sub_pos_of_lt hseven)
    rw [List.length_cons]
    omega

/-- Fewer bits are enough for what is within their range and is no longer than they allow. -/
theorem Signed.narrow {n : Int} (h : Signed bits n bs) {fewer : Nat}
    (hlength : 7 * bs.length < fewer + 7) (hlow : -(2 ^ (fewer - 1) : Nat) ≤ n)
    (hhigh : n < (2 ^ (fewer - 1) : Nat)) : Signed fewer n bs := by
  induction h generalizing fewer with
  | last hsmall _ => exact .last hsmall (by omega)
  | negative hsmall hlarge _ => exact .negative hsmall hlarge (by omega)
  | @next bits n b bs hlarge _ hrest ih =>
    have hpos := List.length_pos_iff.mpr hrest.ne_nil
    rw [List.length_cons] at hlength
    obtain ⟨k, rfl⟩ := Nat.exists_eq_add_of_le' (show 8 ≤ fewer by omega)
    have hb := b.toNat_lt
    rw [show k + 8 - 1 = k + 7 by omega, two_pow_add_seven] at hlow hhigh
    refine .next hlarge (by omega) (ih (by omega) ?_ ?_)
    · rw [show k + 8 - 7 - 1 = k by omega]
      omega
    · rw [show k + 8 - 7 - 1 = k by omega]
      omega

theorem length_unsigned_le {n : Nat} (h : Unsigned bits n bs) :
    (unsigned n).length ≤ bs.length := by
  induction h with
  | last hsmall _ =>
    rw [unsigned_eq, if_pos hsmall]
    exact Nat.le_refl _
  | @next bits n b bs hlarge _ _ ih =>
    rw [unsigned_eq]
    split
    · exact Nat.succ_le_succ (Nat.zero_le _)
    · have hb := b.toNat_lt
      have hhigh : (b.toNat - 128 + 128 * n) / 128 = n := by omega
      rw [hhigh]
      exact Nat.succ_le_succ ih

theorem length_signed_le {n : Int} (h : Signed bits n bs) : (signed n).length ≤ bs.length := by
  induction h with
  | @last bits b hsmall _ =>
    rw [signed_eq, if_pos (by omega)]
    exact Nat.le_refl _
  | @negative bits b hlow hhigh _ =>
    rw [signed_eq, if_pos (by omega)]
    exact Nat.le_refl _
  | @next bits n b bs hlarge _ _ ih =>
    rw [signed_eq]
    split
    · exact Nat.succ_le_succ (Nat.zero_le _)
    · have hb := b.toNat_lt
      have hhigh : ((b.toNat : Int) - 128 + 128 * n) / 128 = n := by omega
      rw [hhigh]
      exact Nat.succ_le_succ ih

/-! ### The shortest encodings -/

theorem toNat_ofNat {n : Nat} (h : n < 256) : (UInt8.ofNat n).toNat = n := by
  rw [UInt8.toNat_ofNat']
  exact Nat.mod_eq_of_lt h

theorem unsigned_spec (n : Nat) : ∀ bits : Nat, n < 2 ^ bits → Unsigned bits n (unsigned n) := by
  induction n using Nat.strongRecOn with
  | ind n ih =>
    intro bits h
    rw [unsigned_eq]
    split
    · next hsmall =>
      have hbyte : (UInt8.ofNat n).toNat = n := toNat_ofNat (by omega)
      have hlast := @Unsigned.last bits (UInt8.ofNat n) (by omega) (by omega)
      rwa [hbyte] at hlast
    · next hlarge =>
      -- A number of two bytes or more has more than seven bits.
      have hbits : 7 < bits := by
        by_contra hle
        have hpow := Nat.pow_le_pow_right (n := 2) (by decide) (Nat.le_of_not_lt hle)
        omega
      obtain ⟨k, rfl⟩ := Nat.exists_eq_add_of_le' (Nat.le_of_lt hbits)
      rw [two_pow_add_seven] at h
      have hbyte : (UInt8.ofNat (n % 128 + 128)).toNat = n % 128 + 128 := toNat_ofNat (by omega)
      have hnext := Unsigned.next (b := UInt8.ofNat (n % 128 + 128)) (by omega) hbits
        (ih (n / 128) (by omega) k (by omega))
      have hvalue : (UInt8.ofNat (n % 128 + 128)).toNat - 128 + 128 * (n / 128) = n := by omega
      rwa [hvalue] at hnext

theorem unsigned_ne_nil (n : Nat) : unsigned n ≠ [] :=
  (unsigned_spec n n Nat.lt_two_pow_self).ne_nil

theorem signed_spec (n : Int) : ∀ bits : Nat, -(2 ^ (bits - 1) : Nat) ≤ n →
    n < (2 ^ (bits - 1) : Nat) → Signed bits n (signed n) := by
  -- The induction is on the size of the number, of which seven bits are written at a time.
  induction h : n.natAbs using Nat.strongRecOn generalizing n with
  | ind size ih =>
    intro bits hlow hhigh
    rw [signed_eq]
    split
    · next hsmall =>
      have hbyte : (UInt8.ofNat (n % 128).toNat).toNat = (n % 128).toNat := toNat_ofNat (by omega)
      rcases Int.lt_or_le n 0 with hneg | hpos
      · have hlast := @Signed.negative bits (UInt8.ofNat (n % 128).toNat)
          (by omega) (by omega) (by omega)
        have hvalue : ((UInt8.ofNat (n % 128).toNat).toNat : Int) - 128 = n := by omega
        rwa [hvalue] at hlast
      · have hlast := @Signed.last bits (UInt8.ofNat (n % 128).toNat)
          (by omega) (by omega)
        have hvalue : ((UInt8.ofNat (n % 128).toNat).toNat : Int) = n := by omega
        rwa [hvalue] at hlast
    · next hlarge =>
      have hbits : 7 < bits := by
        by_contra hle
        have hpow := Nat.pow_le_pow_right (n := 2) (by decide) (show bits - 1 ≤ 6 by omega)
        omega
      obtain ⟨k, rfl⟩ := Nat.exists_eq_add_of_le' hbits
      have hpow : 2 ^ (k + Nat.succ 7 - 1) = 128 * 2 ^ k := two_pow_add_seven k
      rw [hpow] at hlow hhigh
      have hbyte : (UInt8.ofNat ((n % 128).toNat + 128)).toNat = (n % 128).toNat + 128 :=
        toNat_ofNat (by omega)
      have hrest : Signed (k + Nat.succ 7 - 7) (n / 128) (signed (n / 128)) := by
        refine ih (n / 128).natAbs (by omega) (n / 128) rfl _ ?_ ?_
        · rw [show k + Nat.succ 7 - 7 - 1 = k by omega]
          omega
        · rw [show k + Nat.succ 7 - 7 - 1 = k by omega]
          omega
      have hnext := Signed.next (b := UInt8.ofNat ((n % 128).toNat + 128)) (by omega) hbits hrest
      have hvalue :
          ((UInt8.ofNat ((n % 128).toNat + 128)).toNat : Int) - 128 + 128 * (n / 128) = n := by
        omega
      rwa [hvalue] at hnext

end WasmScript.Leb128
