/-
  WasmScript/Proofs/Integer/Counting.lean
  =======================================
  **Counting bits** — the helpers that count the zeros and the ones of a word.

  Three facts carry this module.  The lowest one of a word is all that the word shares
  with its negation, so the zeros below it are the zeros above it in what they share.  A
  word of two parts has the zeros of one part, or those of both if that part has no ones.
  And the sums of the steps that count ones never leave their lane of eight bits, so that
  each byte is counted on its own, and there are no more than 256 of them to look at.

  As in `WasmScript.Proofs.Integer.Words` no operand is asked to be canonical: the halves
  of a 64-bit value are passed to the 32-bit helpers as unsigned numbers.
-/
import WasmScript.Integer.Arithmetic
import WasmScript.Proofs.Integer.Words

namespace WasmScript.Bits

/-! ### Zeros of a word in two parts -/

theorem ctz_toNat_lt {w : Nat} {x : BitVec w} (hx : x ≠ 0#w) : x.ctz.toNat < w := by
  have h := BitVec.ctz_lt_iff_ne_zero.mpr hx
  simpa [BitVec.lt_def, Nat.mod_eq_of_lt Nat.lt_two_pow_self] using h

theorem clz_zero (w : Nat) : (0#w).clz.toNat = w := by
  have h : (0#w).clz = BitVec.ofNat w w := BitVec.clz_eq_iff_eq_zero.mpr rfl
  rw [h, BitVec.toNat_ofNat, Nat.mod_eq_of_lt Nat.lt_two_pow_self]

theorem ctz_zero (w : Nat) : (0#w).ctz.toNat = w := by
  rw [BitVec.ctz_eq_reverse_clz, BitVec.reverse_eq_zero_iff.mpr rfl, clz_zero]

theorem clz_toNat_le {w : Nat} (x : BitVec w) : x.clz.toNat ≤ w := by
  by_cases hx : x = 0#w
  · exact Nat.le_of_eq (by rw [hx, clz_zero])
  · exact Nat.le_of_lt (clz_toNat_lt hx)

theorem ctz_toNat_le {w : Nat} (x : BitVec w) : x.ctz.toNat ≤ w := by
  rw [BitVec.ctz_eq_reverse_clz]
  exact clz_toNat_le x.reverse

/-- The count is told by the lowest one. -/
theorem ctz_eq_of_lowest {w : Nat} {x : BitVec w} {k : Nat} (hk : x.getLsbD k = true)
    (hlow : ∀ i < k, x.getLsbD i = false) : x.ctz.toNat = k := by
  have hx : x ≠ 0#w := by
    rintro rfl
    simp at hk
  rcases Nat.lt_trichotomy x.ctz.toNat k with h | h | h
  · have hzero := hlow _ h
    rw [BitVec.getLsbD_true_ctz_of_ne_zero hx] at hzero
    cases hzero
  · exact h
  · rw [BitVec.getLsbD_false_of_lt_ctz h] at hk
    cases hk

/-- A word and its negation share the lowest one alone. -/
theorem and_neg_eq_twoPow {w : Nat} {x : BitVec w} (hx : x ≠ 0#w) :
    x &&& -x = BitVec.twoPow w x.ctz.toNat := by
  have hlow := ctz_toNat_lt hx
  have hbit := BitVec.getLsbD_true_ctz_of_ne_zero hx
  apply BitVec.eq_of_getLsbD_eq
  intro i hi
  rw [BitVec.getLsbD_and, BitVec.getLsbD_neg, BitVec.getLsbD_twoPow]
  rcases Nat.lt_trichotomy i x.ctz.toNat with h | h | h
  · rw [BitVec.getLsbD_false_of_lt_ctz h]
    simp; omega
  · subst h
    have hnone : ¬∃ j < x.ctz.toNat, x.getLsbD j = true := by
      rintro ⟨j, hj, hone⟩
      rw [BitVec.getLsbD_false_of_lt_ctz hj] at hone
      cases hone
    simp [hbit, hnone, hi]
  · have hsome : ∃ j < i, x.getLsbD j = true := ⟨_, h, hbit⟩
    simp [hsome, hi]
    omega

theorem clz_twoPow {w k : Nat} (h : k < w) : (BitVec.twoPow w k).clz.toNat = w - 1 - k := by
  have hval := BitVec.toNat_twoPow_of_lt h
  have hx : BitVec.twoPow w k ≠ 0#w := by
    intro hzero
    rw [hzero] at hval
    simp at hval
    exact absurd hval.symm (Nat.ne_of_gt (Nat.two_pow_pos k))
  have hlog := log2_toNat hx
  have hlt := clz_toNat_lt hx
  rw [hval, Nat.log2_two_pow] at hlog
  omega

theorem append_eq_zero_iff {v w : Nat} (x : BitVec v) (y : BitVec w) :
    x ++ y = 0#(v + w) ↔ x = 0#v ∧ y = 0#w := by
  constructor
  · intro h
    have hx := congrArg (BitVec.extractLsb' w v) h
    have hy := congrArg (BitVec.setWidth w) h
    rw [BitVec.extractLsb'_append_eq_left] at hx
    rw [BitVec.setWidth_append_eq_right] at hy
    exact ⟨by simpa using hx, by simpa using hy⟩
  · rintro ⟨rfl, rfl⟩
    simp

/-- The trailing zeros of two parts: those of the lower one, unless it has no ones. -/
theorem ctz_append {v w : Nat} (x : BitVec v) (y : BitVec w) :
    (x ++ y).ctz.toNat = if y = 0#w then w + x.ctz.toNat else y.ctz.toNat := by
  split
  · next hy =>
    by_cases hx : x = 0#v
    · rw [(append_eq_zero_iff x y).mpr ⟨hx, hy⟩, hx, ctz_zero, ctz_zero, Nat.add_comm]
    · apply ctz_eq_of_lowest
      · rw [BitVec.getLsbD_append, if_neg (by omega)]
        simpa using BitVec.getLsbD_true_ctz_of_ne_zero hx
      · intro i hi
        rw [BitVec.getLsbD_append]
        split
        · simp [hy]
        · exact BitVec.getLsbD_false_of_lt_ctz (by omega)
  · next hy =>
    have hlt := ctz_toNat_lt hy
    apply ctz_eq_of_lowest
    · rw [BitVec.getLsbD_append, if_pos hlt]
      exact BitVec.getLsbD_true_ctz_of_ne_zero hy
    · intro i hi
      rw [BitVec.getLsbD_append, if_pos (by omega)]
      exact BitVec.getLsbD_false_of_lt_ctz hi

theorem ctz_cast {v w : Nat} (h : v = w) (x : BitVec v) :
    (x.cast h).ctz.toNat = x.ctz.toNat := by
  subst h
  rfl

/-- The leading zeros of two parts: those of the upper one, unless it has no ones. -/
theorem clz_append {v w : Nat} (x : BitVec v) (y : BitVec w) :
    (x ++ y).clz.toNat = if x = 0#v then v + y.clz.toNat else x.clz.toNat := by
  rw [BitVec.clz_eq_reverse_ctz, BitVec.reverse_append, ctz_cast, ctz_append,
    ← BitVec.clz_eq_reverse_ctz, ← BitVec.clz_eq_reverse_ctz]
  simp only [BitVec.reverse_eq_zero_iff]

/-! ### Ones, counted in lanes -/

/-- A byte, so many times in a row. -/
def repeated (byte : Nat) : (times : Nat) → Nat
  | 0 => 0
  | times + 1 => byte + 256 * repeated byte times

/-- The ones of each pair of bits, in a number of so many bytes. -/
def pairs (k v : Nat) : Nat := v - (v >>> 1 &&& repeated 0x55 k)

/-- The sums of neighbouring pairs. -/
def fours (k v : Nat) : Nat := (v &&& repeated 0x33 k) + (v >>> 2 &&& repeated 0x33 k)

/-- The sums of neighbouring fours. -/
def eights (k v : Nat) : Nat := (v + v >>> 4) &&& repeated 0x0f k

/-- The ones of each byte, in a number of so many bytes. -/
def byteCounts (k v : Nat) : Nat := eights k (fours k (pairs k v))

theorem testBit_lane {a : Nat} (ha : a < 256) (b i : Nat) :
    (a + 256 * b).testBit i = if i < 8 then a.testBit i else b.testBit (i - 8) := by
  rw [Nat.add_comm]
  exact Nat.testBit_two_pow_mul_add b (i := 8) ha i

theorem and_lane {a c : Nat} (ha : a < 256) (hc : c < 256) (b d : Nat) :
    (a + 256 * b) &&& (c + 256 * d) = (a &&& c) + 256 * (b &&& d) := by
  apply Nat.eq_of_testBit_eq
  intro i
  have hlow : a &&& c < 256 := Nat.lt_of_le_of_lt Nat.and_le_left ha
  rw [Nat.testBit_and, testBit_lane ha, testBit_lane hc, testBit_lane hlow, Nat.testBit_and,
    Nat.testBit_and]
  split <;> rfl

/-- A shift before a mask moves nothing from one lane to the next if the mask leaves out the bits
that are moved. -/
theorem shiftRight_and_lane {a m s : Nat} (ha : a < 256) (hm : m < 2 ^ (8 - s)) (b d : Nat) :
    (a + 256 * b) >>> s &&& (m + 256 * d) = (a >>> s &&& m) + 256 * (b >>> s &&& d) := by
  have hm' : m < 256 := Nat.lt_of_lt_of_le hm (Nat.pow_le_pow_right (by omega) (Nat.sub_le 8 s))
  have hlow : a >>> s &&& m < 256 := Nat.lt_of_le_of_lt Nat.and_le_right hm'
  apply Nat.eq_of_testBit_eq
  intro i
  rw [Nat.testBit_and, Nat.testBit_shiftRight, testBit_lane ha, testBit_lane hm', testBit_lane hlow,
    Nat.testBit_and, Nat.testBit_and, Nat.testBit_shiftRight, Nat.testBit_shiftRight]
  by_cases hi : i < 8
  · simp only [hi, if_true]
    by_cases hs : s + i < 8
    · rw [if_pos hs]
    · have hout : m.testBit i = false :=
        Nat.testBit_lt_two_pow (Nat.lt_of_lt_of_le hm (Nat.pow_le_pow_right (by omega) (by omega)))
      rw [hout, Bool.and_false, Bool.and_false]
  · rw [if_neg hi, if_neg hi, if_neg (by omega)]
    congr 2
    omega

theorem pairs_lane {a : Nat} (ha : a < 256) (k b : Nat) :
    pairs (k + 1) (a + 256 * b) = pairs 1 a + 256 * pairs k b := by
  have ha' : a >>> 1 &&& 0x55 ≤ a := Nat.le_trans Nat.and_le_left (Nat.shiftRight_le a 1)
  have hb : b >>> 1 &&& repeated 0x55 k ≤ b := Nat.le_trans Nat.and_le_left (Nat.shiftRight_le b 1)
  have hone : pairs 1 a = a - (a >>> 1 &&& 0x55) := rfl
  rw [hone, pairs, repeated, shiftRight_and_lane ha (by decide), pairs]
  omega

theorem fours_lane {a : Nat} (ha : a < 256) (k b : Nat) :
    fours (k + 1) (a + 256 * b) = fours 1 a + 256 * fours k b := by
  have hone : fours 1 a = (a &&& 0x33) + (a >>> 2 &&& 0x33) := rfl
  rw [hone, fours, repeated, and_lane ha (by decide), shiftRight_and_lane ha (by decide), fours]
  omega

/-- No sum is carried out of its lane, since no four bits have more than four ones. -/
theorem eights_lane {a b : Nat} (ha : a ≤ 0x44) (hb : b % 16 ≤ 4) (k : Nat) :
    eights (k + 1) (a + 256 * b) = eights 1 a + 256 * eights k b := by
  have hone : eights 1 a = (a + a >>> 4) &&& 15 := rfl
  have hshift (n : Nat) : n >>> 4 = n / 16 := Nat.shiftRight_eq_div_pow n 4
  have hmask (n : Nat) : n &&& 15 = n % 16 := Nat.and_two_pow_sub_one_eq_mod n 4
  have hsum : a + 256 * b + (a + 256 * b) / 16
      = a + a / 16 + 16 * (b % 16) + 256 * (b + b / 16) := by omega
  have hcarry : (a + a / 16 + 16 * (b % 16)) % 16 = (a + a / 16) % 16 := by omega
  rw [hone, eights, eights, repeated, hshift, hshift, hshift, hsum,
    and_lane (by omega) (by decide), hmask, hmask, hcarry]

/-- What the steps make of a single byte. -/
theorem byte_steps {a : Nat} (ha : a < 256) :
    pairs 1 a < 256 ∧ fours 1 (pairs 1 a) ≤ 0x44 ∧ fours 1 (pairs 1 a) % 16 ≤ 4
      ∧ byteCounts 1 a = (BitVec.ofNat 8 a).cpop.toNat := by
  have hall : ∀ a : Fin 256, pairs 1 a < 256 ∧ fours 1 (pairs 1 a) ≤ 0x44
      ∧ fours 1 (pairs 1 a) % 16 ≤ 4 ∧ byteCounts 1 a = (BitVec.ofNat 8 a).cpop.toNat := by
    decide +kernel
  exact hall ⟨a, ha⟩

theorem fours_pairs_mod {k v : Nat} (hv : v < 256 ^ k) : fours k (pairs k v) % 16 ≤ 4 := by
  cases k with
  | zero => simp [fours, repeated]
  | succ k =>
    have hsplit : v = v % 256 + 256 * (v / 256) := (Nat.mod_add_div v 256).symm
    have hbyte : v % 256 < 256 := Nat.mod_lt v (by decide)
    obtain ⟨hpairs, -, hmod, -⟩ := byte_steps hbyte
    rw [hsplit, pairs_lane hbyte, fours_lane hpairs]
    omega

/-- The steps count the ones of each byte on its own. -/
theorem byteCounts_lane {a k b : Nat} (ha : a < 256) (hb : b < 256 ^ k) :
    byteCounts (k + 1) (a + 256 * b)
      = (BitVec.ofNat 8 a).cpop.toNat + 256 * byteCounts k b := by
  obtain ⟨hpairs, hfours, -, hcount⟩ := byte_steps ha
  rw [← hcount, byteCounts, pairs_lane ha, fours_lane hpairs,
    eights_lane hfours (fours_pairs_mod hb)]
  rfl

/-- The product with a one in each lane adds all lanes up in the highest one. -/
theorem lanes_mul (a b c d : Nat) (ha : a ≤ 8) (hb : b ≤ 8) (hc : c ≤ 8) (hd : d ≤ 8) :
    (d + 256 * (c + 256 * (b + 256 * a))) * 0x01010101 % 2 ^ 32 / 2 ^ 24 = a + b + c + d := by
  have hmul : (d + 256 * (c + 256 * (b + 256 * a))) * 0x01010101
      = d + 256 * (c + d) + 65536 * (b + c + d) + 2 ^ 24 * (a + b + c + d)
        + 2 ^ 32 * (a + b + c + 256 * (a + b) + 65536 * a) := by omega
  rw [hmul, Nat.add_mul_mod_self_left, Nat.mod_eq_of_lt (by omega)]
  omega

/-- The bytes of a 32-bit word. -/
theorem exists_bytes (x : BitVec 32) : ∃ a b c d : BitVec 8, x = a ++ b ++ c ++ d := by
  refine ⟨x.extractLsb' 24 8, x.extractLsb' 16 8, x.extractLsb' 8 8, x.extractLsb' 0 8, ?_⟩
  have hab : x.extractLsb' 24 8 ++ x.extractLsb' 16 8 = x.extractLsb' 16 16 :=
    BitVec.extractLsb'_append_extractLsb'_eq_extractLsb' rfl
  have habc : x.extractLsb' 16 16 ++ x.extractLsb' 8 8 = x.extractLsb' 8 24 :=
    BitVec.extractLsb'_append_extractLsb'_eq_extractLsb' rfl
  have habcd : x.extractLsb' 8 24 ++ x.extractLsb' 0 8 = x.extractLsb' 0 32 :=
    BitVec.extractLsb'_append_extractLsb'_eq_extractLsb' rfl
  rw [hab, habc, habcd]
  exact BitVec.extractLsb'_eq_self.symm

theorem toNat_bytes (a b c d : BitVec 8) : (a ++ b ++ c ++ d).toNat
    = d.toNat + 256 * (c.toNat + 256 * (b.toNat + 256 * (a.toNat + 256 * 0))) := by
  have hb := b.isLt
  have hc := c.isLt
  have hd := d.isLt
  rw [BitVec.toNat_append, BitVec.toNat_append, BitVec.toNat_append,
    ← Nat.shiftLeft_add_eq_or_of_lt hd, ← Nat.shiftLeft_add_eq_or_of_lt hc,
    ← Nat.shiftLeft_add_eq_or_of_lt hb]
  simp only [Nat.shiftLeft_eq]
  omega

/-- The counts of the bytes of a word add up to its own. -/
theorem byteCounts_sum (x : BitVec 32) :
    byteCounts 4 x.toNat * 0x01010101 % 2 ^ 32 / 2 ^ 24 = x.cpop.toNat := by
  obtain ⟨a, b, c, d, rfl⟩ := exists_bytes x
  have hzero : byteCounts 0 0 = 0 := rfl
  have ha := a.isLt
  have hb := b.isLt
  have hc := c.isLt
  rw [toNat_bytes, byteCounts_lane d.isLt (by omega), byteCounts_lane c.isLt (by omega),
    byteCounts_lane b.isLt (by omega), byteCounts_lane a.isLt (by omega), hzero]
  simp only [BitVec.ofNat_toNat, BitVec.setWidth_eq, BitVec.toNat_cpop_append]
  exact lanes_mul _ _ _ _ (BitVec.toNat_cpop_le a) (BitVec.toNat_cpop_le b)
    (BitVec.toNat_cpop_le c) (BitVec.toNat_cpop_le d)

end WasmScript.Bits

namespace WasmScript.Arithmetic

open WasmScript.Bits

/-! ### Counts of 32 bits -/

/-- The only integers whose word is zero that a helper is given are zeros. -/
theorem i32Ctz_eq {n : Int} (h : n = 0 ↔ BitVec.ofInt 32 n = 0#32) :
    i32Ctz n = (BitVec.ofInt 32 n).ctz.toNat := by
  unfold i32Ctz
  by_cases hn : n = 0
  · rw [if_pos hn, h.mp hn, ctz_zero]
    rfl
  · have hx : BitVec.ofInt 32 n ≠ 0#32 := fun hzero => hn (h.mpr hzero)
    have hlt := ctz_toNat_lt hx
    rw [if_neg hn, clz32_eq_toNat, and_eq_toInt, BitVec.ofInt_toInt, BitVec.ofInt_neg,
      and_neg_eq_twoPow hx, clz_twoPow hlt]
    omega

/-- The first step: no pair of bits counts more ones than it is itself. -/
theorem toNat_pairCounts (n : Int) :
    (BitVec.ofInt 32 (pairCounts n)).toNat = pairs 4 (BitVec.ofInt 32 n).toNat := by
  rw [pairCounts, ofInt_sub, ofInt_and, ofInt_ushr32]
  generalize BitVec.ofInt 32 n = x
  have hle : x >>> 1 &&& 0x55555555#32 ≤ x := by
    rw [BitVec.le_def, BitVec.toNat_and, BitVec.toNat_ushiftRight]
    exact Nat.le_trans Nat.and_le_left (Nat.shiftRight_le _ 1)
  exact BitVec.toNat_sub_of_le hle

/-- The second step: the sums fit into the word. -/
theorem toNat_fourCounts (n : Int) :
    (BitVec.ofInt 32 (Bits.and 32 n 0x33333333 + Bits.and 32 (ushr32 n 2) 0x33333333)).toNat
      = fours 4 (BitVec.ofInt 32 n).toNat := by
  rw [BitVec.ofInt_add, ofInt_and, ofInt_and, ofInt_ushr32]
  generalize BitVec.ofInt 32 n = x
  have hlow : (x &&& BitVec.ofInt 32 0x33333333).toNat ≤ 0x33333333 := Nat.and_le_right
  have hhigh : (x >>> 2 &&& BitVec.ofInt 32 0x33333333).toNat ≤ 0x33333333 := Nat.and_le_right
  exact BitVec.toNat_add_of_lt (by omega)

theorem fours_le (v : Nat) : fours 4 v ≤ 0x66666666 :=
  Nat.add_le_add Nat.and_le_right Nat.and_le_right

/-- The third step, on sums of four bits. -/
theorem toNat_eightCounts {n : Int} (hn : (BitVec.ofInt 32 n).toNat ≤ 0x66666666) :
    (BitVec.ofInt 32 (Bits.and 32 (n + ushr32 n 4) 0x0f0f0f0f)).toNat
      = eights 4 (BitVec.ofInt 32 n).toNat := by
  rw [ofInt_and, BitVec.ofInt_add, ofInt_ushr32]
  generalize BitVec.ofInt 32 n = x at hn
  have hhigh : (x >>> 4).toNat ≤ x.toNat := Nat.shiftRight_le x.toNat 4
  rw [BitVec.toNat_and, BitVec.toNat_add_of_lt (by omega)]
  rfl

/-- The ones of the word of any integer. -/
theorem i32Popcnt_eq (n : Int) : i32Popcnt n = (BitVec.ofInt 32 n).cpop.toNat := by
  have hpairs := toNat_pairCounts n
  rw [i32Popcnt, sumOfPairs]
  generalize pairCounts n = p at hpairs ⊢
  have hfours := toNat_fourCounts p
  generalize Bits.and 32 p 0x33333333 + Bits.and 32 (ushr32 p 2) 0x33333333 = f at hfours ⊢
  have height := toNat_eightCounts (hfours ▸ fours_le _)
  generalize Bits.and 32 (f + ushr32 f 4) 0x0f0f0f0f = e at height ⊢
  have hsum : (BitVec.ofInt 32 e).toNat = byteCounts 4 (BitVec.ofInt 32 n).toNat := by
    rw [height, hfours, hpairs]
    rfl
  rw [ushr32_eq_toNat, ofInt_imul, BitVec.toNat_ushiftRight, BitVec.toNat_mul, hsum,
    Nat.shiftRight_eq_div_pow, ← byteCounts_sum]
  rfl

/-! ### Counts of 64 bits -/

/-- The word of the upper half. -/
theorem ofInt_high32 (n : Int) :
    BitVec.ofInt 32 (high32 n) = (BitVec.ofInt 64 n).extractLsb' 32 32 := by
  rw [high32, unsigned_eq_toNat]
  rfl

/-- The word of the lower half. -/
theorem ofInt_low32 (n : Int) :
    BitVec.ofInt 32 (low32 n) = (BitVec.ofInt 64 n).extractLsb' 0 32 := by
  rw [low32, unsigned_eq_toNat, ofInt_natCast_toNat, ← setWidth_ofInt (by decide : 32 ≤ 64)]
  rfl

/-- A 64-bit word is its two halves in a row. -/
theorem ofInt_halves (n : Int) :
    BitVec.ofInt 64 n = BitVec.ofInt 32 (high32 n) ++ BitVec.ofInt 32 (low32 n) := by
  have hjoin : (BitVec.ofInt 64 n).extractLsb' 32 32 ++ (BitVec.ofInt 64 n).extractLsb' 0 32
      = (BitVec.ofInt 64 n).extractLsb' 0 64 :=
    BitVec.extractLsb'_append_extractLsb'_eq_extractLsb' rfl
  rw [ofInt_high32, ofInt_low32, hjoin]
  exact BitVec.extractLsb'_eq_self.symm

/-- An unsigned 32-bit number is zero if its word is. -/
theorem natCast_eq_zero_iff {v : Nat} (hv : v < 2 ^ 32) :
    (v : Int) = 0 ↔ BitVec.ofInt 32 v = 0#32 := by
  rw [← BitVec.toNat_inj, BitVec.ofInt_natCast, BitVec.toNat_ofNat, Nat.mod_eq_of_lt hv]
  exact Int.natCast_eq_zero

theorem high32_eq_zero_iff (n : Int) : high32 n = 0 ↔ BitVec.ofInt 32 (high32 n) = 0#32 := by
  apply natCast_eq_zero_iff
  have hlt : unsigned 64 n < 2 ^ 64 := unsigned_eq_toNat 64 n ▸ BitVec.isLt _
  rw [Nat.shiftRight_eq_div_pow]
  omega

theorem low32_eq_zero_iff (n : Int) : low32 n = 0 ↔ BitVec.ofInt 32 (low32 n) = 0#32 := by
  apply natCast_eq_zero_iff
  exact unsigned_eq_toNat 32 n ▸ BitVec.isLt _

theorem i64Clz_eq (n : Int) : i64Clz n = (BitVec.ofInt 64 n).clz.toNat := by
  rw [ofInt_halves, clz_append, i64Clz, clz32_eq_toNat, clz32_eq_toNat]
  by_cases h : high32 n = 0
  · rw [if_neg (not_not_intro h), if_pos ((high32_eq_zero_iff n).mp h)]
    rfl
  · rw [if_pos h, if_neg fun hzero => h ((high32_eq_zero_iff n).mpr hzero)]

theorem i64Ctz_eq (n : Int) : i64Ctz n = (BitVec.ofInt 64 n).ctz.toNat := by
  rw [ofInt_halves, ctz_append, i64Ctz, i32Ctz_eq (high32_eq_zero_iff n),
    i32Ctz_eq (low32_eq_zero_iff n)]
  by_cases h : low32 n = 0
  · rw [if_neg (not_not_intro h), if_pos ((low32_eq_zero_iff n).mp h)]
    rfl
  · rw [if_pos h, if_neg fun hzero => h ((low32_eq_zero_iff n).mpr hzero)]

theorem i64Popcnt_eq (n : Int) : i64Popcnt n = (BitVec.ofInt 64 n).cpop.toNat := by
  rw [ofInt_halves, BitVec.toNat_cpop_append, i64Popcnt, i32Popcnt_eq, i32Popcnt_eq, Int.add_comm]
  rfl

end WasmScript.Arithmetic
