/-
  WasmScript/Proofs/Text/Hex.lean
  ===============================
  **Hexadecimal text tells bytes apart** — what is written for bytes is read back as them.

  Each digit stands for its number, so a byte is had from its two digits and bytes from
  theirs.  Reading takes just the texts of digit pairs, whatever their case, and writing gives
  such a text back in lower case (`toBytes?_eq_some_iff`).  Blanks between the bytes lose nothing
  either, because they are no digits.
-/
import WasmScript.Text.Hex
import Mathlib.Data.List.Basic
import Mathlib.Tactic.IntervalCases

namespace WasmScript.Hex

/-! ### Digits -/

/-- A digit stands for its number. -/
theorem digitValue?_digit {n : Nat} (h : n < 16) : digitValue? (digit n) = some n := by
  interval_cases n <;> rfl

theorem digit_eq_digitChar {n : Nat} (h : n < 16) : digit n = n.digitChar := by
  interval_cases n <;> rfl

/-- A digit is no blank. -/
theorem digit_ne_blank {n : Nat} (h : n < 16) : digit n ≠ ' ' := by
  intro hblank
  have hdigit := digitValue?_digit h
  rw [hblank] at hdigit
  cases hdigit

def digits : List Char := "0123456789abcdefABCDEF".toList

/-- What has a number is a digit, and in lower case the one that is written for it. -/
theorem of_digitValue? {c : Char} {n : Nat} (h : digitValue? c = some n) :
    n < 16 ∧ c.toLower = digit n ∧ c ∈ digits := by
  have hrange : (48 ≤ c.toNat ∧ c.toNat ≤ 57) ∨ (97 ≤ c.toNat ∧ c.toNat ≤ 102) ∨
      (65 ≤ c.toNat ∧ c.toNat ≤ 70) := by
    unfold digitValue? at h
    split at h
    · next hnumeral => exact .inl hnumeral
    · split at h
      · next hlower => exact .inr (.inl hlower)
      · split at h
        · next hupper => exact .inr (.inr hupper)
        · cases h
  have hself : c = Char.ofNat c.toNat := (Char.ofNat_toNat c).symm
  generalize c.toNat = k at hrange hself
  subst hself
  rcases hrange with ⟨hlow, hhigh⟩ | ⟨hlow, hhigh⟩ | ⟨hlow, hhigh⟩
  all_goals
    interval_cases k
    all_goals
      cases h
      decide

theorem isSome_digitValue? : ∀ c ∈ digits, (digitValue? c).isSome := by
  rw [← List.all_eq_true]
  decide

/-! ### Pairs of digits -/

/-- A byte is had from its halves. -/
theorem ofNat_halves (b : UInt8) : UInt8.ofNat (16 * (b.toNat / 16) + b.toNat % 16) = b := by
  rw [Nat.div_add_mod, UInt8.ofNat_toNat]

theorem high_lt (b : UInt8) : b.toNat / 16 < 16 := Nat.div_lt_of_lt_mul b.toNat_lt

theorem low_lt (b : UInt8) : b.toNat % 16 < 16 := Nat.mod_lt _ (by decide)

/-- The zero that a small number is written after is the digit of its upper half. -/
theorem ofByte_eq (b : UInt8) : ofByte b = [digit (b.toNat / 16), digit (b.toNat % 16)] := by
  rw [ofByte, digit_eq_digitChar (high_lt b), digit_eq_digitChar (low_lt b)]
  rcases Nat.lt_or_ge b.toNat 16 with hsmall | hlarge
  · rw [Nat.toDigits_of_lt_base hsmall, Nat.div_eq_of_lt hsmall, Nat.mod_eq_of_lt hsmall]
    rfl
  · rw [Nat.toDigits_of_base_le (by decide) hlarge, Nat.toDigits_of_lt_base (high_lt b)]
    rfl

theorem charsOfBytes_cons (b : UInt8) (bytes : List UInt8) :
    charsOfBytes (b :: bytes) =
      digit (b.toNat / 16) :: digit (b.toNat % 16) :: charsOfBytes bytes := by
  rw [charsOfBytes, List.flatMap_cons, ofByte_eq]
  rfl

theorem valueOf_digit {n : Nat} (h : n < 16) : valueOf (digit n) = n := by
  rw [valueOf, digitValue?_digit h]
  rfl

/-- What is written for bytes stands for them. -/
theorem bytesOfPairs_charsOfBytes (bytes : List UInt8) :
    bytesOfPairs (charsOfBytes bytes) = bytes := by
  induction bytes with
  | nil => rfl
  | cons b bytes ih =>
    rw [charsOfBytes_cons, bytesOfPairs, valueOf_digit (high_lt b), valueOf_digit (low_lt b),
      ofNat_halves, ih]

theorem arePairs_iff {cs : List Char} :
    arePairs cs = true ↔ cs.length % 2 = 0 ∧ ∀ c ∈ cs, c ∈ digits := by
  rw [arePairs, Bool.and_eq_true, beq_iff_eq, List.all_eq_true]
  refine and_congr_right fun _ => forall₂_congr fun c _ => ⟨fun hsome => ?_, isSome_digitValue? c⟩
  obtain ⟨n, hn⟩ := Option.isSome_iff_exists.mp hsome
  exact (of_digitValue? hn).2.2

theorem arePairs_charsOfBytes (bytes : List UInt8) : arePairs (charsOfBytes bytes) = true := by
  have hdigit {n : Nat} (h : n < 16) : digit n ∈ digits :=
    (of_digitValue? (digitValue?_digit h)).2.2
  rw [arePairs_iff]
  induction bytes with
  | nil => exact ⟨rfl, nofun⟩
  | cons b bytes ih =>
    obtain ⟨heven, hall⟩ := ih
    rw [charsOfBytes_cons]
    constructor
    · rw [List.length_cons, List.length_cons]
      omega
    · exact List.forall_mem_cons.mpr
        ⟨hdigit (high_lt b), List.forall_mem_cons.mpr ⟨hdigit (low_lt b), hall⟩⟩

/-- Pairs of digits are written back in lower case. -/
theorem charsOfBytes_bytesOfPairs (cs : List Char) (h : arePairs cs = true) :
    charsOfBytes (bytesOfPairs cs) = cs.map Char.toLower := by
  rw [arePairs_iff] at h
  obtain ⟨heven, hall⟩ := h
  -- The induction takes two digits at a time, which make one byte.
  fun_induction bytesOfPairs cs with
  | case1 high low rest ih =>
    obtain ⟨hhigh, hall⟩ := List.forall_mem_cons.mp hall
    obtain ⟨hlow, hall⟩ := List.forall_mem_cons.mp hall
    obtain ⟨h, hh⟩ := Option.isSome_iff_exists.mp (isSome_digitValue? high hhigh)
    obtain ⟨l, hl⟩ := Option.isSome_iff_exists.mp (isSome_digitValue? low hlow)
    obtain ⟨hh16, hhlower, -⟩ := of_digitValue? hh
    obtain ⟨hl16, hllower, -⟩ := of_digitValue? hl
    have hbyte : (UInt8.ofNat (16 * valueOf high + valueOf low)).toNat = 16 * h + l := by
      rw [valueOf, valueOf, hh, hl, Option.getD_some, Option.getD_some, UInt8.toNat_ofNat']
      omega
    have hupper : (16 * h + l) / 16 = h := by omega
    have hrest : (16 * h + l) % 16 = l := by omega
    rw [charsOfBytes_cons, hbyte, hupper, hrest, List.map_cons, List.map_cons, hhlower, hllower, ih]
    · rw [List.length_cons, List.length_cons] at heven
      omega
    · exact hall
  | case2 cs hshort =>
    match cs with
    | [] => rfl
    | [c] => cases heven
    | high :: low :: rest => exact absurd rfl (hshort high low rest)

/-! ### Texts -/

theorem toBytes?_ofBytes (bytes : List UInt8) : toBytes? (ofBytes bytes) = some bytes := by
  rw [toBytes?, ofBytes, String.toList_ofList, if_pos (arePairs_charsOfBytes bytes),
    bytesOfPairs_charsOfBytes]

theorem isSome_toBytes?_iff {text : String} :
    (toBytes? text).isSome ↔ text.length % 2 = 0 ∧ ∀ c ∈ text.toList, c ∈ digits := by
  rw [← String.length_toList, ← arePairs_iff, toBytes?]
  split
  · next h => exact iff_of_true rfl h
  · next h => exact iff_of_false Bool.false_ne_true h

/-- A text that is read is written in lower case for what was read. -/
theorem ofBytes_of_toBytes? {text : String} {bytes : List UInt8} (h : toBytes? text = some bytes) :
    ofBytes bytes = text.toLower := by
  rw [toBytes?] at h
  split at h
  · next hpairs =>
    cases h
    change _ = text.map Char.toLower
    rw [ofBytes, charsOfBytes_bytesOfPairs _ hpairs, String.map_eq_internal]
  · cases h

/-! ### Blanks between bytes -/

def unspaced (text : String) : List Char := text.toList.filter (· ≠ ' ')

/-- The digits of a byte are no blanks. -/
theorem filter_ofByte (b : UInt8) : (ofByte b).filter (· ≠ ' ') = ofByte b := by
  rw [List.filter_eq_self]
  intro c hc
  rw [ofByte_eq] at hc
  rcases List.mem_pair.mp hc with rfl | rfl
  · exact decide_eq_true (digit_ne_blank (high_lt b))
  · exact decide_eq_true (digit_ne_blank (low_lt b))

/-- Without its blanks a text of spaced bytes is that of the bytes. -/
theorem unspaced_ofBytesSpaced (bytes : List UInt8) :
    unspaced (ofBytesSpaced bytes) = charsOfBytes bytes := by
  have hparts : (ofBytesSpaced bytes).toList = " ".toList.intercalate (bytes.map ofByte) := by
    rw [ofBytesSpaced, String.toList_intercalate, List.map_map]
    refine congrArg _ (List.map_congr_left fun b _ => ?_)
    exact String.toList_ofList
  rw [unspaced, hparts]
  clear hparts
  induction bytes with
  | nil => rfl
  | cons b bytes ih =>
    cases bytes with
    | nil =>
      change ([ofByte b].flatten).filter _ = [ofByte b].flatten
      rw [List.flatten_singleton, filter_ofByte]
    | cons c bytes =>
      have hblank : " ".toList.filter (· ≠ ' ') = [] := by decide
      rw [List.map_cons, List.map_cons, List.intercalate_cons_cons, List.filter_append,
        List.filter_append, filter_ofByte, ← List.map_cons, ih, hblank, List.append_nil]
      exact List.flatMap_cons.symm

/-- Spaced texts of bytes are one just if the bytes are. -/
theorem ofBytesSpaced_inj {a b : List UInt8} : ofBytesSpaced a = ofBytesSpaced b ↔ a = b := by
  constructor
  · intro h
    have hchars := congrArg (fun text => bytesOfPairs (unspaced text)) h
    simpa only [unspaced_ofBytesSpaced, bytesOfPairs_charsOfBytes] using hchars
  · exact congrArg _

end WasmScript.Hex
