/-
  WasmScript/Text/Units/Lemmas.lean
  =================================
  **Laws of units** — that no text is lost on the way in, and that none is missing.

  `Units.written_carried` says that a text of characters alone comes out as it was taken
  in, and `Units.ofUTF8?_toUTF8` that such a text is found again in its bytes.
  `Units.ofString_toText` says that every list of sixteen-bit units is the view of a text,
  with a surrogate alone in it or not.
-/
import WasmScript.Text.Units

namespace WasmScript.Units

/-! ### Single codes -/

theorem toNat_alone {u : Nat} (h : u < 0x10000) : (alone u).toNat = 0x100000 + u := by
  have valid : (0x100000 + u).isValidChar := Or.inr ⟨by omega, by omega⟩
  rw [alone, Char.ofNat, dif_pos valid]
  rfl

/-- A surrogate is found again in the character that stands for it. -/
theorem surrogate?_alone {u : Nat} (low : 0xD800 ≤ u) (high : u < 0xE000) :
    surrogate? (alone u) = some u := by
  have h := toNat_alone (u := u) (by omega)
  have r : isReserved (0x100000 + u) = true := by
    simp only [isReserved, Bool.and_eq_true, decide_eq_true_eq]
    omega
  rw [surrogate?, h, if_pos r, Nat.add_sub_cancel_left]

/-- The pair that writes a code gives the code back. -/
theorem paired_split {n : Nat} (low : 0x10000 ≤ n) :
    paired (0xD800 + (n - 0x10000) / 0x400) (0xDC00 + (n - 0x10000) % 0x400) = n := by
  unfold paired
  omega

/-! ### Texts of characters alone -/

theorem scalars_cons {c : Char} (h : surrogate? c = none) (s : List Char) :
    scalars (c :: s) = c :: scalars s := by
  cases s with
  | nil => simp [scalars, h]
  | cons d s => simp [scalars, pair?, h]

theorem scalars_pair {high low : Nat} (h : isHighSurrogate high = true)
    (l : isLowSurrogate low = true) (s : List Char) :
    scalars (alone high :: alone low :: s) = Char.ofNat (paired high low) :: scalars s := by
  have hb : 0xD800 ≤ high ∧ high < 0xDC00 := by simpa [isHighSurrogate] using h
  have lb : 0xDC00 ≤ low ∧ low < 0xE000 := by simpa [isLowSurrogate] using l
  have found : pair? (alone high) (alone low) = some (paired high low) := by
    rw [pair?, surrogate?_alone (by omega) (by omega), surrogate?_alone (by omega) (by omega)]
    simp [h, l]
  rw [scalars, found]

theorem scalars_carry_append (c : Char) (s : List Char) :
    scalars (carry c.toNat ++ s) = c :: scalars s := by
  by_cases r : isReserved c.toNat = true
  · have bound : 0x10D800 ≤ c.toNat ∧ c.toNat < 0x10E000 := by simpa [isReserved] using r
    have high : isHighSurrogate (0xD800 + (c.toNat - 0x10000) / 0x400) = true := by
      simp only [isHighSurrogate, Bool.and_eq_true, decide_eq_true_eq]
      omega
    have low : isLowSurrogate (0xDC00 + (c.toNat - 0x10000) % 0x400) = true := by
      simp only [isLowSurrogate, Bool.and_eq_true, decide_eq_true_eq]
      omega
    rw [carry, if_pos r, split]
    exact (scalars_pair high low s).trans (by rw [paired_split (by omega), Char.ofNat_toNat])
  · have plain : surrogate? c = none := by rw [surrogate?, if_neg r]
    rw [carry, if_neg r, Char.ofNat_toNat]
    exact scalars_cons plain s

theorem scalars_flatMap_carry (s : List Char) :
    scalars (s.flatMap fun c => carry c.toNat) = s := by
  induction s with
  | nil => rfl
  | cons c s ih => rw [List.flatMap_cons, scalars_carry_append, ih]

/-- Taking a text in and giving it out loses nothing. -/
theorem written_carried (s : String) : written (carried s) = s := by
  rw [written, carried, String.toList_ofList, scalars_flatMap_carry, String.ofList_toList]

/-! ### Texts in UTF-8 -/

theorem fromUTF8?_toUTF8 (s : String) : String.fromUTF8? s.toUTF8 = some s := by
  exact dif_pos s.isValidUTF8

/-- A text in which no surrogate stands alone is found again in its bytes. -/
theorem ofUTF8?_toUTF8 {s : String} (h : settled s = s) : ofUTF8? (toUTF8 s) = some s := by
  rw [ofUTF8?, toUTF8, fromUTF8?_toUTF8]
  exact congrArg some h

/-- The character that bytes start with. -/
theorem toList_cons_of_toUTF8 {s : String} {c : Char} {bytes : ByteArray}
    (h : s.toUTF8 = [c].utf8Encode ++ bytes) : ∃ cs, s.toList = c :: cs := by
  have hfound : s.toUTF8.utf8DecodeChar? 0 = some c := by
    rw [h, List.utf8DecodeChar?_utf8Encode_singleton_append]
  have hbytes : s.toUTF8 = s.toList.utf8Encode := String.utf8Encode_toList.symm
  cases hs : s.toList with
  | nil =>
    rw [hbytes, hs] at hfound
    cases hfound
  | cons d cs =>
    rw [hbytes, hs, List.utf8DecodeChar?_utf8Encode_cons] at hfound
    obtain rfl := Option.some.inj hfound
    exact ⟨cs, rfl⟩

/-! ### Texts of units -/

theorem toNat_ofNat {n : Nat} (h : n < 0xD800 ∨ 0xE000 ≤ n ∧ n < 0x110000) :
    (Char.ofNat n).toNat = n := by
  have valid : n.isValidChar := h.imp id fun h => ⟨by omega, h.2⟩
  rw [Char.ofNat, dif_pos valid]
  rfl

theorem ofChar_alone {u : Nat} (low : 0xD800 ≤ u) (high : u < 0xE000) :
    ofChar (alone u) = [u] := by
  have h := toNat_alone (u := u) (by omega)
  simp only [ofChar, h, surrogate?_alone low high]
  rw [if_neg (by omega)]

theorem ofChar_single {u : Nat} (h : u < 0x10000) : ofChar (single u) = [u] := by
  by_cases s : (isHighSurrogate u || isLowSurrogate u) = true
  · have bound : 0xD800 ≤ u ∧ u < 0xE000 := by
      simp only [isHighSurrogate, isLowSurrogate, Bool.or_eq_true, Bool.and_eq_true,
        decide_eq_true_eq] at s
      omega
    rw [single, if_pos s, ofChar_alone bound.1 bound.2]
  · have plain : u < 0xD800 ∨ 0xE000 ≤ u ∧ u < 0x110000 := by
      simp only [isHighSurrogate, isLowSurrogate, Bool.or_eq_true, Bool.and_eq_true,
        decide_eq_true_eq] at s
      omega
    rw [single, if_neg s]
    simp only [ofChar, toNat_ofNat plain]
    rw [if_pos h]

theorem split_paired {high low : Nat} (h : isHighSurrogate high = true)
    (l : isLowSurrogate low = true) : split (paired high low) = [high, low] := by
  have hb : 0xD800 ≤ high ∧ high < 0xDC00 := by simpa [isHighSurrogate] using h
  have lb : 0xDC00 ≤ low ∧ low < 0xE000 := by simpa [isLowSurrogate] using l
  have first : 0xD800 + (paired high low - 0x10000) / 0x400 = high := by
    unfold paired
    omega
  have second : 0xDC00 + (paired high low - 0x10000) % 0x400 = low := by
    unfold paired
    omega
  rw [split, first, second]

theorem flatMap_ofChar_carry {high low : Nat} (h : isHighSurrogate high = true)
    (l : isLowSurrogate low = true) :
    (carry (paired high low)).flatMap ofChar = [high, low] := by
  have hb : 0xD800 ≤ high ∧ high < 0xDC00 := by simpa [isHighSurrogate] using h
  have lb : 0xDC00 ≤ low ∧ low < 0xE000 := by simpa [isLowSurrogate] using l
  by_cases r : isReserved (paired high low) = true
  · rw [carry, if_pos r, split_paired h l]
    simp only [List.map_cons, List.map_nil, List.flatMap_cons, List.flatMap_nil,
      ofChar_alone (u := high) (by omega) (by omega), ofChar_alone (u := low) (by omega) (by omega)]
    rfl
  · have code : (Char.ofNat (paired high low)).toNat = paired high low :=
      toNat_ofNat (Or.inr (by unfold paired; omega))
    have plain : surrogate? (Char.ofNat (paired high low)) = none := by
      rw [surrogate?, code, if_neg r]
    have above : ¬ paired high low < 0x10000 := by unfold paired; omega
    rw [carry, if_neg r]
    simp only [List.flatMap_cons, List.flatMap_nil, List.append_nil, ofChar, code, plain]
    rw [if_neg above, split_paired h l]

theorem flatMap_ofChar_toChars (units : List Nat) (h : ∀ u ∈ units, u < 0x10000) :
    (toChars units).flatMap ofChar = units := by
  fun_induction toChars units with
  | case1 => rfl
  | case2 u => simp [ofChar_single (h u (by simp))]
  | case3 u v rest p ih =>
    have halves : isHighSurrogate u = true ∧ isLowSurrogate v = true := by simpa using p
    rw [List.flatMap_append, flatMap_ofChar_carry halves.1 halves.2,
      ih fun w m => h w (by simp [m])]
    rfl
  | case4 u v rest p ih =>
    rw [List.flatMap_cons, ofChar_single (h u (by simp)),
      ih fun w m => h w (List.mem_cons_of_mem u m)]
    rfl

theorem ofString_append (s t : String) : ofString (s ++ t) = ofString s ++ ofString t := by
  simp [ofString]

/-- Every list of units is the view of a text. -/
theorem ofString_toText (units : List Nat) (h : ∀ u ∈ units, u < 0x10000) :
    ofString (toText units) = units := by
  rw [ofString, toText, String.toList_ofList, flatMap_ofChar_toChars units h]

end WasmScript.Units
