/-
  WasmScript/Proofs/Text/Literals.lean
  ====================================
  **Reading string literals** — what a reader of a script finds where a text was quoted.

  `Lexer.tokens` goes through the units of a script, tells code, line comments and string
  literals apart and gives the values of the literals.  It knows nothing about how texts are
  quoted.  A quoted text reads back as that one literal whatever comes after it
  (`tokens_quoted`), no quote inside it is free of a backslash that escapes it
  (`guarded_escapeUnits`), and no unit of it ends a line (`endsLine_encodeUnits`).

  Escapes are read unit by unit, so the proofs go along the units of a text;
  `ofString_encode` carries them over to texts of characters.
-/
import WasmScript.Text.Quoted
import WasmScript.Text.Units.Lemmas
import Mathlib.Algebra.Ring.Parity
import Mathlib.Data.List.DropRight

namespace WasmScript

/-! ### A reader of scripts -/

namespace Lexer

abbrev quote : Nat := 0x22

abbrev backslash : Nat := 0x5c

abbrev slash : Nat := 0x2f

/-- The units that end a line of a script, and with it a line comment. -/
def endsLine (u : Nat) : Bool := u == 0x0a || u == 0x0d || u == 0x2028 || u == 0x2029

/-- Where a reader stands. -/
inductive Mode where
  | code
  /-- After a slash in code. -/
  | slash
  | comment
  /-- Inside a literal. -/
  | literal
  /-- After a backslash in a literal. -/
  | escape
  /-- Before so many of the digits of an escape, of which those before have a value. -/
  | digits (left value : Nat)
deriving DecidableEq, Repr

/-- What a character after a backslash stands for. -/
def unescape? (u : Nat) : Option Nat :=
  [(0x22, 0x22), (0x27, 0x27), (0x5c, 0x5c), (0x62, 0x08), (0x66, 0x0c), (0x6e, 0x0a), (0x72, 0x0d),
    (0x74, 0x09), (0x76, 0x0b)].lookup u

/-- A piece of a script that is no comment. -/
inductive Token where
  /-- A unit of code. -/
  | unit (u : Nat)
  /-- A string literal, by its value. -/
  | literal (text : List Nat)
deriving DecidableEq, Repr

namespace Token

def literal? : Token → Option (List Nat)
  | .unit _ => none
  | .literal text => some text

/-- Puts a unit in front of the literal that comes first. -/
def prepend (u : Nat) : List Token → List Token
  | .literal text :: rest => .literal (u :: text) :: rest
  | rest => rest

def literals (ts : List Token) : List (List Nat) := ts.filterMap literal?

end Token

/-- The tokens of what is left of a script, the first one from where the reader stands; nothing if
some literal does not end or is none. -/
def tokens : Mode → List Nat → Option (List Token)
  | .code, [] | .comment, [] => some []
  | .slash, [] => some [.unit slash]
  | .literal, [] | .escape, [] | .digits .., [] => none
  | .code, u :: rest =>
    if u = quote then tokens .literal rest
    else if u = slash then tokens .slash rest
    else (.unit u :: ·) <$> tokens .code rest
  | .slash, u :: rest =>
    if u = quote then (.unit slash :: ·) <$> tokens .literal rest
    else if u = slash then tokens .comment rest
    else (.unit slash :: .unit u :: ·) <$> tokens .code rest
  | .comment, u :: rest =>
    if endsLine u then (.unit u :: ·) <$> tokens .code rest else tokens .comment rest
  | .literal, u :: rest =>
    if u = quote then (.literal [] :: ·) <$> tokens .code rest
    else if u = backslash then tokens .escape rest
    else if u = 0x0a ∨ u = 0x0d then none
    else Token.prepend u <$> tokens .literal rest
  | .escape, u :: rest =>
    if u = 0x75 then tokens (.digits 4 0) rest
    else (unescape? u).bind fun v => Token.prepend v <$> tokens .literal rest
  | .digits left value, u :: rest =>
    (Hex.digitValue? (Char.ofNat u)).bind fun d =>
      if left = 1 then Token.prepend (16 * value + d) <$> tokens .literal rest
      else tokens (.digits (left - 1) (16 * value + d)) rest

/-- The values of the string literals in what is left of a script. -/
def scan (mode : Mode) (units : List Nat) :
    Option (List (List Nat)) := Token.literals <$> tokens mode units

/-- How many backslashes a text ends with. -/
def backslashes (s : List Nat) : Nat := (s.rtakeWhile (· == backslash)).length

/-- A text in which an odd number of backslashes stands before each quote. -/
def Guarded (s : List Nat) : Prop :=
  ∀ before after, s = before ++ quote :: after → Odd (backslashes before)

end Lexer

namespace Quoted

open WasmScript.Lexer WasmScript.Units

/-! ### Reading one unit back -/

theorem digitValue?_digit {d : Nat} (h : d < 16) :
    Hex.digitValue? (Char.ofNat (Hex.digit d).toNat) = some d := by
  have all : ∀ i : Fin 16, Hex.digitValue? (Char.ofNat (Hex.digit i).toNat) = some i.val := by
    decide
  exact all ⟨d, h⟩

theorem tokens_escapeUnit {n : Nat} (h : n < 0x10000) (rest : List Nat) :
    tokens .literal ((escapeUnit n).map Char.toNat ++ rest) =
      Token.prepend n <$> tokens .literal rest := by
  have step (left value d : Nat) (hd : d < 16) (rest : List Nat) :
      tokens (.digits left value) ((Hex.digit d).toNat :: rest)
        = if left = 1 then Token.prepend (16 * value + d) <$> tokens .literal rest
          else tokens (.digits (left - 1) (16 * value + d)) rest := by
    rw [tokens, digitValue?_digit hd]
    rfl
  have value : 16 * (16 * (16 * (16 * 0 + n / 4096 % 16) + n / 256 % 16) + n / 16 % 16) +
      n % 16 = n := by
    omega
  have first (rest : List Nat) :
      tokens .literal (0x5c :: 0x75 :: rest) = tokens (.digits 4 0) rest := by
    simp [tokens]
  have spelled :
      (escapeUnit n).map Char.toNat ++ rest = 0x5c :: 0x75 :: (Hex.digit (n / 4096 % 16)).toNat
      :: (Hex.digit (n / 256 % 16)).toNat :: (Hex.digit (n / 16 % 16)).toNat
      :: (Hex.digit (n % 16)).toNat :: rest := rfl
  rw [spelled, first, step _ _ _ (by omega), if_neg (by decide), step _ _ _ (by omega),
    if_neg (by decide), step _ _ _ (by omega), if_neg (by decide), step _ _ _ (by omega),
    if_pos (by decide), value]

theorem tokens_plain {u : Nat} (hquote : u ≠ quote) (hback : u ≠ backslash)
    (hline : endsLine u = false) (rest : List Nat) :
    tokens .literal (u :: rest) = Token.prepend u <$> tokens .literal rest := by
  simp only [endsLine, Bool.or_eq_false_iff, beq_eq_false_iff_ne] at hline
  rw [tokens, if_neg hquote, if_neg hback, if_neg (by omega)]

/-- The ways in which a unit that is not half of a pair is written. -/
theorem escapeLoneUnit_cases {u : Nat} (h : u < 0x10000) :
    (∃ c, escapeLoneUnit u = [backslash, c] ∧ unescape? c = some u ∧ c ≠ 0x75
        ∧ endsLine c = false) ∨
      escapeLoneUnit u = (escapeUnit u).map Char.toNat ∨
      (escapeLoneUnit u = [u] ∧ u ≠ quote ∧ u ≠ backslash ∧ endsLine u = false) := by
  by_cases hpair : (isHighSurrogate u || isLowSurrogate u) = true
  · right; left
    rw [escapeLoneUnit, if_pos hpair]
  -- A unit that is no half of a pair is a character.
  · have hplain : u < 0xD800 ∨ 0xE000 ≤ u ∧ u < 0x110000 := by
      simp only [isHighSurrogate, isLowSurrogate, Bool.or_eq_true, Bool.and_eq_true,
        decide_eq_true_eq] at hpair
      omega
    have hnat : (Char.ofNat u).toNat = u := toNat_ofNat hplain
    have hchar (c : Char) : Char.ofNat u = c ↔ u = c.toNat := by
      constructor
      · intro e
        rw [← hnat, e]
      · intro e
        rw [e, Char.ofNat_toNat]
    have hlone : surrogate? (Char.ofNat u) = none := by
      rw [surrogate?, hnat, if_neg]
      simp only [isReserved, Bool.and_eq_true, decide_eq_true_eq]
      omega
    rw [escapeLoneUnit, if_neg hpair, escapeChar, hnat]
    by_cases hline : u = 0x2028 ∨ u = 0x2029
    · right; left
      rw [if_pos hline]
    rw [if_neg hline, escapeJsonChar, hnat, hlone]
    simp only [hchar]
    split
    · next e => subst e; left; exact ⟨0x22, rfl, rfl, by decide, rfl⟩
    split
    · next e => subst e; left; exact ⟨0x5c, rfl, rfl, by decide, rfl⟩
    split
    · next e => subst e; left; exact ⟨0x62, rfl, rfl, by decide, rfl⟩
    split
    · next e => subst e; left; exact ⟨0x74, rfl, rfl, by decide, rfl⟩
    split
    · next e => subst e; left; exact ⟨0x6e, rfl, rfl, by decide, rfl⟩
    split
    · next e => subst e; left; exact ⟨0x66, rfl, rfl, by decide, rfl⟩
    split
    · next e => subst e; left; exact ⟨0x72, rfl, rfl, by decide, rfl⟩
    split
    · right; left; rfl
    · next h22 h5c _ _ h0a _ h0d _ =>
      right; right
      refine ⟨by simp [hnat], h22, h5c, ?_⟩
      have h0a : u ≠ 0x0a := h0a
      have h0d : u ≠ 0x0d := h0d
      simp only [endsLine, Bool.or_eq_false_iff, beq_eq_false_iff_ne]
      omega

theorem tokens_escapeLoneUnit {u : Nat} (h : u < 0x10000) (rest : List Nat) :
    tokens .literal (escapeLoneUnit u ++ rest) = Token.prepend u <$> tokens .literal rest := by
  rcases escapeLoneUnit_cases h with
    ⟨c, hc, hvalue, hu, -⟩ | hdigits | ⟨hself, hquote, hback, hline⟩
  · rw [hc]
    show tokens .literal (backslash :: c :: rest) = _
    rw [tokens, if_neg (by decide), if_pos rfl, tokens, if_neg hu, hvalue]
    rfl
  · rw [hdigits, tokens_escapeUnit h]
  · rw [hself]
    exact tokens_plain hquote hback hline rest

/-! ### Reading a quoted text back -/

theorem plain_of_surrogate {u : Nat} (h : (isHighSurrogate u || isLowSurrogate u) = true) :
    u ≠ quote ∧ u ≠ backslash ∧ endsLine u = false := by
  simp only [isHighSurrogate, isLowSurrogate, Bool.or_eq_true, Bool.and_eq_true,
    decide_eq_true_eq] at h
  simp only [endsLine, Bool.or_eq_false_iff, beq_eq_false_iff_ne, ne_eq, quote, backslash]
  omega

theorem tokens_escapeUnits (text : List Nat) (h : ∀ u ∈ text, u < 0x10000) (rest : List Nat) :
    tokens .literal (escapeUnits text ++ quote :: rest) =
      (.literal text :: ·) <$> tokens .code rest := by
  fun_induction escapeUnits text with
  | case1 => simp [tokens]
  | case2 u =>
    rw [tokens_escapeLoneUnit (h u (by simp)), tokens, if_pos rfl, Option.map_eq_map,
      Option.map_eq_map, Option.map_map]
    rfl
  | case3 u v tail hpair ih =>
    have halves : isHighSurrogate u = true ∧ isLowSurrogate v = true := by simpa using hpair
    obtain ⟨hu, hu', hu''⟩ := plain_of_surrogate (u := u) (by simp [halves.1])
    obtain ⟨hv, hv', hv''⟩ := plain_of_surrogate (u := v) (by simp [halves.2])
    rw [List.cons_append, List.cons_append, tokens_plain hu hu' hu'', tokens_plain hv hv' hv'',
      ih fun w m => h w (by simp [m])]
    simp only [Option.map_eq_map, Option.map_map]
    rfl
  | case4 u v tail hpair ih =>
    rw [List.append_assoc, tokens_escapeLoneUnit (h u (by simp)),
      ih fun w m => h w (List.mem_cons_of_mem u m)]
    simp only [Option.map_eq_map, Option.map_map]
    rfl

/-- A quoted text is one literal, whatever comes after it, and its value is the text. -/
theorem tokens_quoted (text : List Nat) (h : ∀ u ∈ text, u < 0x10000) (rest : List Nat) :
    tokens .code (encodeUnits text ++ rest) = (.literal text :: ·) <$> tokens .code rest := by
  have spelled : encodeUnits text ++ rest = quote :: (escapeUnits text ++ quote :: rest) := by
    simp [encodeUnits]
  rw [spelled, tokens, if_pos rfl, tokens_escapeUnits text h]

/-! ### Quotes and ends of lines inside -/

end Quoted

namespace Lexer

@[simp] theorem backslashes_nil : backslashes [] = 0 := rfl

@[simp] theorem backslashes_concat (s : List Nat) (u : Nat) :
    backslashes (s ++ [u]) = if u = backslash then backslashes s + 1 else 0 := by
  unfold backslashes
  rw [List.rtakeWhile_concat]
  by_cases h : u = backslash
  · simp [h]
  · simp [h]

/-- An even number of backslashes before a text does not change what they escape in it. -/
theorem backslashes_append_mod {p : List Nat} (hp : Even (backslashes p)) (s : List Nat) :
    backslashes (p ++ s) % 2 = backslashes s % 2 := by
  induction s using List.reverseRecOn with
  | nil => simpa using Nat.even_iff.mp hp
  | append_singleton s u ih =>
    rw [← List.append_assoc, backslashes_concat, backslashes_concat]
    by_cases h : u = backslash
    · rw [if_pos h, if_pos h, Nat.add_mod, ih, ← Nat.add_mod]
    · rw [if_neg h, if_neg h]

/-- Guarded texts may follow one another, if the first does not end with an escape that is begun. -/
theorem Guarded.append {p s : List Nat} (hp : Guarded p) (heven : Even (backslashes p))
    (hs : Guarded s) : Guarded (p ++ s) := by
  intro before after h
  rcases List.append_eq_append_iff.mp h with ⟨m, hbefore, hs'⟩ | ⟨m, hp', hm⟩
  · rw [hbefore, Nat.odd_iff, backslashes_append_mod heven, ← Nat.odd_iff]
    exact hs m after hs'
  · cases m with
    | nil =>
      have := hs [] after hm.symm
      simp [backslashes] at this
    | cons u m =>
      obtain ⟨rfl, -⟩ := List.cons.inj hm
      exact hp before m hp'

theorem guarded_of_not_mem {s : List Nat} (h : quote ∉ s) : Guarded s := by
  rintro before after rfl
  simp at h

end Lexer

namespace Quoted

open WasmScript.Lexer WasmScript.Units

theorem digit_plain {d : Nat} (h : d < 16) :
    (Hex.digit d).toNat ≠ quote ∧ (Hex.digit d).toNat ≠ backslash ∧ endsLine
    (Hex.digit d).toNat = false := by
  have all : ∀ i : Fin 16, (Hex.digit i).toNat ≠ quote ∧ (Hex.digit i).toNat ≠ backslash ∧
      endsLine (Hex.digit i).toNat = false := by decide
  exact all ⟨d, h⟩

theorem escapeUnit_plain {n u : Nat} (h : u ∈ (escapeUnit n).map Char.toNat) :
    u ≠ quote ∧ endsLine u = false := by
  have hdigit (d : Nat) := digit_plain (Nat.mod_lt d (by decide : 16 > 0))
  simp only [escapeUnit, List.map_cons, List.map_nil, List.mem_cons, List.not_mem_nil,
    or_false] at h
  rcases h with rfl | rfl | rfl | rfl | rfl | rfl
  · decide
  · decide
  · exact ⟨(hdigit _).1, (hdigit _).2.2⟩
  · exact ⟨(hdigit _).1, (hdigit _).2.2⟩
  · exact ⟨(hdigit _).1, (hdigit _).2.2⟩
  · exact ⟨(hdigit _).1, (hdigit _).2.2⟩

theorem guarded_escapeLoneUnit {u : Nat} (h : u < 0x10000) :
    Guarded (escapeLoneUnit u) ∧ Even (backslashes (escapeLoneUnit u)) := by
  -- A unit has a short escape, is written in digits, or stands for itself.
  rcases escapeLoneUnit_cases h with ⟨c, hc, -, -, -⟩ | hdigits | ⟨hself, hquote, hback, -⟩
  · rw [hc]
    constructor
    · intro before after hsplit
      cases before with
      | nil => simp at hsplit
      | cons x before =>
        obtain ⟨rfl, htail⟩ := List.cons.inj hsplit
        cases before with
        | nil => exact ⟨0, rfl⟩
        | cons y before => simp at htail
    · by_cases e : c = backslash
      · subst e
        exact ⟨1, rfl⟩
      · rw [show [backslash, c] = [backslash] ++ [c] from rfl, backslashes_concat, if_neg e]
        exact ⟨0, rfl⟩
  · rw [hdigits]
    constructor
    · exact guarded_of_not_mem fun hmem => (escapeUnit_plain hmem).1 rfl
    · have hlast := (digit_plain (Nat.mod_lt u (by decide : 16 > 0))).2.1
      have hspelled : (escapeUnit u).map Char.toNat = (['\\', 'u', Hex.digit (u / 4096 % 16),
          Hex.digit (u / 256 % 16), Hex.digit (u / 16 % 16)].map Char.toNat) ++
            [(Hex.digit (u % 16)).toNat] :=
        rfl
      rw [hspelled, backslashes_concat, if_neg hlast]
      exact ⟨0, rfl⟩
  · rw [hself]
    constructor
    · exact guarded_of_not_mem (by simpa using fun e => hquote e.symm)
    · rw [← List.nil_append [u], backslashes_concat, if_neg hback]
      exact ⟨0, rfl⟩

/-- No quote inside a literal ends it. -/
theorem guarded_escapeUnits (text : List Nat) (h : ∀ u ∈ text, u < 0x10000) :
    Guarded (escapeUnits text) := by
  fun_induction escapeUnits text with
  | case1 => exact guarded_of_not_mem List.not_mem_nil
  | case2 u => exact (guarded_escapeLoneUnit (h u (by simp))).1
  | case3 u v tail hpair ih =>
    have halves : isHighSurrogate u = true ∧ isLowSurrogate v = true := by simpa using hpair
    obtain ⟨hu, -, -⟩ := plain_of_surrogate (u := u) (by simp [halves.1])
    obtain ⟨hv, hv', -⟩ := plain_of_surrogate (u := v) (by simp [halves.2])
    have hpairs : Guarded [u, v] := guarded_of_not_mem (by simp [hu.symm, hv.symm])
    have heven : Even (backslashes ([u] ++ [v])) := by
      rw [backslashes_concat, if_neg hv']
      exact ⟨0, rfl⟩
    exact hpairs.append heven (ih fun w m => h w (by simp [m]))
  | case4 u v tail hpair ih =>
    obtain ⟨hfirst, heven⟩ := guarded_escapeLoneUnit (h u (by simp))
    exact hfirst.append heven (ih fun w m => h w (List.mem_cons_of_mem u m))

theorem endsLine_escapeLoneUnit {u : Nat} (h : u < 0x10000) :
    ∀ w ∈ escapeLoneUnit u, endsLine w = false := by
  intro w hw
  rcases escapeLoneUnit_cases h with ⟨c, hc, -, -, hline⟩ | hdigits | ⟨hself, -, -, hline⟩
  · rw [hc] at hw
    rcases List.mem_cons.mp hw with rfl | hw
    · rfl
    · rwa [List.mem_singleton.mp hw]
  · rw [hdigits] at hw
    exact (escapeUnit_plain hw).2
  · rw [hself] at hw
    rwa [List.mem_singleton.mp hw]

theorem endsLine_escapeUnits (text : List Nat) (h : ∀ u ∈ text, u < 0x10000) :
    ∀ w ∈ escapeUnits text, endsLine w = false := by
  fun_induction escapeUnits text with
  | case1 => simp
  | case2 u => exact endsLine_escapeLoneUnit (h u (by simp))
  | case3 u v tail hpair ih =>
    have halves : isHighSurrogate u = true ∧ isLowSurrogate v = true := by simpa using hpair
    intro w hw
    rcases List.mem_cons.mp hw with rfl | hw
    · exact (plain_of_surrogate (by simp [halves.1])).2.2
    rcases List.mem_cons.mp hw with rfl | hw
    · exact (plain_of_surrogate (by simp [halves.2])).2.2
    · exact ih (fun x m => h x (by simp [m])) w hw
  | case4 u v tail hpair ih =>
    intro w hw
    rcases List.mem_append.mp hw with hw | hw
    · exact endsLine_escapeLoneUnit (h u (by simp)) w hw
    · exact ih (fun x m => h x (List.mem_cons_of_mem u m)) w hw

/-- No unit of a literal ends a line. -/
theorem endsLine_encodeUnits (text : List Nat) (h : ∀ u ∈ text, u < 0x10000) :
    ∀ w ∈ encodeUnits text, endsLine w = false := by
  intro w hw
  simp only [encodeUnits, List.cons_append, List.mem_cons, List.mem_append, List.not_mem_nil,
    or_false] at hw
  rcases hw with rfl | hw | rfl
  · rfl
  · exact endsLine_escapeUnits text h w hw
  · rfl

/-! ### Texts of characters -/

/-- Whether a text goes on with the second half of a pair. -/
def StartsLow (units : List Nat) :
    Prop := ∃ low rest, units = low :: rest ∧ isLowSurrogate low = true

theorem char_bounds (c : Char) : c.toNat < 0xD800 ∨ 0xDFFF < c.toNat ∧ c.toNat < 0x110000 := c.valid

theorem flatMap_ofChar_of_small {cs : List Char} (h : ∀ c ∈ cs, c.toNat < 0x10000) :
    cs.flatMap ofChar = cs.map Char.toNat := by
  induction cs with
  | nil => rfl
  | cons c cs ih =>
    have hc : ofChar c = [c.toNat] := by simp [ofChar, h c (by simp)]
    rw [List.flatMap_cons, hc, ih fun d hd => h d (List.mem_cons_of_mem c hd)]
    rfl

theorem digit_small {d : Nat} (h : d < 16) : (Hex.digit d).toNat < 0x10000 := by
  have all : ∀ i : Fin 16, (Hex.digit i).toNat < 0x10000 := by decide
  exact all ⟨d, h⟩

theorem escapeUnit_small (n : Nat) : ∀ c ∈ escapeUnit n, c.toNat < 0x10000 := by
  have hdigit (d : Nat) := digit_small (Nat.mod_lt d (by decide : 16 > 0))
  intro c hc
  simp only [escapeUnit, List.mem_cons, List.not_mem_nil, or_false] at hc
  rcases hc with rfl | rfl | rfl | rfl | rfl | rfl
  · decide
  · decide
  · exact hdigit _
  · exact hdigit _
  · exact hdigit _
  · exact hdigit _

theorem escapeJsonChar_small {c : Char} (h : c.toNat < 0x10000) :
    ∀ d ∈ escapeJsonChar c, d.toNat < 0x10000 := by
  have hlone : surrogate? c = none := by
    rw [surrogate?, if_neg]
    simp only [isReserved, Bool.and_eq_true, decide_eq_true_eq]
    omega
  have hpair (d : Char) (hd : d.toNat < 0x10000) : ∀ e ∈ ['\\', d], e.toNat < 0x10000 := by
    intro e he
    rcases List.mem_cons.mp he with rfl | he
    · decide
    · rwa [List.mem_singleton.mp he]
  unfold escapeJsonChar
  split_ifs
  · exact hpair _ (by decide)
  · exact hpair _ (by decide)
  · exact hpair _ (by decide)
  · exact hpair _ (by decide)
  · exact hpair _ (by decide)
  · exact hpair _ (by decide)
  · exact hpair _ (by decide)
  · exact escapeUnit_small _
  · rw [hlone]
    simpa using h

/-- A character that is no half of a pair is written as its unit is. -/
theorem ofString_escapeChar_small {c : Char} (h : c.toNat < 0x10000) :
    (escapeChar c).flatMap ofChar = escapeLoneUnit c.toNat := by
  have hbounds := char_bounds c
  have hlone : (isHighSurrogate c.toNat || isLowSurrogate c.toNat) = false := by
    simp only [isHighSurrogate, isLowSurrogate, Bool.or_eq_false_iff, Bool.and_eq_false_iff,
      decide_eq_false_iff_not]
    omega
  rw [escapeLoneUnit, hlone, Char.ofNat_toNat]
  refine flatMap_ofChar_of_small fun d hd => ?_
  unfold escapeChar at hd
  split_ifs at hd
  · exact escapeUnit_small _ d hd
  · exact escapeJsonChar_small h d hd

theorem escapeChar_of_large {c : Char} (h : 0x10000 ≤ c.toNat) :
    escapeChar c = (surrogate? c).elim [c] escapeUnit := by
  have hne (d : Char) (hd : d.toNat < 0x10000) : c ≠ d := by
    rintro rfl
    omega
  rw [escapeChar, if_neg (by omega), escapeJsonChar, if_neg (hne _ (by decide)),
    if_neg (hne _ (by decide)), if_neg (hne _ (by decide)), if_neg (hne _ (by decide)),
    if_neg (hne _ (by decide)), if_neg (hne _ (by decide)), if_neg (hne _ (by decide)),
    if_neg (by omega)]
  cases surrogate? c <;> rfl

theorem surrogate?_cases (c : Char) :
    (surrogate? c = none) ∨ ∃ u, surrogate? c = some u ∧ 0x10000 ≤ c.toNat ∧
      (isHighSurrogate u || isLowSurrogate u) = true := by
  unfold surrogate?
  split
  · next h =>
    right
    simp only [isReserved, Bool.and_eq_true, decide_eq_true_eq] at h
    refine ⟨c.toNat - 0x100000, rfl, by omega, ?_⟩
    simp only [isHighSurrogate, isLowSurrogate, Bool.or_eq_true, Bool.and_eq_true,
      decide_eq_true_eq]
    omega
  · left; rfl

/-- The units of a first character are written by themselves, unless they are one half of a pair
that goes on. -/
theorem escapeUnits_ofChar (c : Char) (units : List Nat)
    (h : ∀ u, surrogate? c = some u → isHighSurrogate u = true → ¬ StartsLow units) :
    escapeUnits (ofChar c ++ units) = (escapeChar c).flatMap ofChar ++ escapeUnits units := by
  have alone (u : Nat) (hu : isHighSurrogate u = true → ¬ StartsLow units) :
      escapeUnits (u :: units) = escapeLoneUnit u ++ escapeUnits units := by
    cases units with
    | nil => simp [escapeUnits]
    | cons v rest =>
      rw [escapeUnits, if_neg]
      intro hpair
      have halves : isHighSurrogate u = true ∧ isLowSurrogate v = true := by simpa using hpair
      exact hu halves.1 ⟨v, rest, rfl, halves.2⟩
  -- A character above the first plane is two units, unless it stands for half of a pair.
  by_cases hsmall : c.toNat < 0x10000
  · have hunits : ofChar c = [c.toNat] := by simp [ofChar, hsmall]
    have hplain : isHighSurrogate c.toNat = false := by
      have hbounds := char_bounds c
      simp only [isHighSurrogate, Bool.and_eq_false_iff, decide_eq_false_iff_not]
      omega
    rw [hunits, ofString_escapeChar_small hsmall]
    exact alone _ fun hhigh => by simp [hplain] at hhigh
  · have hlarge : 0x10000 ≤ c.toNat := Nat.le_of_not_lt hsmall
    rw [escapeChar_of_large hlarge]
    rcases surrogate?_cases c with hnone | ⟨u, hu, -, hhalf⟩
    · have hunits : ofChar c = split c.toNat := by simp [ofChar, hsmall, hnone]
      have hbounds := char_bounds c
      have hhigh : isHighSurrogate (0xD800 + (c.toNat - 0x10000) / 0x400) = true := by
        simp only [isHighSurrogate, Bool.and_eq_true, decide_eq_true_eq]
        omega
      have hlow : isLowSurrogate (0xDC00 + (c.toNat - 0x10000) % 0x400) = true := by
        simp only [isLowSurrogate, Bool.and_eq_true, decide_eq_true_eq]
        omega
      simp only [hnone, Option.elim_none, List.flatMap_cons, List.flatMap_nil, List.append_nil,
        hunits, split, List.cons_append, List.nil_append]
      rw [escapeUnits, hhigh, hlow]
      rfl
    · have hunits : ofChar c = [u] := by simp [ofChar, hsmall, hu]
      have hescape : escapeLoneUnit u = (escapeUnit u).map Char.toNat := by
        rw [escapeLoneUnit, if_pos hhalf]
      simp only [hu, Option.elim_some, hunits,
        flatMap_ofChar_of_small (escapeUnit_small u), ← hescape]
      exact alone u (h u hu)

theorem startsLow_ofChar {d : Char} {units : List Nat} (h : StartsLow (ofChar d ++ units)) :
    ∃ low, surrogate? d = some low ∧ isLowSurrogate low = true := by
  obtain ⟨low, rest, hunits, hlow⟩ := h
  have hrange : 0xDC00 ≤ low ∧ low < 0xE000 := by simpa [isLowSurrogate] using hlow
  have hbounds := char_bounds d
  by_cases hsmall : d.toNat < 0x10000
  · simp only [ofChar, hsmall, if_true, List.cons_append, List.cons.injEq] at hunits
    omega
  · rcases surrogate?_cases d with hnone | ⟨u, hu, -, -⟩
    · have hbound : d.toNat < 0x110000 := d.valid.elim (fun hd => by omega) fun hd => hd.2
      simp only [ofChar, hsmall, if_false, hnone, split, List.cons_append,
        List.cons.injEq] at hunits
      omega
    · simp only [ofChar, hsmall, if_false, hu, List.cons_append, List.cons.injEq] at hunits
      exact ⟨u, hu, hunits.1 ▸ hlow⟩

theorem flatMap_ofChar_escapeChars (cs : List Char) :
    (escapeChars escapeChar cs).flatMap ofChar = escapeUnits (cs.flatMap ofChar) := by
  fun_induction escapeChars escapeChar cs with
  | case1 => rfl
  | case2 c =>
    have hone := escapeUnits_ofChar c [] fun u _ _ => by rintro ⟨low, rest, h, -⟩; cases h
    simp only [List.append_nil] at hone
    rw [List.flatMap_cons, List.flatMap_nil, List.append_nil, hone]
    simp [escapeUnits]
  | case3 c d rest hpair ih =>
    rw [pair?] at hpair
    rcases surrogate?_cases c with hc | ⟨high, hc, hlarge, -⟩
    · simp [hc] at hpair
    rcases surrogate?_cases d with hd | ⟨low, hd, hlarge', -⟩
    · simp [hc, hd] at hpair
    simp only [hc, hd] at hpair
    -- Two characters that stand for halves are one pair of units.
    have halves : (isHighSurrogate high && isLowSurrogate low) = true := by
      by_contra hnot
      simp [hnot] at hpair
    have hunits : ofChar c = [high] := by simp [ofChar, Nat.not_lt.mpr hlarge, hc]
    have hunits' : ofChar d = [low] := by simp [ofChar, Nat.not_lt.mpr hlarge', hd]
    simp only [List.flatMap_cons, hunits, hunits', List.cons_append, List.nil_append, ih]
    rw [escapeUnits, if_pos halves]
  | case4 c d rest hpair ih =>
    have hunits : (c :: d :: rest).flatMap ofChar = ofChar c ++ (d :: rest).flatMap ofChar := rfl
    rw [List.flatMap_append, ih, hunits, escapeUnits_ofChar c]
    intro u hu hhigh hlow
    -- If a low half did follow, the two characters would have been taken together.
    obtain ⟨low, hd, hlow⟩ := startsLow_ofChar hlow
    simp [pair?, hu, hd, hhigh, hlow] at hpair

theorem ofChar_lt (c : Char) : ∀ u ∈ ofChar c, u < 0x10000 := by
  intro u hu
  have hbounds := char_bounds c
  by_cases hsmall : c.toNat < 0x10000
  · simp only [ofChar, hsmall, if_true, List.mem_singleton] at hu
    omega
  · rcases surrogate?_cases c with hnone | ⟨v, hv, -, hhalf⟩
    · simp only [ofChar, hsmall, if_false, hnone, split, List.mem_cons, List.not_mem_nil,
        or_false] at hu
      omega
    · simp only [ofChar, hsmall, if_false, hv, List.mem_singleton] at hu
      simp only [isHighSurrogate, isLowSurrogate, Bool.or_eq_true, Bool.and_eq_true,
        decide_eq_true_eq] at hhalf
      omega

/-- Quoting a text of characters is quoting its units. -/
theorem ofString_encode (s : String) : ofString (encode s) = encodeUnits (ofString s) := by
  have hquote : ofChar '"' = [0x22] := rfl
  simp only [ofString, encode, String.toList_ofList, wrap, encodeUnits, List.cons_append,
    List.flatMap_cons, List.flatMap_append, List.flatMap_nil, hquote, flatMap_ofChar_escapeChars,
    List.nil_append, List.append_nil]
  rfl

end Quoted

end WasmScript
