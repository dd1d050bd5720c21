/-
  WasmScript/Proofs/Script/Readings.lean
  ======================================
  **Readings of scripts** — when the text of a script expression can be read in one way only.

  A text in which only calls, names, literals and texts in parentheses stand next to an
  operator (`Term.Simple`) has words: what stands between the blanks that are not in
  parentheses.  Two terms with one text have the same words, and what a word is can be told
  from its first characters (`kindOf`).

  `Term.Unique` says that a term is the only reading of its text.  A reading may nest binary
  operators in any way, as if each of them could bind tighter than the others, and only keeps
  to what all of them have in common: they bind tighter than a conditional or an assignment.
-/
import WasmScript.Script.Expression
import WasmScript.Proofs.Text.Brackets
import Mathlib.Data.List.Nodup

namespace WasmScript.Script

/-! ### Calls, names and literals -/

/-- A name: a letter, and letters and digits after it. -/
def Identifier : List Char → Prop
  | [] => False
  | c :: rest => c.isAlpha ∧ ∀ d ∈ rest, d.isAlphanum

instance : DecidablePred Identifier
  | [] => inferInstanceAs (Decidable False)
  | c :: rest =>
    let _ : Decidable (∀ d ∈ rest, d.isAlphanum) := List.decidableBAll _ rest
    inferInstanceAs (Decidable (c.isAlpha ∧ ∀ d ∈ rest, d.isAlphanum))

/-- The digits of a number. -/
def Digits (cs : List Char) : Prop := cs ≠ [] ∧ ∀ c ∈ cs, c.isDigit

/-- A primary, member or call expression of the script language, of which only the parentheses are
looked at where there are any. -/
inductive CallExpression : List Char → Prop
  | identifier {name : List Char} (h : Identifier name) : CallExpression name
  | number {digits : List Char} (h : Digits digits) : CallExpression digits
  | bigInteger {digits : List Char} (h : Digits digits) : CallExpression (digits ++ ['n'])
  | parens {cs : List Char} (h : Closed [] cs) : CallExpression ('(' :: (cs ++ [')']))
  | member {cs name : List Char} (object : CallExpression cs) (h : Identifier name) :
      CallExpression (cs ++ '.' :: name)
  | call {cs args : List Char} (callee : CallExpression cs) (h : Closed [] args) :
      CallExpression (cs ++ '(' :: (args ++ [')']))

/-- The characters that stand in parentheses in a call expression. -/
def separators : List Char := [' ', ',']

theorem plain_of_isAlphanum {c : Char} (h : c.isAlphanum) : c ≠ '(' ∧ c ≠ ')' ∧ c ∉ separators := by
  refine ⟨?_, ?_, ?_⟩
  · rintro rfl
    cases h
  · rintro rfl
    cases h
  · intro hc
    rcases List.mem_cons.mp hc with rfl | hc
    · cases h
    · cases List.mem_singleton.mp hc
      cases h

theorem isAlphanum_of_isDigit {c : Char} (h : c.isDigit) : c.isAlphanum := by
  rw [Char.isAlphanum, h, Bool.or_true]

theorem isAlphanum_of_isAlpha {c : Char} (h : c.isAlpha) : c.isAlphanum := by
  rw [Char.isAlphanum, h, Bool.true_or]

theorem isDigit_of_isAlpha {c : Char} (h : c.isAlpha) : c.isDigit = false := by
  unfold Char.isAlpha Char.isUpper Char.isLower at h
  simp only [Bool.or_eq_true, Bool.and_eq_true, decide_eq_true_eq] at h
  simp only [Char.isDigit, Bool.and_eq_false_iff, decide_eq_false_iff_not]
  simp only [ge_iff_le, UInt32.le_iff_toNat_le] at h ⊢
  simp at h ⊢
  omega

theorem Identifier.starts {cs : List Char} (h : Identifier cs) :
    ∃ c rest, cs = c :: rest ∧ c.isAlpha := by
  cases cs with
  | nil => exact h.elim
  | cons c rest => exact ⟨c, rest, rfl, h.1⟩

theorem Identifier.isAlphanum {cs : List Char} (h : Identifier cs) : ∀ c ∈ cs, c.isAlphanum := by
  cases cs with
  | nil => exact h.elim
  | cons c rest => exact List.forall_mem_cons.mpr ⟨isAlphanum_of_isAlpha h.1, h.2⟩

theorem Identifier.closed {cs : List Char} (h : Identifier cs) : Closed separators cs :=
  .plain fun c hc => plain_of_isAlphanum (h.isAlphanum c hc)

theorem Digits.closed {cs : List Char} (h : Digits cs) : Closed separators cs :=
  .plain fun c hc => plain_of_isAlphanum (isAlphanum_of_isDigit (h.2 c hc))

namespace CallExpression

variable {cs : List Char}

theorem closed (h : CallExpression cs) : Closed separators cs := by
  induction h with
  | identifier h => exact h.closed
  | number h => exact h.closed
  | bigInteger h => exact h.closed.append (.plain (by decide))
  | parens h => exact h.parens (by decide)
  | member _ h ih =>
    exact ih.append ((Closed.plain (by decide) : Closed separators ['.']).append h.closed)
  | call _ h ih => exact ih.append (h.parens (by decide))

/-- A call expression starts with a letter, a digit or a parenthesis. -/
theorem starts (h : CallExpression cs) : ∃ c rest, cs = c :: rest ∧ (c.isAlphanum ∨ c = '(') := by
  induction h with
  | identifier h =>
    obtain ⟨c, rest, hstart, hc⟩ := h.starts
    exact ⟨c, rest, hstart, .inl (isAlphanum_of_isAlpha hc)⟩
  | number h =>
    obtain ⟨c, rest, rfl⟩ := List.exists_cons_of_ne_nil h.1
    exact ⟨c, rest, rfl, .inl (isAlphanum_of_isDigit (h.2 c List.mem_cons_self))⟩
  | bigInteger h =>
    obtain ⟨c, rest, rfl⟩ := List.exists_cons_of_ne_nil h.1
    exact ⟨c, _, rfl, .inl (isAlphanum_of_isDigit (h.2 c List.mem_cons_self))⟩
  | parens => exact ⟨'(', _, rfl, .inr rfl⟩
  | member _ _ ih | call _ _ ih =>
    obtain ⟨c, rest, rfl, hc⟩ := ih
    exact ⟨c, _, rfl, hc⟩

end CallExpression

theorem digits_repr (n : Nat) : Digits n.repr.toList := by
  rw [Nat.toList_repr]
  exact ⟨Nat.toDigits_ne_nil, fun c hc => Nat.isDigit_of_mem_toDigits (by decide) (by decide) hc⟩

theorem repr_inj {m n : Nat} (h : m.repr.toList = n.repr.toList) : m = n := by
  rw [Nat.toList_repr, Nat.toList_repr] at h
  calc m = Nat.ofDigitChars 10 (Nat.toDigits 10 m) 0 :=
    (Nat.ofDigitChars_toDigits (by decide) (by decide)).symm
      _ = Nat.ofDigitChars 10 (Nat.toDigits 10 n) 0 := by rw [h]
      _ = n := Nat.ofDigitChars_toDigits (by decide) (by decide)

/-- A letter and the number of what is named. -/
theorem identifier_numbered {c : Char} (hc : c.isAlpha) (n : Nat) :
    Identifier (c :: n.repr.toList) :=
  ⟨hc, fun d hd => isAlphanum_of_isDigit ((digits_repr n).2 d hd)⟩

namespace Variable

def letter : Variable → Char
  | .localVar _ => 'l'
  | .tempVar _ => 't'
  | .globalVar _ => 'g'

def number : Variable → Nat
  | .localVar n | .tempVar n | .globalVar n => n

theorem toList_text (v : Variable) : v.text.toList = v.letter :: v.number.repr.toList := by
  have hletter : v.text = String.ofList [v.letter] ++ v.number.repr := by
    cases v <;> rfl
  rw [hletter, String.toList_append, String.toList_ofList]
  rfl

theorem identifier_text (v : Variable) : Identifier v.text.toList := by
  have hletter : v.letter.isAlpha := by
    cases v <;> rfl
  rw [toList_text]
  exact identifier_numbered hletter v.number

theorem text_inj {v w : Variable} (h : v.text.toList = w.text.toList) : v = w := by
  rw [toList_text, toList_text] at h
  obtain ⟨hletter, hnumber⟩ := List.cons.inj h
  have hnumber := repr_inj hnumber
  cases v <;> cases w <;> first | exact congrArg _ hnumber | cases hletter

end Variable

namespace Callee

theorem toList_function (n : Nat) : (function n).text.toList = 'f' :: n.repr.toList := by
  have htext : (function n).text = "f" ++ n.repr := rfl
  rw [htext, String.toList_append]
  rfl

/-- What scripts call that is not a function of the module. -/
def imported : List Callee :=
  [.imul, .clz32, .bigInt, .asIntN, .asUintN, .memoryGrow, .memoryCopy, .memoryFill]
    ++ Helper.all.map .helper ++ Accessor.all.map .access

theorem cases_imported (c : Callee) : (∃ n, c = .function n) ∨ c ∈ imported := by
  cases c with
  | function n => exact .inl ⟨n, rfl⟩
  | helper h => cases h <;> exact .inr (by decide)
  | access a => cases a <;> exact .inr (by decide)
  | _ => exact .inr (by decide)

theorem nodup_imported : (imported.map text).Nodup := by decide

/-- What is imported has the name of a variable or of a member of one, and does not start with the
letter of the functions of a module. -/
theorem spelled_imported : ∀ c ∈ imported, c.text.toList.head? ≠ some 'f' ∧
    (Identifier c.text.toList ∨
      Identifier (c.text.toList.takeWhile (· ≠ '.')) ∧
        ∃ name ∈ (c.text.toList.dropWhile (· ≠ '.')).tail?, Identifier name ∧
          c.text.toList.dropWhile (· ≠ '.') = '.' :: name) := by decide

theorem text_inj {c d : Callee} (h : c.text.toList = d.text.toList) : c = d := by
  have hother (n : Nat) : ∀ d ∈ imported, d.text.toList ≠ (function n).text.toList := by
    intro d hd heq
    rw [toList_function] at heq
    exact (spelled_imported d hd).1 (by rw [heq]; rfl)
  rcases cases_imported c with ⟨m, rfl⟩ | hc <;> rcases cases_imported d with ⟨n, rfl⟩ | hd
  · rw [toList_function, toList_function] at h
    rw [repr_inj (List.cons.inj h).2]
  · exact absurd h.symm (hother m d hd)
  · exact absurd h (hother n c hc)
  · exact List.inj_on_of_nodup_map nodup_imported hc hd (String.toList_inj.mp h)

/-- What is called is a name, or the member of a name. -/
theorem text_cases (c : Callee) : Identifier c.text.toList ∨
    ∃ object name, Identifier object ∧ Identifier name ∧ c.text.toList = object ++ '.' :: name := by
  rcases cases_imported c with ⟨n, rfl⟩ | hc
  · rw [toList_function]
    exact .inl (identifier_numbered (by decide) n)
  · rcases (spelled_imported c hc).2 with hname | ⟨hobject, name, -, hname, hmember⟩
    · exact .inl hname
    · refine .inr ⟨_, name, hobject, hname, ?_⟩
      rw [← hmember, List.takeWhile_append_dropWhile]

theorem callExpression_text (c : Callee) : CallExpression c.text.toList := by
  rcases text_cases c with hname | ⟨object, name, hobject, hname, htext⟩
  · exact .identifier hname
  · rw [htext]
    exact .member (.identifier hobject) hname

theorem starts_text (c : Callee) :
    ∃ d rest, c.text.toList = d :: rest ∧ d ≠ '(' ∧ d.isDigit = false := by
  rcases text_cases c with hname | ⟨object, name, hobject, -, htext⟩
  · obtain ⟨d, rest, hstart, hd⟩ := hname.starts
    exact ⟨d, rest, hstart, (plain_of_isAlphanum (isAlphanum_of_isAlpha hd)).1,
      isDigit_of_isAlpha hd⟩
  · obtain ⟨d, rest, rfl, hd⟩ := hobject.starts
    exact ⟨d, _, htext, (plain_of_isAlphanum (isAlphanum_of_isAlpha hd)).1, isDigit_of_isAlpha hd⟩

theorem parens_notMem_text (c : Callee) : '(' ∉ c.text.toList := by
  have hidentifier {name : List Char} (h : Identifier name) : '(' ∉ name :=
    fun hmem => (plain_of_isAlphanum (h.isAlphanum _ hmem)).1 rfl
  rcases text_cases c with hname | ⟨object, name, hobject, hname, htext⟩
  · exact hidentifier hname
  · rw [htext, List.mem_append, List.mem_cons]
    rintro (h | h | h)
    · exact hidentifier hobject h
    · cases h
    · exact hidentifier hname h

end Callee

/-! ### Terms -/

namespace Term

/-- An operand: nothing of it stands next to an operator without parentheses. -/
def Simple : Term → Prop
  | .binary .. | .conditional .. | .assign .. => False
  | _ => True

theorem toList_binary (s : Symbol) (l r : Term) :
    (binary s l r).text.toList = l.text.toList ++ ' ' ::
    (s.text.toList ++ ' ' :: r.text.toList) := by
  simp [text, textWith]

theorem toList_conditional (c y n : Term) :
    (conditional c y n).text.toList
      = c.text.toList ++ ' ' :: '?' :: ' ' ::
        (y.text.toList ++ ' ' :: ':' :: ' ' :: n.text.toList) := by
  simp [text, textWith]

theorem toList_assign (v : Variable) (x : Term) :
    (assign v x).text.toList = v.text.toList ++ ' ' :: '=' :: ' ' :: x.text.toList := by
  simp [text, textWith]

theorem toList_parens (x : Term) : (parens x).text.toList = '(' :: (x.text.toList ++ [')']) := by
  simp [text, textWith]

theorem toList_call (c : Callee) (args : List Term) :
    (call c args).text.toList
      = c.text.toList ++
        '(' :: (List.intercalate [',', ' '] ((texts args).map String.toList) ++ [')']) := by
  simp [text, textWith, texts]

theorem toList_literal_nonneg (n : Nat) (suffix : String) :
    (literalText n suffix).toList = n.repr.toList ++ suffix.toList := by
  have hnonneg : ¬ (n : Int) < 0 := by omega
  rw [literalText, if_neg hnonneg, String.toList_append]
  rfl

theorem toList_literal_neg (n : Nat) (suffix : String) :
    (literalText (.negSucc n) suffix).toList
      = '(' :: '-' :: ((n + 1).repr.toList ++ suffix.toList ++ [')']) := by
  have htext : toString (Int.negSucc n) = "-" ++ (n + 1).repr := rfl
  rw [literalText, if_pos (Int.negSucc_lt_zero n), htext]
  simp

theorem callExpression_number (n : Int) : CallExpression (literalText n "").toList := by
  cases n with
  | ofNat n =>
    rw [Int.ofNat_eq_natCast, toList_literal_nonneg, String.toList_empty, List.append_nil]
    exact .number (digits_repr n)
  | negSucc n =>
    rw [toList_literal_neg, String.toList_empty, List.append_nil]
    have hsign : Closed [] ['-'] := .plain (by decide)
    exact .parens (hsign.append ((digits_repr (n + 1)).closed.mono (by simp)))

theorem callExpression_bigInteger (n : Int) : CallExpression (literalText n "n").toList := by
  have hsuffix : "n".toList = ['n'] := rfl
  cases n with
  | ofNat n =>
    rw [Int.ofNat_eq_natCast, toList_literal_nonneg, hsuffix]
    exact .bigInteger (digits_repr n)
  | negSucc n =>
    rw [toList_literal_neg, hsuffix]
    have hdigits : Closed [] ((n + 1).repr.toList ++ ['n']) :=
      (CallExpression.bigInteger (digits_repr (n + 1))).closed.mono (by simp)
    have hsign : Closed [] ['-'] := .plain (by decide)
    exact .parens (hsign.append hdigits)

theorem closed_of_call {t : Term} (h : CallExpression t.text.toList) : Closed [','] t.text.toList :=
  h.closed.mono (by simp [separators])

/-- The characters around an operator. -/
theorem closed_between {xs ys : List Char} (operator : List Char) (hx : Closed [','] xs)
    (hoperator : Closed [','] operator) (hy : Closed [','] ys) :
    Closed [','] (xs ++ ' ' :: (operator ++ ' ' :: ys)) := by
  have hblank : Closed [','] [' '] := .plain (by decide)
  exact hx.append (hblank.append (hoperator.append (hblank.append hy)))

end Term

theorem Symbol.text_inj {s s' : Symbol} (h : s.text.toList = s'.text.toList) : s = s' := by
  have hnodup :
      ([Symbol.plus, .minus, .times, .and, .or, .xor, .shl, .shr, .ushr, .equal, .unequal, .less,
      .greater, .lessEqual, .greaterEqual].map text).Nodup := by decide
  exact List.inj_on_of_nodup_map hnodup (by cases s <;> decide) (by cases s' <;> decide)
    (String.toList_inj.mp h)

theorem Symbol.closed_text (s : Symbol) : Closed separators s.text.toList :=
  .plain (by cases s <;> decide)

namespace Term

theorem callExpression_memoryPages : CallExpression memoryPages.text.toList := by
  have hobject : Identifier "memory".toList := by decide
  have hname : Identifier "pages".toList := by decide
  exact .member (.identifier hobject) hname

theorem callExpression_parens {x : Term} (h : Closed [','] x.text.toList) :
    CallExpression (parens x).text.toList := by
  rw [toList_parens]
  exact .parens (h.mono (by simp))

theorem callExpression_call (c : Callee) {args : List Term}
    (h : ∀ w ∈ (texts args).map String.toList, Closed [','] w) :
    CallExpression (call c args).text.toList := by
  have hcomma : Closed [] [',', ' '] := .plain (by decide)
  rw [toList_call]
  exact .call c.callExpression_text (hcomma.intercalate fun w hw => (h w hw).mono (by simp))

theorem closed_binary (s : Symbol) {l r : Term} (hl : Closed [','] l.text.toList)
    (hr : Closed [','] r.text.toList) :
    Closed [','] (binary s l r).text.toList := by
  rw [toList_binary]
  exact closed_between _ hl (s.closed_text.mono (by simp [separators])) hr

theorem closed_conditional {c y n : Term} (hc : Closed [','] c.text.toList)
    (hy : Closed [','] y.text.toList) (hn : Closed [','] n.text.toList) :
    Closed [','] (conditional c y n).text.toList := by
  have hquestion : Closed [','] ['?'] := .plain (by decide)
  have hcolon : Closed [','] [':'] := .plain (by decide)
  rw [toList_conditional]
  exact closed_between ['?'] hc hquestion (closed_between [':'] hy hcolon hn)

theorem closed_assign (v : Variable) {x : Term} (hx : Closed [','] x.text.toList) :
    Closed [','] (assign v x).text.toList := by
  have hequals : Closed [','] ['='] := .plain (by decide)
  rw [toList_assign]
  exact closed_between ['='] (v.identifier_text.closed.mono (by simp [separators])) hequals hx

mutual
/-- The text of an operand is a call expression, and in that of any expression the parentheses
match. -/
theorem grammar (t : Term) :
    (t.Simple → CallExpression t.text.toList) ∧ Closed [','] t.text.toList := by
  have operand {t : Term} (h : CallExpression t.text.toList) :
      (t.Simple → CallExpression t.text.toList) ∧ Closed [','] t.text.toList :=
        ⟨fun _ => h, closed_of_call h⟩
  cases t with
  | «variable» v => exact operand (.identifier v.identifier_text)
  | memoryPages => exact operand callExpression_memoryPages
  | number n => exact operand (callExpression_number n)
  | bigInteger n => exact operand (callExpression_bigInteger n)
  | parens inner => exact operand (callExpression_parens (grammar inner).2)
  | binary s l r => exact ⟨False.elim, closed_binary s (grammar l).2 (grammar r).2⟩
  | conditional c y n =>
    exact ⟨False.elim, closed_conditional (grammar c).2 (grammar y).2 (grammar n).2⟩
  | assign v x => exact ⟨False.elim, closed_assign v (grammar x).2⟩
  | call c args => exact operand (callExpression_call c (closed_texts args))

theorem closed_texts (ts : List Term) : ∀ w ∈ (texts ts).map String.toList, Closed [','] w := by
  unfold texts
  cases ts with
  | nil => simp [textsWith]
  | cons t ts =>
    rw [textsWith, List.map_cons]
    exact List.forall_mem_cons.mpr ⟨(grammar t).2, closed_texts ts⟩
end

/-! ### Words -/

/-- What a text consists of between the blanks that are not in parentheses. -/
def words : Term → List (List Char)
  | .binary s l r => l.words ++ s.text.toList :: r.words
  | .conditional c y n => c.words ++ ['?'] :: (y.words ++ [':'] :: n.words)
  | .assign v x => v.text.toList :: ['='] :: x.words
  | t => [t.text.toList]

theorem words_ne_nil (t : Term) : t.words ≠ [] := by
  cases t <;> simp [words]

theorem words_of_simple {t : Term} (h : t.Simple) : t.words = [t.text.toList] := by
  cases t <;> first | rfl | exact h.elim

theorem simple_of_words {t : Term} {w : List Char} (h : t.words = [w]) : t.Simple := by
  have hlength := congrArg List.length h
  cases t with
  | binary s l r =>
    have := List.length_pos_of_ne_nil l.words_ne_nil
    simp [words] at hlength
    omega
  | conditional c y n =>
    simp [words] at hlength
    omega
  | assign v x => simp [words] at h
  | _ => trivial

/-- Terms are operands, or have parts that stand next to an operator. -/
@[elab_as_elim]
theorem word_induction {motive : Term → Prop} (simple : ∀ t : Term, t.Simple → motive t)
    (binary : ∀ s l r, motive l → motive r → motive (.binary s l r))
    (conditional : ∀ c y n, motive c → motive y → motive n → motive (.conditional c y n))
    (assign : ∀ v x, motive x → motive (.assign v x)) (t : Term) : motive t := by
  induction t using words.induct with
  | case1 s l r hl hr => exact binary s l r hl hr
  | case2 c y n hc hy hn => exact conditional c y n hc hy hn
  | case3 v x hx => exact assign v x hx
  | case4 t hbinary hconditional hassign =>
    refine simple t ?_
    cases t with
    | binary s l r => exact hbinary s l r rfl
    | conditional c y n => exact hconditional c y n rfl
    | assign v x => exact hassign v x rfl
    | _ => trivial

theorem intercalate_words (t : Term) : t.text.toList = [' '].intercalate t.words := by
  induction t using word_induction with
  | simple t ht => simp [words_of_simple ht]
  | binary s l r hl hr =>
    rw [words, toList_binary, hl, hr, intercalate_between _ _ l.words_ne_nil r.words_ne_nil]
    rfl
  | conditional c y n hc hy hn =>
    rw [words, toList_conditional, hc, hy, hn, intercalate_between _ _ c.words_ne_nil (by simp),
      intercalate_between _ _ y.words_ne_nil n.words_ne_nil]
    rfl
  | assign v x hx =>
    have hwords : (Term.assign v x).words = [v.text.toList] ++ ['='] :: x.words := rfl
    rw [hwords, toList_assign, hx, intercalate_between _ _ (by simp) x.words_ne_nil]
    simp

/-- A text starts with a letter, a digit or a parenthesis. -/
theorem starts_text (t : Term) :
    ∃ c rest, t.text.toList = c :: rest ∧ (c.isAlphanum ∨ c = '(') := by
  induction t using word_induction with
  | simple t ht => exact ((grammar t).1 ht).starts
  | binary s l r hl hr =>
    obtain ⟨c, rest, hstart, hc⟩ := hl
    exact ⟨c, _, by rw [toList_binary, hstart]; rfl, hc⟩
  | conditional b y n hb hy hn =>
    obtain ⟨c, rest, hstart, hc⟩ := hb
    exact ⟨c, _, by rw [toList_conditional, hstart]; rfl, hc⟩
  | assign v x hx =>
    obtain ⟨c, rest, hstart, hc⟩ := (CallExpression.identifier v.identifier_text).starts
    exact ⟨c, _, by rw [toList_assign, hstart]; rfl, hc⟩

theorem closed_words (t : Term) : ∀ w ∈ t.words, Closed separators w := by
  induction t using word_induction with
  | simple t ht =>
    rw [words_of_simple ht]
    exact List.forall_mem_singleton.mpr ((grammar t).1 ht).closed
  | binary s l r hl hr =>
    exact List.forall_mem_append.mpr ⟨hl, List.forall_mem_cons.mpr ⟨s.closed_text, hr⟩⟩
  | conditional c y n hc hy hn =>
    refine List.forall_mem_append.mpr ⟨hc, List.forall_mem_cons.mpr ⟨.plain (by decide), ?_⟩⟩
    exact List.forall_mem_append.mpr ⟨hy, List.forall_mem_cons.mpr ⟨.plain (by decide), hn⟩⟩
  | assign v x hx =>
    exact List.forall_mem_cons.mpr
      ⟨v.identifier_text.closed, List.forall_mem_cons.mpr ⟨.plain (by decide), hx⟩⟩

/-- Equal texts have the same words. -/
theorem words_of_text {t u : Term} (h : u.text = t.text) : u.words = t.words := by
  have hblank : ' ' ∈ separators := by decide
  have hjoined : [' '].intercalate u.words = [' '].intercalate t.words := by
    rw [← intercalate_words, ← intercalate_words, h]
  exact intercalate_inj hblank u.closed_words t.closed_words u.words_ne_nil t.words_ne_nil hjoined

theorem text_of_words {t u : Term} (h : u.words = t.words) : u.text = t.text := by
  rw [← String.toList_inj, intercalate_words, intercalate_words, h]

/-! ### Readings -/

/-- Neither a conditional nor an assignment: an operand of a binary operator, however it binds. -/
def Tight : Term → Prop
  | .conditional .. | .assign .. => False
  | _ => True

theorem Simple.tight {t : Term} (h : t.Simple) : t.Tight := by
  cases t <;> trivial

mutual
/-- What the grammar of the script language admits, whatever the precedence of its binary
operators. -/
def Grammatical : Term → Prop
  | .variable _ | .memoryPages | .number _ | .bigInteger _ => True
  | .parens inner => inner.Grammatical
  | .binary _ l r => (l.Tight ∧ l.Grammatical) ∧ r.Tight ∧ r.Grammatical
  | .conditional c y n => (c.Tight ∧ c.Grammatical) ∧ y.Grammatical ∧ n.Grammatical
  | .assign _ x => x.Grammatical
  | .call _ args => AllGrammatical args

def AllGrammatical : List Term → Prop
  | [] => True
  | t :: ts => t.Grammatical ∧ AllGrammatical ts
end

/-- A term that is the only reading of its text. -/
def Unique (t : Term) : Prop := ∀ u : Term, u.Grammatical → u.text = t.text → u = t

/-- Words that are neither operands nor binary operators do not stand among those. -/
theorem notMem_words {t : Term} (ht : t.Tight) (hg : t.Grammatical) {c : Char}
    (hc : c = '?' ∨ c = '=') :
    [c] ∉ t.words := by
  have hplain : ¬ (c.isAlphanum ∨ c = '(') := by
    rcases hc with rfl | rfl <;> decide
  -- Only a choice or an assignment has such a sign among its words, and those are not tight.
  induction t using word_induction with
  | simple t hsimple =>
    rw [words_of_simple hsimple, List.mem_singleton]
    intro h
    obtain ⟨d, rest, hstart, hd⟩ := t.starts_text
    rw [← h] at hstart
    cases hstart
    exact hplain hd
  | binary s l r hl hr =>
    obtain ⟨⟨htl, hgl⟩, htr, hgr⟩ := hg
    have hsymbol : s.text.toList ≠ [c] := by
      rcases hc with rfl | rfl <;> cases s <;> decide
    rw [words, List.mem_append, List.mem_cons]
    rintro (h | h | h)
    · exact hl htl hgl h
    · exact hsymbol h.symm
    · exact hr htr hgr h
  | conditional => exact ht.elim
  | assign => exact ht.elim

theorem append_cons_inj {α : Type} {a : α} {xs ys zs ws : List α} (hx : a ∉ xs) (hy : a ∉ ys)
    (h : xs ++ a :: zs = ys ++ a :: ws) : xs = ys ∧ zs = ws := by
  rcases List.append_eq_append_iff.mp h with ⟨m, rfl, hm⟩ | ⟨m, rfl, hm⟩
  · cases m with
    | nil => exact ⟨by simp, (List.cons.inj hm).2⟩
    | cons b m =>
      cases hm
      simp at hy
  · cases m with
    | nil => exact ⟨by simp, (List.cons.inj hm).2.symm⟩
    | cons b m =>
      cases hm
      simp at hx

theorem split_three {α : Type} {a x y z : α} {xs ys : List α} (hx : xs ≠ []) (hy : ys ≠ [])
    (h : xs ++ a :: ys = [x, y, z]) : xs = [x] ∧ a = y ∧ ys = [z] := by
  obtain ⟨b, xs, rfl⟩ := List.exists_cons_of_ne_nil hx
  obtain ⟨c, ys, rfl⟩ := List.exists_cons_of_ne_nil hy
  have hlength := congrArg List.length h
  have hnil : xs = [] := List.eq_nil_of_length_eq_zero (by simp at hlength; omega)
  subst hnil
  simp_all

theorem length_words_conditional (c y n : Term) : 5 ≤ (conditional c y n).words.length := by
  have := List.length_pos_of_ne_nil c.words_ne_nil
  have := List.length_pos_of_ne_nil y.words_ne_nil
  have := List.length_pos_of_ne_nil n.words_ne_nil
  simp only [words, List.length_append, List.length_cons]
  omega

namespace Unique

variable {t u l r x c y n : Term}

theorem eq_of_words (ht : t.Unique) (hu : u.Grammatical) (h : u.words = t.words) : u = t :=
  ht u hu (text_of_words h)

theorem eq_of_simple (ht : t.Unique) (hsimple : t.Simple) (hu : u.Grammatical)
    (h : u.words = [t.text.toList]) :
    u = t := ht.eq_of_words hu (h.trans (words_of_simple hsimple).symm)

protected theorem binary {s : Symbol} (ul : l.Unique) (ur : r.Unique) (hl : l.Simple)
    (hr : r.Simple) :
    (binary s l r).Unique := by
  intro u hu h
  have hwords : u.words = [l.text.toList, s.text.toList, r.text.toList] := by
    rw [words_of_text h, words, words_of_simple hl, words_of_simple hr]
    rfl
  cases u with
  | binary s' l' r' =>
    obtain ⟨⟨-, hl'⟩, -, hr'⟩ := hu
    obtain ⟨hleft, hs, hright⟩ := split_three l'.words_ne_nil r'.words_ne_nil hwords
    rw [ul.eq_of_simple hl hl' hleft, ur.eq_of_simple hr hr' hright, Symbol.text_inj hs]
  | conditional c y n =>
    have := length_words_conditional c y n
    simp [hwords] at this
  | assign v x =>
    have hs : s.text.toList = ['='] := (List.cons.inj (List.cons.inj hwords).2).1.symm
    cases s <;> cases hs
  | _ => simp [words] at hwords

protected theorem assign {v : Variable} (ux : x.Unique) (hx : x.Simple) : (assign v x).Unique := by
  intro u hu h
  have hwords : u.words = [v.text.toList, ['='], x.text.toList] := by
    rw [words_of_text h, words, words_of_simple hx]
  cases u with
  | assign w x' =>
    obtain ⟨hv, hrest⟩ := List.cons.inj hwords
    have hx' : x'.Grammatical := hu
    rw [Variable.text_inj hv, ux.eq_of_simple hx hx' (List.cons.inj hrest).2]
  | binary s l r =>
    obtain ⟨-, hs, -⟩ := split_three l.words_ne_nil r.words_ne_nil hwords
    cases s <;> cases hs
  | conditional c y n =>
    have := length_words_conditional c y n
    simp [hwords] at this
  | _ => simp [words] at hwords

protected theorem conditional (uc : c.Unique) (uy : y.Unique) (un : n.Unique) (hc : c.Tight)
    (hgrammatical : c.Grammatical) (hy : y.Simple) (hn : n.Simple) :
    (conditional c y n).Unique := by
  have hquestion : ['?'] ∉ c.words := notMem_words hc hgrammatical (.inl rfl)
  have hassigns : ['='] ∉ c.words := notMem_words hc hgrammatical (.inr rfl)
  intro u hu h
  have hwords : u.words = c.words ++ ['?'] :: [y.text.toList, [':'], n.text.toList] := by
    rw [words_of_text h, words, words_of_simple hy, words_of_simple hn]
    rfl
  cases u with
  | conditional c' y' n' =>
    obtain ⟨⟨htight, hc'⟩, hy', hn'⟩ := hu
    obtain ⟨hcondition, harms⟩ :=
      append_cons_inj (notMem_words htight hc' (.inl rfl)) hquestion hwords
    obtain ⟨hyes, -, hno⟩ := split_three y'.words_ne_nil n'.words_ne_nil harms
    rw [uc.eq_of_words hc' hcondition, uy.eq_of_simple hy hy' hyes, un.eq_of_simple hn hn' hno]
  | binary s l r =>
    have htight : (binary s l r).Tight := trivial
    refine absurd ?_ (notMem_words htight hu (.inl rfl))
    rw [hwords]
    simp
  | assign v x =>
    -- The second word would be that of an assignment, but stands in a condition or after it.
    obtain ⟨w, ws, hw⟩ := List.exists_cons_of_ne_nil c.words_ne_nil
    rw [hw] at hwords hassigns
    have hsecond := (List.cons.inj hwords).2
    cases ws with
    | nil => cases hsecond
    | cons w' ws =>
      have hmem : ['='] = w' := (List.cons.inj hsecond).1
      exact absurd (by simp [hmem]) hassigns
  | _ =>
    have hlength := congrArg List.length hwords
    simp [words] at hlength

end Unique

/-! ### Operands -/

/-- What an operand is, as its first characters tell. -/
inductive Kind where
  | variable
  | pages
  | number
  | bigInteger
  | parens
  | call
  /-- No operand. -/
  | operator
deriving DecidableEq

def kind : Term → Kind
  | .variable _ => .variable
  | .memoryPages => .pages
  | .number _ => .number
  | .bigInteger _ => .bigInteger
  | .parens _ => .parens
  | .call .. => .call
  | _ => .operator

def literalKind (cs : List Char) : Kind := if 'n' ∈ cs then .bigInteger else .number

def kindOf : List Char → Kind
  | [] => .variable
  | c :: rest =>
    if c = '(' then if rest.head? = some '-' then literalKind rest else .parens
    else if c.isDigit then literalKind (c :: rest)
    else if '(' ∈ rest then .call
    else if '.' ∈ rest then .pages
    else .variable

theorem digits_notMem {cs : List Char} (h : Digits cs) {c : Char} (hc : c.isDigit = false) :
    c ∉ cs := by
  intro hmem
  rw [h.2 c hmem] at hc
  cases hc

theorem kindOf_digits {digits suffix : List Char} (h : Digits digits) :
    kindOf (digits ++ suffix) = if 'n' ∈ suffix then .bigInteger else .number := by
  obtain ⟨d, rest, rfl⟩ := List.exists_cons_of_ne_nil h.1
  have hd : d.isDigit := h.2 d List.mem_cons_self
  have hparens : d ≠ '(' := by
    rintro rfl
    cases hd
  have hmem : 'n' ∈ d :: rest ++ suffix ↔ 'n' ∈ suffix := by
    rw [List.mem_append]
    exact or_iff_right (digits_notMem h (by decide))
  rw [List.cons_append, kindOf, if_neg hparens, if_pos hd]
  exact if_congr hmem rfl rfl

theorem kindOf_negative {digits suffix : List Char} (h : Digits digits) :
    kindOf ('(' :: '-' :: (digits ++ suffix ++ [')'])) = if 'n' ∈ suffix then .bigInteger
      else .number := by
  have hn : 'n' ∉ digits := digits_notMem h (by decide)
  have hmem : 'n' ∈ '-' :: (digits ++ suffix ++ [')']) ↔ 'n' ∈ suffix := by simp [hn]
  exact if_congr hmem rfl rfl

theorem kindOf_literal (n : Int) (suffix : String) :
    kindOf (literalText n suffix).toList = if 'n' ∈ suffix.toList then .bigInteger
      else .number := by
  cases n with
  | ofNat n =>
    rw [Int.ofNat_eq_natCast, toList_literal_nonneg]
    exact kindOf_digits (digits_repr n)
  | negSucc n =>
    rw [toList_literal_neg]
    exact kindOf_negative (digits_repr (n + 1))

theorem kindOf_text {t : Term} (h : t.Simple) : kindOf t.text.toList = t.kind := by
  -- The first character tells the simple terms apart, but for a variable and a call.
  cases t with
  | «variable» v =>
    have hparens : '(' ∉ v.number.repr.toList := digits_notMem (digits_repr v.number) (by decide)
    have hdot : '.' ∉ v.number.repr.toList := digits_notMem (digits_repr v.number) (by decide)
    have htext : (Term.variable v).text.toList = v.letter :: v.number.repr.toList := v.toList_text
    rw [htext, kindOf, if_neg (by cases v <;> simp [Variable.letter]),
      if_neg (by cases v <;> simp [Variable.letter, Char.isDigit]), if_neg hparens, if_neg hdot]
    rfl
  | memoryPages => decide
  | number n => exact kindOf_literal n ""
  | bigInteger n => exact kindOf_literal n "n"
  | parens inner =>
    obtain ⟨c, rest, hstart, hc⟩ := inner.starts_text
    have hsign : c ≠ '-' := by
      rintro rfl
      revert hc
      decide
    rw [toList_parens, hstart, kindOf, if_pos rfl, if_neg (by simpa using hsign)]
    rfl
  | call c args =>
    obtain ⟨d, rest, hstart, hparens, hdigit⟩ := c.starts_text
    rw [toList_call, hstart, List.cons_append, kindOf, if_neg hparens, if_neg (by simp [hdigit]),
      if_pos (by simp)]
    rfl
  | binary | conditional | assign => exact h.elim

theorem kind_of_text {t u : Term} (ht : t.Simple) (h : u.text = t.text) : u.kind = t.kind := by
  have hsimple : u.Simple := simple_of_words ((words_of_text h).trans (words_of_simple ht))
  rw [← kindOf_text hsimple, ← kindOf_text ht, h]

theorem literalText_inj {m n : Int} {suffix : String}
    (h : (literalText m suffix).toList = (literalText n suffix).toList) : m = n := by
  -- A negative number starts with a bracket, and any other with a digit.
  have hsign (k l : Nat) :
      (literalText k suffix).toList ≠ (literalText (.negSucc l) suffix).toList := by
    rw [toList_literal_nonneg, toList_literal_neg]
    obtain ⟨d, rest, hdigits⟩ := List.exists_cons_of_ne_nil (digits_repr k).1
    have hd : d.isDigit := (digits_repr k).2 d (by simp [hdigits])
    rw [hdigits]
    intro h
    rw [(List.cons.inj h).1] at hd
    cases hd
  cases m with
  | ofNat m =>
    cases n with
    | ofNat n =>
      rw [Int.ofNat_eq_natCast, Int.ofNat_eq_natCast, toList_literal_nonneg,
        toList_literal_nonneg] at h
      rw [repr_inj (List.append_cancel_right h)]
    | negSucc n => exact absurd h (hsign m n)
  | negSucc m =>
    cases n with
    | ofNat n => exact absurd h.symm (hsign n m)
    | negSucc n =>
      rw [toList_literal_neg, toList_literal_neg] at h
      have hdigits :=
        List.append_cancel_right (List.append_cancel_right (List.cons.inj (List.cons.inj h).2).2)
      rw [Nat.succ.inj (repr_inj hdigits)]

namespace Unique

protected theorem «variable» (v : Variable) : (Term.variable v).Unique := by
  intro u _ h
  have hkind := kind_of_text (t := .variable v) trivial h
  cases u with
  | «variable» w => exact congrArg _ (Variable.text_inj (congrArg String.toList h))
  | _ => cases hkind

protected theorem memoryPages : memoryPages.Unique := by
  intro u _ h
  have hkind := kind_of_text (t := .memoryPages) trivial h
  cases u with
  | memoryPages => rfl
  | _ => cases hkind

protected theorem number (n : Int) : (number n).Unique := by
  intro u _ h
  have hkind := kind_of_text (t := .number n) trivial h
  cases u with
  | number m => exact congrArg _ (literalText_inj (congrArg String.toList h))
  | _ => cases hkind

protected theorem bigInteger (n : Int) : (bigInteger n).Unique := by
  intro u _ h
  have hkind := kind_of_text (t := .bigInteger n) trivial h
  cases u with
  | bigInteger m => exact congrArg _ (literalText_inj (congrArg String.toList h))
  | _ => cases hkind

protected theorem parens (ux : x.Unique) : (parens x).Unique := by
  intro u hu h
  have hkind := kind_of_text (t := .parens x) trivial h
  cases u with
  | parens y =>
    have htext := congrArg String.toList h
    rw [toList_parens, toList_parens] at htext
    have hinner := List.append_cancel_right (List.cons.inj htext).2
    have hy : y.Grammatical := hu
    rw [ux y hy (String.toList_inj.mp hinner)]
  | _ => cases hkind

theorem texts_eq {as bs : List Term} (h : ∀ b ∈ bs, b.Unique) (has : AllGrammatical as)
    (htexts : texts as = texts bs) : as = bs := by
  induction as generalizing bs with
  | nil =>
    cases bs with
    | nil => rfl
    | cons b bs => cases htexts
  | cons a as ih =>
    cases bs with
    | nil => cases htexts
    | cons b bs =>
      obtain ⟨hb, hbs⟩ := List.forall_mem_cons.mp h
      obtain ⟨htext, htexts⟩ := List.cons.inj htexts
      rw [hb a has.1 htext, ih hbs has.2 htexts]

/-- The arguments of a call come apart at the commas. -/
theorem texts_inj {as bs : List Term}
    (h : [',', ' '].intercalate ((texts as).map String.toList) =
      [',', ' '].intercalate ((texts bs).map String.toList)) :
    texts as = texts bs := by
  -- No term has an empty text, so only no arguments have none.
  have hne (t : Term) (ts : List Term) :
      [',', ' '].intercalate ((texts (t :: ts)).map String.toList) ≠ [] := by
    obtain ⟨c, rest, hstart, -⟩ := t.starts_text
    have htexts :
      (texts (t :: ts)).map String.toList = t.text.toList :: (texts ts).map String.toList := rfl
    rw [htexts, intercalate_cons, hstart]
    simp
  cases as with
  | nil =>
    cases bs with
    | nil => rfl
    | cons b bs => exact absurd h.symm (hne b bs)
  | cons a as =>
    cases bs with
    | nil => exact absurd h (hne a as)
    | cons b bs =>
      have hcomma : ',' ∈ [','] := List.mem_cons_self
      have hlists :=
        intercalate_inj hcomma (closed_texts _) (closed_texts _) (by simp [texts, textsWith])
          (by simp [texts, textsWith]) h
      exact List.map_injective_iff.mpr (fun _ _ => String.toList_inj.mp) hlists

protected theorem call {c : Callee} {args : List Term} (h : ∀ a ∈ args, a.Unique) :
    (call c args).Unique := by
  intro u hu htext
  have hkind := kind_of_text (t := .call c args) trivial htext
  cases u with
  | call d bs =>
    have hlist := congrArg String.toList htext
    rw [toList_call, toList_call] at hlist
    obtain ⟨hcallee, hargs⟩ := append_cons_inj d.parens_notMem_text c.parens_notMem_text hlist
    have hbs : AllGrammatical bs := hu
    rw [Callee.text_inj hcallee, texts_eq h hbs (texts_inj (List.append_cancel_right hargs))]
  | _ => cases hkind

end Unique

end Term

end WasmScript.Script
