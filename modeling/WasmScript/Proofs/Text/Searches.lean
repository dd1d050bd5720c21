/-
  WasmScript/Proofs/Text/Searches.lean
  ====================================
  **Searching scripts** — where certain words stand in a script, and the literals that stand with
  them.

  A `Search` goes through the tokens of a script.  It looks for forms of code, which are texts
  with a literal between each two, and gives the literals of every place where one of them stands.
  Reserved words may stand in a form only: a script that has one anywhere else is refused.

  A search passes over a text if none of its words begins there.  `Lacks` says so of a text
  whatever comes after it: no end of the text may even be the beginning of the word.  So two texts
  that lack a word lack it also when they are joined (`Lacks.append`).
-/
import Mathlib.Data.List.Infix
import WasmScript.Proofs.Text.Literals

namespace WasmScript

open WasmScript.Units (ofString)

/-! ### Words that do not occur -/

/-- A word does not begin anywhere in a list, neither as a whole nor with the end of the list inside
of it. -/
def Lacks {α : Type} (word list : List α) : Prop :=
  ∀ tail, tail <:+ list → tail ≠ [] → ¬ tail <+: word ∧ ¬ word <+: tail

namespace Lacks

variable {α : Type} {word list list' : List α}

theorem nil : Lacks word [] := fun _ htail hne => absurd (List.suffix_nil.mp htail) hne

theorem cons_iff {a : α} :
    Lacks word (a :: list) ↔ (¬ a :: list <+: word ∧ ¬ word <+: a :: list) ∧ Lacks word list := by
  constructor
  · intro h
    exact ⟨h _ List.suffix_rfl (List.cons_ne_nil a list), fun tail htail =>
      h tail (htail.trans (List.suffix_cons a list))⟩
  · rintro ⟨hwhole, hlist⟩ tail htail hne
    rcases List.suffix_cons_iff.mp htail with rfl | htail
    · exact hwhole
    · exact hlist tail htail hne

instance decidable [DecidableEq α] (word : List α) : ∀ list, Decidable (Lacks word list)
  | [] => .isTrue nil
  | _ :: list =>
    have := decidable word list
    decidable_of_iff _ cons_iff.symm

theorem suffix (h : Lacks word list) (hsuffix : list' <:+ list) : Lacks word list' :=
  fun tail htail => h tail (htail.trans hsuffix)

/-- A word that begins in a list that lacks it does not do so with the help of what comes next. -/
theorem not_prefix_append (h : Lacks word list) (hne : list ≠ []) (rest : List α) :
    ¬ word <+: list ++ rest := by
  intro hbegin
  obtain ⟨hshort, hlong⟩ := h list List.suffix_rfl hne
  rcases List.prefix_or_prefix_of_prefix hbegin (List.prefix_append list rest) with hword | hlist
  · exact hlong hword
  · exact hshort hlist

theorem append (h : Lacks word list) (h' : Lacks word list') : Lacks word (list ++ list') := by
  intro tail htail hne
  rcases List.suffix_or_suffix_of_suffix htail (List.suffix_append list list') with
    hback | ⟨front, rfl⟩
  · exact h' tail hback hne
  · cases front with
    | nil => exact h' _ List.suffix_rfl hne
    | cons a front =>
      have hfront := h.suffix ((List.suffix_append_inj_of_length_eq rfl).mp htail).1
      have hsome := List.cons_ne_nil a front
      constructor
      · intro hshort
        exact (hfront _ List.suffix_rfl hsome).1 ((List.prefix_append _ list').trans hshort)
      · exact hfront.not_prefix_append hsome list'

theorem map {β : Type} {f : α → β} (hf : Function.Injective f) (h : Lacks word list) :
    Lacks (word.map f) (list.map f) := by
  intro tail htail hne
  obtain ⟨back, hback, rfl⟩ := List.suffix_map_iff.mp htail
  obtain ⟨hshort, hlong⟩ := h back hback fun e => hne (by rw [e]; rfl)
  exact ⟨fun hs => hshort ((List.prefix_map_iff_of_injective hf).mp hs),
    fun hl => hlong ((List.prefix_map_iff_of_injective hf).mp hl)⟩

theorem of_forall_ne {a : α} (h : ∀ b ∈ list, b ≠ a) : Lacks (a :: word) list := by
  intro tail htail hne
  cases tail with
  | nil => exact absurd rfl hne
  | cons b tail =>
    have hb : b ≠ a := h b (htail.subset List.mem_cons_self)
    exact ⟨fun hshort => hb (List.cons_prefix_cons.mp hshort).1,
      fun hlong => hb (List.cons_prefix_cons.mp hlong).1.symm⟩

end Lacks

namespace Lexer

/-! ### Forms of code -/

/-- The tokens of a text in which neither a literal nor a comment stands. -/
def code (text : String) : List Token := (ofString text).map Token.unit

def after? (text : String) (ts : List Token) : Option (List Token) := (code text).isPrefixOf? ts

theorem after?_append (text : String) (ts : List Token) : after? text (code text ++ ts) = some ts :=
  List.isPrefixOf?_eq_some_iff_append_eq.mpr rfl

theorem after?_eq_none_iff {text : String} {ts : List Token} : after? text ts = none ↔
    ¬ code text <+: ts := by
  rw [← Option.not_isSome_iff_eq_none, after?, Option.isSome_iff_exists]
  exact not_congr (exists_congr fun rest => List.isPrefixOf?_eq_some_iff_append_eq)

theorem unit_injective : Function.Injective Token.unit := fun _ _ h => Token.unit.inj h

theorem code_prefix_iff {text text' : String} :
    code text <+: code text' ↔ ofString text <+: ofString text' :=
  List.prefix_map_iff_of_injective unit_injective

/-- Texts with a literal between each two of them. -/
structure Form where
  first : String
  more : List String := []
deriving DecidableEq, Repr

namespace Form

/-- The literals before each of some texts, and what comes after the last one. -/
def takeMore : List String → List Token → Option (List (List Nat) × List Token)
  | text :: texts, .literal value :: ts => do
    let ts ← after? text ts
    let (values, ts) ← takeMore texts ts
    pure (value :: values, ts)
  | [], ts => some ([], ts)
  | _ :: _, _ => none

/-- The literals in a form that comes first, and what comes after it. -/
def take? (f : Form) (ts : List Token) : Option (List (List Nat) × List Token) := do
  let ts ← after? f.first ts
  takeMore f.more ts

def spellMore : List String → List (List Nat) → List Token
  | text :: texts, value :: values => .literal value :: (code text ++ spellMore texts values)
  | _, _ => []

/-- The tokens of a form with certain literals. -/
def spell (f : Form) (values : List (List Nat)) :
    List Token := code f.first ++ spellMore f.more values

def printMore : List String → List String → String
  | text :: texts, value :: values => Quoted.encode value ++ (text ++ printMore texts values)
  | _, _ => ""

/-- The text of a form with certain literals. -/
def print (f : Form) (values : List String) : String := f.first ++ printMore f.more values

theorem print_one_append {first last value tail text : String} (h : text = last ++ tail) :
    print ⟨first, [last]⟩ [value] ++ tail = first ++ Quoted.encode value ++ text := by
  rw [h]
  simp only [print, printMore, String.append_empty, String.append_assoc]

theorem append_print_two {head first middle last value value' text : String}
    (h : text = head ++ first) :
    head ++ print ⟨first, [middle, last]⟩ [value, value']
      = text ++ Quoted.encode value ++ middle ++ Quoted.encode value' ++ last := by
  rw [h]
  simp only [print, printMore, String.append_empty, String.append_assoc]

theorem takeMore_spellMore {texts : List String} {values : List (List Nat)}
    (h : values.length = texts.length) (ts : List Token) :
    takeMore texts (spellMore texts values ++ ts) = some (values, ts) := by
  induction texts generalizing values with
  | nil =>
    obtain rfl := List.eq_nil_of_length_eq_zero h
    rfl
  | cons text texts ih =>
    obtain ⟨value, values, rfl⟩ := List.exists_cons_of_length_eq_add_one h
    rw [spellMore, List.cons_append, List.append_assoc, takeMore, after?_append]
    simp only [Option.bind_eq_bind, Option.bind_some]
    rw [ih (Nat.succ.inj h)]
    rfl

theorem take?_spell {f : Form} {values : List (List Nat)} (h : values.length = f.more.length)
    (ts : List Token) :
    f.take? (f.spell values ++ ts) = some (values, ts) := by
  rw [take?, spell, List.append_assoc, after?_append]
  exact takeMore_spellMore h ts

theorem take?_eq_none {f : Form} {ts : List Token} (h : ¬ code f.first <+: ts) :
    f.take? ts = none := by
  rw [take?, after?_eq_none_iff.mpr h]
  rfl

end Form

/-! ### Searches -/

/-- Two texts of which neither is the beginning of the other. -/
def Apart (text text' : String) :
    Prop := ¬ ofString text <+: ofString text' ∧ ¬ ofString text' <+: ofString text

instance (text text' : String) : Decidable (Apart text text') := inferInstanceAs (Decidable (_ ∧ _))

/-- What is looked for in a script. -/
structure Search where
  forms : List Form
  /-- The words that may not stand outside of a form. -/
  reserved : List String
  apart : forms.Pairwise fun f g => Apart f.first g.first
  begins : ∀ f ∈ forms, ∃ w ∈ reserved, ofString w <+: ofString f.first
  reserved_ne : ∀ w ∈ reserved, ofString w ≠ []

namespace Search

variable (s : Search)

/-- A text in which no reserved word begins. -/
def Passes (text : String) : Prop := ∀ w ∈ s.reserved, Lacks (ofString w) (ofString text)

instance (text : String) : Decidable (s.Passes text) :=
  inferInstanceAs (Decidable (∀ w ∈ s.reserved, Lacks (ofString w) (ofString text)))

def form? (ts : List Token) : Option (List (List Nat) × List Token) :=
  s.forms.findSome? (·.take? ts)

/-- The literals of each form in some tokens, of which so many are passed over first; nothing if a
reserved word stands outside of a form. -/
def findFrom : Nat → List Token → Option (List (List (List Nat)))
  | _, [] => some []
  | n + 1, _ :: ts => findFrom n ts
  | 0, t :: ts =>
    match s.form? (t :: ts) with
    | some (values, rest) => (values :: ·) <$> findFrom (ts.length - rest.length) ts
    | none => if s.reserved.any fun w => (code w).isPrefixOf (t :: ts) then none else findFrom 0 ts

def find (ts : List Token) : Option (List (List (List Nat))) := s.findFrom 0 ts

/-- The literals of each form in a script. -/
def read (units : List Nat) : Option (List (List (List Nat))) := (tokens .code units).bind s.find

variable {s}

theorem findFrom_length (front ts : List Token) :
    s.findFrom front.length (front ++ ts) = s.find ts := by
  induction front with
  | nil => rfl
  | cons t front ih =>
    rw [List.length_cons, List.cons_append, findFrom]
    exact ih

/-- A token is passed over if no reserved word begins with it. -/
theorem find_cons {t : Token} {ts : List Token} (h : ∀ w ∈ s.reserved, ¬ code w <+: t :: ts) :
    s.find (t :: ts) = s.find ts := by
  have hform : s.form? (t :: ts) = none := by
    refine List.findSome?_eq_none_iff.mpr fun f hf => Form.take?_eq_none fun hbegin => ?_
    obtain ⟨w, hw, hbegins⟩ := s.begins f hf
    exact h w hw ((code_prefix_iff.mpr hbegins).trans hbegin)
  have hreserved : (s.reserved.any fun w => (code w).isPrefixOf (t :: ts)) = false := by
    refine List.any_eq_false.mpr fun w hw => ?_
    rw [List.isPrefixOf_iff_prefix]
    exact h w hw
  rw [find, findFrom, hform]
  dsimp only
  rw [hreserved, if_neg Bool.false_ne_true]
  rfl

theorem Passes.append {text text' : String} (h : s.Passes text) (h' : s.Passes text') :
    s.Passes (text ++ text') := by
  intro w hw
  rw [Units.ofString_append]
  exact (h w hw).append (h' w hw)

theorem Passes.find_append {text : String} (h : s.Passes text) (ts : List Token) :
    s.find (code text ++ ts) = s.find ts := by
  have hlacks : ∀ w ∈ s.reserved, Lacks (code w) (code text) :=
    fun w hw => (h w hw).map unit_injective
  generalize code text = front at hlacks ⊢
  induction front with
  | nil => rfl
  | cons t front ih =>
    have hhead : ∀ w ∈ s.reserved, ¬ code w <+: t :: (front ++ ts) :=
      fun w hw => (hlacks w hw).not_prefix_append (List.cons_ne_nil t front) ts
    rw [List.cons_append, find_cons hhead]
    exact ih fun w hw => (hlacks w hw).suffix (List.suffix_cons t front)

theorem find_literal_cons (value : List Nat) (ts : List Token) :
    s.find (.literal value :: ts) = s.find ts := by
  refine find_cons fun w hw hbegin => ?_
  obtain ⟨u, units, hunits⟩ := List.exists_cons_of_ne_nil (s.reserved_ne w hw)
  rw [code, hunits, List.map_cons] at hbegin
  cases (List.cons_prefix_cons.mp hbegin).1

theorem form?_spell {f : Form} (hf : f ∈ s.forms) {values : List (List Nat)}
    (h : values.length = f.more.length) (ts : List Token) :
    s.form? (f.spell values ++ ts) = some (values, ts) := by
  have happart := s.apart
  have hbegin (g : Form) (hg : Apart g.first f.first) :
      ¬ code g.first <+: f.spell values ++ ts := by
    intro hstart
    rw [Form.spell, List.append_assoc] at hstart
    rcases List.prefix_or_prefix_of_prefix hstart (List.prefix_append _ _) with hshort | hlong
    · exact hg.1 (code_prefix_iff.mp hshort)
    · exact hg.2 (code_prefix_iff.mp hlong)
  unfold form?
  generalize s.forms = forms at hf happart
  induction forms with
  | nil => cases hf
  | cons g forms ih =>
    obtain ⟨hhead, htail⟩ := List.pairwise_cons.mp happart
    rcases List.mem_cons.mp hf with rfl | hf
    · rw [List.findSome?_cons, Form.take?_spell h]
    · rw [List.findSome?_cons, Form.take?_eq_none (hbegin g (hhead f hf))]
      exact ih hf htail

/-- A form is found where it stands. -/
theorem find_spell_append {f : Form} (hf : f ∈ s.forms) {values : List (List Nat)}
    (h : values.length = f.more.length) (ts : List Token) :
    s.find (f.spell values ++ ts) = (values :: ·) <$> s.find ts := by
  have hform := form?_spell hf h ts
  have hne : ofString f.first ≠ [] := by
    obtain ⟨w, hw, hbegins⟩ := s.begins f hf
    intro hnil
    rw [hnil, List.prefix_nil] at hbegins
    exact s.reserved_ne w hw hbegins
  cases hspell : f.spell values with
  | nil =>
    rw [Form.spell, code] at hspell
    exact absurd (List.map_eq_nil_iff.mp (List.append_eq_nil_iff.mp hspell).1) hne
  | cons t front =>
    rw [hspell, List.cons_append] at hform
    have hlength : (front ++ ts).length - ts.length = front.length := by
      rw [List.length_append, Nat.add_sub_cancel]
    rw [List.cons_append, find, findFrom, hform]
    dsimp only
    rw [hlength, findFrom_length]

end Search

end Lexer

end WasmScript
