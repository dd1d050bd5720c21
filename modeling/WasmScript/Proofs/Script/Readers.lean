/-
  WasmScript/Proofs/Script/Readers.lean
  =====================================
  **Readers of scripts** — what whoever goes through the tokens of a script finds there.

  A `TokenReader` finds things in tokens: all literals, say, or the literals that are passed to
  certain calls.  It passes over code in which nothing of interest stands (`Inert`).  All code of
  a script is of that kind but for the lines that bind the imports and those that hand out the
  exports.  So what a reader finds in a script is what it finds in the beginnings of those lines,
  with the literals around them: `Headings.read_text`.

  Expressions, statements and functions are gone through once, for all readers.
-/
import WasmScript.Proofs.Text.Searches
import WasmScript.Script.Program

namespace WasmScript

open WasmScript.Units (ofString ofChar ofString_append)
open Lexer (Form Token Search code tokens)

/-! ### Pieces of code -/

theorem ofString_lt (s : String) : ∀ u ∈ ofString s, u < 0x10000 := by
  intro u hu
  obtain ⟨c, -, hu⟩ := List.mem_flatMap.mp hu
  exact Quoted.ofChar_lt c u hu

/-- A piece of code in which neither a literal nor a comment starts. -/
def Plain (s : String) : Prop := ∀ c ∈ s.toList, c ≠ '"' ∧ c ≠ '/'

instance (s : String) : Decidable (Plain s) := List.decidableBAll _ s.toList

namespace Plain

variable {s t : String}

theorem append (hs : Plain s) (ht : Plain t) : Plain (s ++ t) := by
  intro c hc
  rcases List.mem_append.mp (by simpa using hc) with hc | hc
  · exact hs c hc
  · exact ht c hc

theorem ofChar_plain {c : Char} (hquote : c ≠ '"') (hslash : c ≠ '/') :
    ∀ u ∈ ofChar c, u ≠ Lexer.quote ∧ u ≠ Lexer.slash := by
  intro u hu
  have hnat (d : Char) (hd : c ≠ d) : c.toNat ≠ d.toNat := fun e => hd (by
    rw [← Char.ofNat_toNat c, e, Char.ofNat_toNat])
  unfold ofChar at hu
  simp only at hu
  split at hu
  · rw [List.mem_singleton.mp hu]
    exact ⟨hnat '"' hquote, hnat '/' hslash⟩
  · rcases Quoted.surrogate?_cases c with hnone | ⟨v, hv, -, hhalf⟩
    · simp only [hnone, Units.split, List.mem_cons, List.not_mem_nil, or_false] at hu
      simp only [Lexer.quote, Lexer.slash, ne_eq]
      omega
    · simp only [hv, List.mem_singleton] at hu
      subst hu
      refine ⟨(Quoted.plain_of_surrogate hhalf).1, ?_⟩
      rintro rfl
      cases hhalf

/-- The tokens of plain code are its units. -/
theorem tokens_append (h : Plain s) (rest : List Nat) :
    tokens .code (ofString s ++ rest) = (code s ++ ·) <$> tokens .code rest := by
  have hunits : ∀ u ∈ ofString s, u ≠ Lexer.quote ∧ u ≠ Lexer.slash := by
    intro u hu
    obtain ⟨c, hc, hu⟩ := List.mem_flatMap.mp hu
    exact ofChar_plain (h c hc).1 (h c hc).2 u hu
  rw [code]
  generalize ofString s = units at hunits ⊢
  induction units with
  | nil => simp
  | cons u units ih =>
    obtain ⟨hquote, hslash⟩ := hunits u (by simp)
    rw [List.cons_append, tokens, if_neg hquote, if_neg hslash, ih fun v hv =>
      hunits v (List.mem_cons_of_mem u hv)]
    simp [Function.comp_def]

end Plain

/-! ### Code that names nothing -/

namespace Script

/-! The forms of code that bind imports and that have to do with the exports object. -/

def bindImportForm : Form := ⟨"rt.bindImport(imports, ", [", ", ", "]⟩
def bindMemoryForm : Form := ⟨"rt.bindMemory(imports, ", [", ", ", "]⟩
def createForm : Form := ⟨"exports = Object.create(null);", []⟩
def assignForm : Form := ⟨"exports[", ["] = "]⟩
def defineForm : Form := ⟨"Object.defineProperty(exports, ", [", "]⟩
def freezeForm : Form := ⟨"Object.freeze(exports);", []⟩

/-- The calls that bind the imports of a script, with the module and the field that they are
passed. -/
def bindings : Search where
  forms := [bindImportForm, bindMemoryForm]
  reserved := ["rt.bind", "bind"]
  apart := by decide
  begins := by decide
  reserved_ne := by decide

/-- All that is done with the exports object of a script, with the keys that are defined on it. -/
def definitions : Search where
  forms := [createForm, assignForm, defineForm, freezeForm]
  reserved := ["exports", "Object."]
  apart := by decide
  begins := by decide
  reserved_ne := by decide

end Script

/-- A piece of code without literals and comments that has to do with neither the imports nor the
exports. -/
def Inert (s : String) : Prop := Plain s ∧ Script.bindings.Passes s ∧ Script.definitions.Passes s

instance (s : String) : Decidable (Inert s) := inferInstanceAs (Decidable (_ ∧ _ ∧ _))

namespace Inert

variable {s t : String}

theorem append (hs : Inert s) (ht : Inert t) : Inert (s ++ t) :=
  ⟨hs.1.append ht.1, hs.2.1.append ht.2.1, hs.2.2.append ht.2.2⟩

/-- No reserved word begins with a blank or a digit. -/
theorem of_forall (h : ∀ c ∈ s.toList, c = ' ' ∨ c.isDigit) : Inert s := by
  have hunits : ∀ u ∈ ofString s, u = 0x20 ∨ 0x30 ≤ u ∧ u ≤ 0x39 := by
    intro u hu
    obtain ⟨c, hc, hu⟩ := List.mem_flatMap.mp hu
    have hnat : c.toNat = 0x20 ∨ 0x30 ≤ c.toNat ∧ c.toNat ≤ 0x39 := by
      rcases h c hc with rfl | hdigit
      · exact .inl rfl
      · exact .inr (Char.isDigit_iff_toNat.mp hdigit)
    have hsmall : c.toNat < 0x10000 := by omega
    rw [ofChar, if_pos hsmall, List.mem_singleton] at hu
    exact hu ▸ hnat
  -- A reserved word starts with a letter, which is neither.
  have hlacks (a : Nat) (word : List Nat) (ha : ¬ (a = 0x20 ∨ 0x30 ≤ a ∧ a ≤ 0x39)) :
      Lacks (a :: word) (ofString s) :=
    .of_forall_ne fun u hu e => ha (e ▸ hunits u hu)
  refine ⟨?_, ?_, ?_⟩
  · intro c hc
    constructor
    · rintro rfl
      simpa using h _ hc
    · rintro rfl
      simpa using h _ hc
  · intro w hw
    simp only [Script.bindings, List.mem_cons, List.not_mem_nil, or_false] at hw
    rcases hw with rfl | rfl
    · exact hlacks 0x72 _ (by decide)
    · exact hlacks 0x62 _ (by decide)
  · intro w hw
    simp only [Script.definitions, List.mem_cons, List.not_mem_nil, or_false] at hw
    rcases hw with rfl | rfl
    · exact hlacks 0x65 _ (by decide)
    · exact hlacks 0x4f _ (by decide)

theorem nat (n : Nat) : Inert (toString n) := by
  refine of_forall fun c hc =>
    .inr (Nat.isDigit_of_mem_toDigits (by decide) (Nat.le_refl 10) (n := n) ?_)
  rwa [← Nat.toList_repr]

theorem int (n : Int) : Inert (toString n) := by
  cases n with
  | ofNat n => exact nat n
  | negSucc n => exact append (s := "-") (by decide) (nat (n + 1))

theorem intercalate {sep : String} (hsep : Inert sep) {texts : List String}
    (h : ∀ t ∈ texts, Inert t) : Inert (sep.intercalate texts) := by
  induction texts with
  | nil => exact of_forall (by simp)
  | cons t rest ih =>
    cases rest with
    | nil => simpa using h t (by simp)
    | cons u rest =>
      rw [String.intercalate_cons_cons]
      exact ((h t (by simp)).append hsep).append (ih fun v hv => h v (List.mem_cons_of_mem t hv))

end Inert

/-! ### Readers -/

/-- A way of finding things in the tokens of a script. -/
structure TokenReader (β : Type) where
  find : List Token → Option (List β)
  /-- What is found in a literal. -/
  ofLiteral : List Nat → List β
  find_nil : find [] = some []
  find_code : ∀ {text : String}, Inert text → ∀ ts, find (code text ++ ts) = find ts
  find_literal : ∀ text ts, find (.literal text :: ts) = (ofLiteral text ++ ·) <$> find ts

namespace TokenReader

theorem literals_code_append (text : String) (ts : List Token) :
    Token.literals (code text ++ ts) = Token.literals ts := by
  have hnone : Token.literals (code text) = [] := by
    refine List.filterMap_eq_nil_iff.mpr fun t ht => ?_
    obtain ⟨u, -, rfl⟩ := List.mem_map.mp ht
    rfl
  rw [Token.literals, List.filterMap_append]
  exact congrArg (· ++ _) hnone

def literals : TokenReader (List Nat) where
  find ts := some (Token.literals ts)
  ofLiteral text := [text]
  find_nil := rfl
  find_code {text} _ ts := congrArg some (literals_code_append text ts)
  find_literal _ _ := rfl

def ofSearch (s : Search) (h : ∀ {text : String}, Inert text → s.Passes text) :
    TokenReader (List (List Nat)) where
  find := s.find
  ofLiteral _ := []
  find_nil := rfl
  find_code htext := (h htext).find_append
  find_literal text ts := by
    rw [Search.find_literal_cons]
    simp

variable {β : Type} (R : TokenReader β)

def read (units : List Nat) : Option (List β) := (tokens .code units).bind R.find

theorem read_literals (units : List Nat) : literals.read units = Lexer.scan .code units := by
  rw [read, Lexer.scan, Option.map_eq_map, Option.map_eq_bind]
  rfl

end TokenReader

/-- A reader finds some things in a piece of code and then goes on in the code after it. -/
def Reads {β : Type} (R : TokenReader β) (s : String) (found : List β) : Prop :=
  ∀ rest, R.read (ofString s ++ rest) = (found ++ ·) <$> R.read rest

section

variable {β : Type} {R : TokenReader β} {s t : String} {found found' : List β}

theorem Plain.reads (h : Plain s)
    (hfind : ∀ ts, R.find (code s ++ ts) = (found ++ ·) <$> R.find ts) :
    Reads R s found := by
  intro rest
  rw [TokenReader.read, TokenReader.read, h.tokens_append]
  cases tokens .code rest with
  | none => rfl
  | some ts => exact hfind ts

theorem Inert.reads (h : Inert s) : Reads R s [] := by
  refine h.1.reads fun ts => ?_
  rw [R.find_code h]
  simp

namespace Reads

theorem append (hs : Reads R s found) (ht : Reads R t found') :
    Reads R (s ++ t) (found ++ found') := by
  intro rest
  rw [ofString_append, List.append_assoc, hs, ht]
  simp [Function.comp_def, List.append_assoc]

/-- Inert code after a piece. -/
theorem inert (hs : Reads R s found) (ht : Inert t) : Reads R (s ++ t) found := by
  simpa using hs.append ht.reads

/-- Inert code ahead of a piece. -/
theorem after (hs : Inert s) (ht : Reads R t found) : Reads R (s ++ t) found := hs.reads.append ht

/-- A quoted text is read as the literal with that value. -/
theorem encode (s : String) : Reads R (Quoted.encode s) (R.ofLiteral (ofString s)) := by
  intro rest
  rw [Quoted.ofString_encode, TokenReader.read, TokenReader.read,
    Quoted.tokens_quoted _ (ofString_lt s)]
  cases tokens .code rest with
  | none => rfl
  | some ts => exact R.find_literal _ ts

theorem intercalate {sep : String} (hsep : Inert sep) {α : Type} {items : List α}
    {text : α → String} {value : α → List β} (h : ∀ a ∈ items, Reads R (text a) (value a)) :
    Reads R (sep.intercalate (items.map text)) (items.flatMap value) := by
  induction items with
  | nil => exact Inert.reads (.of_forall (by simp))
  | cons a rest ih =>
    cases rest with
    | nil => simpa using h a (by simp)
    | cons b rest =>
      rw [List.map_cons, List.map_cons, String.intercalate_cons_cons, List.flatMap_cons]
      exact ((h a (by simp)).inert hsep).append (ih fun c hc => h c (List.mem_cons_of_mem a hc))

/-- A form is read by its literals if nothing is found in its texts. -/
theorem print {f : Form} (hfirst : Reads R f.first []) (hmore : ∀ t ∈ f.more, Reads R t [])
    {values : List String} (h : values.length = f.more.length) :
    Reads R (f.print values) (values.flatMap fun value => R.ofLiteral (ofString value)) := by
  rw [Form.print, ← List.nil_append (values.flatMap _)]
  refine hfirst.append ?_
  generalize f.more = texts at hmore h ⊢
  induction texts generalizing values with
  | nil =>
    obtain rfl := List.eq_nil_of_length_eq_zero h
    exact Inert.reads (.of_forall (by simp [Form.printMore]))
  | cons text texts ih =>
    obtain ⟨value, values, rfl⟩ := List.exists_cons_of_length_eq_add_one h
    have hrest := ih (fun t ht => hmore t (List.mem_cons_of_mem text ht)) (Nat.succ.inj h)
    exact (encode value).append ((hmore text List.mem_cons_self).append hrest)

end Reads

/-- The tokens of a form whose texts are plain. -/
theorem tokens_print {f : Form} (hfirst : Plain f.first) (hmore : ∀ t ∈ f.more, Plain t)
    {values : List String} (h : values.length = f.more.length) (rest : List Nat) :
    tokens .code (ofString (f.print values) ++ rest)
      = (f.spell (values.map ofString) ++ ·) <$> tokens .code rest := by
  have hjoin (texts : List String) (hmore : ∀ t ∈ texts, Plain t) : ∀ values : List String,
      values.length = texts.length → tokens .code (ofString (Form.printMore texts values) ++ rest)
        = (Form.spellMore texts (values.map ofString) ++ ·) <$> tokens .code rest := by
    induction texts with
    | nil =>
      intro values h
      obtain rfl := List.eq_nil_of_length_eq_zero h
      simp [Form.printMore, Form.spellMore, ofString]
    | cons text texts ih =>
      intro values h
      obtain ⟨value, values, rfl⟩ := List.exists_cons_of_length_eq_add_one h
      rw [Form.printMore, ofString_append, ofString_append, List.append_assoc, List.append_assoc,
        Quoted.ofString_encode, Quoted.tokens_quoted _ (ofString_lt value),
        (hmore text List.mem_cons_self).tokens_append,
        ih (fun t ht => hmore t (List.mem_cons_of_mem text ht)) values (Nat.succ.inj h)]
      simp [Form.spellMore, Function.comp_def]
  rw [Form.print, ofString_append, List.append_assoc, hfirst.tokens_append, hjoin _ hmore values h]
  simp [Form.spell, Function.comp_def]

end

namespace Script

/-! ### Expressions and statements -/

theorem inert_name (letter : String) (h : Inert letter) (n : Nat) : Inert (letter ++ toString n) :=
  h.append (.nat n)

theorem Variable.inert_text (v : Variable) : Inert v.text := by
  cases v with
  | localVar i => exact inert_name "l" (by decide) i
  | tempVar i => exact inert_name "t" (by decide) i
  | globalVar i => exact inert_name "g" (by decide) i

theorem inert_functionName (index : Nat) : Inert (functionName index) :=
  inert_name "f" (by decide) index

theorem inert_labelName (label : Int) : Inert (labelName label) :=
  Inert.append (s := "L") (by decide) (.int label)

theorem Callee.inert_text (callee : Callee) : Inert (callee.text ++ "(") := by
  cases callee with
  | function index => exact (inert_functionName index).append (by decide)
  | helper h => cases h <;> decide
  | access accessor => cases accessor <;> decide
  | _ => decide

theorem Symbol.inert_text (symbol : Symbol) : Inert symbol.text := by
  cases symbol <;> decide

namespace Term

theorem inert_literalText (n : Int) {suffix : String} (h : Inert suffix) :
    Inert (literalText n suffix) := by
  unfold literalText
  simp only
  split
  · exact (Inert.append (by decide) ((Inert.int n).append h)).append (by decide)
  · exact (Inert.int n).append h

mutual
theorem inert_text (t : Term) : Inert t.text := by
  unfold text
  -- The induction is on the term: a text that is put together of inert ones is inert.
  cases t with
  | «variable» v => exact v.inert_text
  | memoryPages => decide
  | number n => exact inert_literalText n (by decide)
  | bigInteger n => exact inert_literalText n (by decide)
  | parens inner =>
    rw [textWith]
    exact (Inert.append (by decide) (inert_text inner)).append (by decide)
  | binary symbol left right =>
    have hblank : Inert " " := by decide
    rw [textWith]
    exact ((((inert_text left).append hblank).append symbol.inert_text).append hblank).append
      (inert_text right)
  | conditional condition yes no =>
    rw [textWith]
    exact ((((inert_text condition).append (by decide)).append (inert_text yes)).append
      (by decide)).append (inert_text no)
  | assign v value =>
    rw [textWith]
    exact (v.inert_text.append (by decide)).append (inert_text value)
  | call callee args =>
    rw [textWith]
    exact (callee.inert_text.append (.intercalate (by decide) (inert_texts args))).append
      (by decide)

theorem inert_texts (ts : List Term) : ∀ s ∈ texts ts, Inert s := by
  unfold texts
  cases ts with
  | nil => simp [textsWith]
  | cons t ts =>
    rw [textsWith]
    intro s hs
    rcases List.mem_cons.mp hs with rfl | hs
    · exact inert_text t
    · exact inert_texts ts s hs
end

end Term

theorem inert_bracketed {texts : List String} (h : ∀ t ∈ texts, Inert t) :
    Inert (bracketed texts) :=
  (Inert.append (by decide) (.intercalate (by decide) h)).append (by decide)

theorem Jump.inert_text (j : Jump) : Inert j.text := by
  unfold text
  split
  · decide
  · next value => exact (Inert.append (by decide) value.inert_text).append (by decide)
  · exact (Inert.append (by decide) (inert_bracketed (Term.inert_texts _))).append (by decide)
  · exact (Inert.append (by decide) (inert_labelName _)).append (by decide)
  · exact (Inert.append (by decide) (inert_labelName _)).append (by decide)

theorem inert_tempNames (ids : List Nat) : ∀ s ∈ ids.map tempName, Inert s := by
  intro s hs
  obtain ⟨id, -, rfl⟩ := List.mem_map.mp hs
  exact Variable.inert_text (.tempVar id)

theorem inert_boundText (ids : List Nat) : Inert (boundText ids) := by
  unfold boundText
  split
  · next id => exact Variable.inert_text (.tempVar id)
  · exact inert_bracketed (inert_tempNames _)

theorem inert_assignmentText (ids : List Nat) (values : List Term) :
    Inert (assignmentText ids values) := by
  unfold assignmentText
  split
  · next id =>
    have hvalue : Inert ((Term.texts values).head?.getD "undefined") := by
      cases h : (Term.texts values).head? with
      | none => decide
      | some s => exact Term.inert_texts values s (List.mem_of_mem_head? h)
    exact (((Variable.inert_text (.tempVar id)).append (by decide)).append hvalue).append
      (by decide)
  · exact (((inert_bracketed (inert_tempNames _)).append (by decide)).append
      (inert_bracketed (Term.inert_texts values))).append (by decide)

end Script

/-! ### Sheets -/

section

variable {β : Type} {R : TokenReader β} {found : List β}

/-- A reader finds some things in a line and is back in the code after it. -/
def ReadsLine (R : TokenReader β) (line : String) (found : List β) : Prop :=
  ∀ rest, R.read (ofString line ++ 0x0a :: rest) = (found ++ ·) <$> R.read rest

theorem Reads.line {line : String} (h : Reads R line found) : ReadsLine R line found := by
  have hbreak : Inert "\n" := by decide
  intro rest
  rw [h]
  exact congrArg ((found ++ ·) <$> ·) ((hbreak.reads rest).trans (by simp))

/-- A line comment is left at the end of its line, and not before. -/
theorem readsLine_comment {text : String} (h : ∀ u ∈ ofString text, Lexer.endsLine u = false) :
    ReadsLine R ("//" ++ text) [] := by
  have inside (units rest : List Nat) (hunits : ∀ u ∈ units, Lexer.endsLine u = false) :
      tokens .comment (units ++ 0x0a :: rest) = tokens .code (0x0a :: rest) := by
    induction units with
    | nil => simp [tokens, Lexer.endsLine]
    | cons u units ih =>
      rw [List.cons_append, tokens.eq_def .comment]
      dsimp only
      rw [hunits u (by simp), if_neg Bool.false_ne_true]
      exact ih fun v hv => hunits v (List.mem_cons_of_mem u hv)
  intro rest
  have spelled : ofString ("//" ++ text) = 0x2f :: 0x2f :: ofString text := by
    rw [ofString_append]
    rfl
  have hempty : Inert "" := by decide
  refine Eq.trans ?_ (hempty.reads.line rest)
  rw [spelled, List.cons_append, List.cons_append, TokenReader.read, tokens, if_neg (by decide),
    if_pos rfl, tokens, if_neg (by decide), if_pos rfl, inside _ _ h]
  rfl

end

namespace Sheet

variable {β : Type} {R : TokenReader β} {found found' : List β}

/-- A reader of the lines of a sheet finds some things. -/
def Holds (R : TokenReader β) (s : Sheet) (found : List β) : Prop :=
  ∀ rest, R.read (s.lines.flatMap (fun line => ofString line ++ [0x0a]) ++ rest) =
    (found ++ ·) <$> R.read rest

/-- What is written adds some things to those that are found. -/
def Writes (R : TokenReader β) (write : Sheet → Sheet) (found : List β) : Prop :=
  ∀ (s : Sheet) (before : List β), s.Holds R before → (write s).Holds R (before ++ found)

theorem holds_blank : blank.Holds R [] := by
  intro rest
  simp [blank, lines]

/-- The text of a sheet is read as its lines are. -/
theorem Holds.text {s : Sheet} (h : s.Holds R found) : R.read (ofString s.text) = some found := by
  -- There is a line break after each line, also after the last one.
  have joined (lines : List String) (hne : lines ≠ []) :
      ofString ("\n".intercalate lines ++ "\n") = lines.flatMap fun line =>
        ofString line ++ [0x0a] := by
    induction lines with
    | nil => exact absurd rfl hne
    | cons line rest ih =>
      cases rest with
      | nil =>
        rw [ofString_append]
        simp [ofString, Units.ofChar]
      | cons next rest =>
        rw [String.intercalate_cons_cons, String.append_assoc, ofString_append, ih (by simp),
          ofString_append]
        rfl
  have hend : R.read [] = some [] := R.find_nil
  have hread := h []
  rw [List.append_nil, hend, Option.map_eq_map, Option.map_some, List.append_nil] at hread
  by_cases hne : s.lines = []
  · -- A sheet without lines is a single line break.
    have hbreak : Inert "\n" := by decide
    have hblank := hbreak.reads (R := R) []
    rw [List.append_nil, hend] at hblank
    rw [hne] at hread
    rw [Sheet.text, hne]
    exact hblank.trans (hend.symm.trans hread)
  · rw [Sheet.text, joined _ hne]
    exact hread

namespace Writes

variable {write write' : Sheet → Sheet}

theorem refl : Writes R (fun s => s) [] := by
  intro s before h
  simpa using h

theorem comp (h : Writes R write found) (h' : Writes R write' found') :
    Writes R (fun s => write' (write s)) (found ++ found') := by
  intro s before hs
  simpa using h' _ _ (h s before hs)

theorem line {text : String} (h : ReadsLine R text found) : Writes R (Sheet.line text) found := by
  have hmargin (depth : Nat) : Inert (margin depth) := by
    refine .of_forall fun c hc => .inl ?_
    rw [margin, String.toList_ofList] at hc
    exact List.eq_of_mem_replicate hc
  have hread (depth : Nat) :
      ReadsLine R (if text = "" then "" else margin depth ++ text) found := by
    split
    · next hempty => exact hempty ▸ h
    · intro rest
      rw [ofString_append, List.append_assoc, (hmargin depth).reads, h]
      simp
  intro s before hs rest
  have hlines :
      (s.line text).lines = s.lines ++ [if text = "" then "" else margin s.depth ++ text] := by
    simp [Sheet.line, lines]
  rw [hlines, List.flatMap_append, List.append_assoc, hs]
  simp only [List.flatMap_cons, List.flatMap_nil, List.append_nil, List.append_assoc,
    List.singleton_append]
  rw [hread]
  simp [Function.comp_def]

/-- Nothing is found in a line of inert code. -/
theorem inert {text : String} (h : Inert text) : Writes R (Sheet.line text) [] := line h.reads.line

theorem indent (h : Writes R write found) : Writes R (Sheet.indent write) found :=
  fun _ before hs => h _ before hs

theorem block {header : String} (hheader : Inert header) (h : Writes R write found) :
    Writes R (Sheet.block header write) found := by
  have hopen : Writes R (Sheet.line (header ++ " \x7b")) [] := inert (hheader.append (by decide))
  have hclose : Writes R (Sheet.line "\x7d") [] := inert (by decide)
  have hall := (hopen.comp h.indent).comp hclose
  rwa [List.nil_append, List.append_nil] at hall

theorem each {α : Type} {items : List α} {write : α → Sheet → Sheet} {value : α → List β}
    (h : ∀ a ∈ items, Writes R (write a) (value a)) :
    Writes R (fun s => s.each items write) (items.flatMap value) := by
  induction items with
  | nil => exact refl
  | cons a rest ih =>
    exact (h a (by simp)).comp (ih fun b hb => h b (List.mem_cons_of_mem a hb))

theorem separate : Writes R Sheet.separate [] := by
  have hblank : Writes R (Sheet.line "") [] := inert (by decide)
  intro s before hs
  unfold Sheet.separate
  split
  · simpa using hs
  · split
    · simpa using hs
    · exact hblank s before hs

end Writes

end Sheet

namespace Script

open Sheet (Writes)

variable {β : Type} {R : TokenReader β}

/-! ### Bodies -/

theorem inert_caseLine (i : Nat) : Inert (caseLine i) :=
  (Inert.append (s := "case ") (by decide) (.nat i)).append (t := ":") (by decide)

theorem writes_cases (cases : List Nat) :
    Writes R (fun s => s.each cases fun i => Sheet.line (caseLine i)) [] := by
  have heach :
      Writes R (fun s => s.each cases fun i => Sheet.line (caseLine i))
        (cases.flatMap fun _ => []) :=
    .each fun i _ => .inert (inert_caseLine i)
  rwa [List.flatMap_eq_nil_iff.mpr fun _ _ => rfl] at heach

namespace Statement

mutual
theorem writes_write (t : Statement) : Writes R t.write [] := by
  cases t with
  | block label body =>
    exact .block ((inert_labelName label).append (by decide)) (writes_writeAll body)
  | forever label body =>
    have hbreak : Inert ("break " ++ labelName label ++ ";") :=
      (Inert.append (by decide) (inert_labelName label)).append (by decide)
    exact .block ((inert_labelName label).append (by decide))
      ((writes_writeAll body).comp (.inert hbreak))
  | conditional label condition yes no =>
    have hlabel : Inert (label.elim "" fun l => labelName l ++ ": ") := by
      cases label with
      | none => decide
      | some l => exact (inert_labelName l).append (by decide)
    have hheader :
        Inert ((label.elim "" fun l => labelName l ++ ": ") ++ "if (" ++ condition.text ++
          ") \x7b") :=
      ((hlabel.append (by decide)).append condition.inert_text).append (by decide)
    have hclose : Writes R (Sheet.line "\x7d") [] := .inert (by decide)
    exact ((Writes.inert hheader).comp (writes_writeAll yes).indent).comp
      ((writes_writeElse no).comp hclose)
  | jumpIf condition j =>
    exact .inert
      (((Inert.append (by decide) condition.inert_text).append (by decide)).append j.inert_text)
  | jump j => exact .inert j.inert_text
  | switch index groups defaultCases default =>
    have hdefault : Writes R (Sheet.line "default:") [] := .inert (by decide)
    exact .block ((Inert.append (by decide) index.inert_text).append (by decide))
      (((writes_writeGroups groups).comp (writes_cases defaultCases)).comp
        (hdefault.comp (writes_writeAll default).indent))
  | unreachable => exact .inert (by decide)
  | define ids value =>
    exact .inert ((((Inert.append (by decide) (inert_boundText ids)).append (by decide)).append
      value.inert_text).append (by decide))
  | assign ids values => exact .inert (inert_assignmentText ids values)
  | evaluate value => exact .inert (value.inert_text.append (by decide))

theorem writes_writeElse (no : Option (List Statement)) : Writes R (writeElse no) [] := by
  cases no with
  | none => exact .refl
  | some no =>
    have helse : Inert "\x7d else \x7b" := by decide
    exact (Writes.inert helse).comp (writes_writeAll no).indent

theorem writes_writeAll (ts : List Statement) : Writes R (writeAll ts) [] := by
  cases ts with
  | nil => exact .refl
  | cons t ts => exact (writes_write t).comp (writes_writeAll ts)

theorem writes_writeGroups (groups : List (List Nat × List Statement)) :
    Writes R (writeGroups groups) [] := by
  cases groups with
  | nil => exact .refl
  | cons group rest =>
    obtain ⟨cases, body⟩ := group
    exact ((writes_cases cases).comp (writes_writeAll body).indent).comp (writes_writeGroups rest)
end

end Statement

namespace Function

theorem writes_declaration {vars : List (Variable × ValueType)} :
    Writes R (declaration vars) [] := by
  unfold declaration
  split
  · exact .refl
  · have hlet : Inert "let " := by decide
    have hcomma : Inert ", " := by decide
    have hequals : Inert " = " := by decide
    have hclose : Inert ";" := by decide
    have hzeros : ∀ s ∈ vars.map fun declared => declared.1.text ++ " = " ++ zeroText declared.2,
        Inert s := by
      intro s hs
      obtain ⟨⟨v, type⟩, -, rfl⟩ := List.mem_map.mp hs
      have hzero : Inert (zeroText type) := by cases type <;> decide
      exact (v.inert_text.append hequals).append hzero
    exact .inert ((hlet.append (hcomma.intercalate hzeros)).append hclose)

/-- The comment that names an export ends where its line does, whatever the name. -/
theorem writes_exportComment (name : Option String) : Writes R (exportComment name) [] := by
  cases name with
  | none => exact .refl
  | some name =>
    have hend : ∀ u ∈ ofString (" export " ++ Quoted.encode name), Lexer.endsLine u = false := by
      intro u hu
      rw [ofString_append] at hu
      rcases List.mem_append.mp hu with hu | hu
      · have hall : ∀ u ∈ ofString " export ", Lexer.endsLine u = false := by decide
        exact hall u hu
      · rw [Quoted.ofString_encode] at hu
        exact Quoted.endsLine_encodeUnits _ (ofString_lt name) u hu
    have hline := readsLine_comment (R := R) hend
    rw [← String.append_assoc] at hline
    exact .line hline

theorem writes_write (f : Function) : Writes R f.write [] := by
  have hparams : ∀ t ∈ f.paramTexts, Inert t := by
    intro t ht
    obtain ⟨i, -, rfl⟩ := List.mem_map.mp ht
    exact Variable.inert_text (.localVar i)
  have hheader :
      Inert ("function " ++ functionName f.index ++ "(" ++ ", ".intercalate f.paramTexts ++ ")") :=
    ((((Inert.append (by decide) (inert_functionName _)).append (by decide)).append
      (.intercalate (by decide) hparams))).append (by decide)
  exact .block hheader ((((writes_exportComment f.exportName).comp writes_declaration).comp
    writes_declaration).comp (Statement.writes_writeAll f.body))

end Function

/-! ### Whole scripts -/

/-- A reader of scripts, with what it finds in each form. -/
structure FormReader (β : Type) extends TokenReader β where
  ofForm : Form → List String → List β
  reads_form : ∀ f ∈ bindings.forms ++ definitions.forms, ∀ values : List String,
    values.length = f.more.length → Reads toTokenReader (f.print values) (ofForm f values)

namespace FormReader

def literals : FormReader (List Nat) where
  toTokenReader := TokenReader.literals
  ofForm _ values := values.map ofString
  reads_form f hf values hlength := by
    have hplain : ∀ f ∈ bindings.forms ++ definitions.forms, ∀ t ∈ f.first :: f.more,
      Plain t := by decide
    have hnothing (t : String) (ht : t ∈ f.first :: f.more) : Reads TokenReader.literals t [] :=
      (hplain f hf t ht).reads fun ts => congrArg some (TokenReader.literals_code_append t ts)
    rw [List.map_eq_flatMap]
    exact Reads.print (hnothing _ List.mem_cons_self)
      (fun t ht => hnothing t (List.mem_cons_of_mem _ ht)) hlength

def ofSearch (s : Search) (h : ∀ {text : String}, Inert text → s.Passes text)
    (hforms : ∀ f ∈ bindings.forms ++ definitions.forms, f ∈ s.forms ∨ ∀ t ∈ f.first :: f.more,
      s.Passes t) :
    FormReader (List (List Nat)) where
  toTokenReader := TokenReader.ofSearch s h
  ofForm f values := if f ∈ s.forms then [values.map ofString] else []
  reads_form f hf values hlength := by
    have hplain : ∀ f ∈ bindings.forms ++ definitions.forms, ∀ t ∈ f.first :: f.more,
      Plain t := by decide
    have hfirst := hplain f hf f.first List.mem_cons_self
    have hmore : ∀ t ∈ f.more, Plain t := fun t ht => hplain f hf t (List.mem_cons_of_mem _ ht)
    split
    · next hmem =>
      intro rest
      rw [TokenReader.read, tokens_print hfirst hmore hlength]
      cases htokens : tokens .code rest with
      | none => simp [TokenReader.read, htokens]
      | some ts =>
        have hcount : (values.map ofString).length = f.more.length := by simpa using hlength
        have hspell := Search.find_spell_append hmem hcount ts
        simpa [TokenReader.read, htokens, TokenReader.ofSearch] using hspell
    · next hmem =>
      have hpasses := (hforms f hf).resolve_left hmem
      have hnothing (t : String) (ht : t ∈ f.first :: f.more) :
          Reads (TokenReader.ofSearch s h) t [] := by
        refine (hplain f hf t ht).reads fun ts => ?_
        have hpass := (hpasses t ht).find_append ts
        simpa [TokenReader.ofSearch] using hpass
      have hread :=
        Reads.print (hnothing _ List.mem_cons_self)
          (fun t ht => hnothing t (List.mem_cons_of_mem _ ht)) hlength
      have hnone :
          values.flatMap (fun value => (TokenReader.ofSearch s h).ofLiteral (ofString value)) =
            [] :=
        List.flatMap_eq_nil_iff.mpr fun _ _ => rfl
      rwa [hnone] at hread

def bound : FormReader (List (List Nat)) := ofSearch bindings (fun h => h.2.1) (by decide)

def defined : FormReader (List (List Nat)) := ofSearch definitions (fun h => h.2.2) (by decide)

variable {β : Type} (R : FormReader β)

def ofTypes (types : List ValueType) :
    List β := types.flatMap fun type => R.ofLiteral (ofString type.name)

def ofImport (b : ImportBinding) : List β :=
  R.ofForm bindImportForm [b.module, b.field] ++ R.ofTypes b.type.params ++ R.ofTypes b.type.results

def ofMemory : MemoryBinding → List β
  | .lent module field _ => R.ofForm bindMemoryForm [module, field]
  | .owned .. => []

/-- What is found in the line that hands out a member. -/
def ofMember : Member → List β
  | .function key .. | .memory key => R.ofForm assignForm [key]
  | .globalValue key _ => R.ofForm defineForm [key]

def ofProgram (p : Program) : List β :=
  (match p.options.format with
    | .esm => R.ofLiteral (ofString p.options.runtimeSpecifier)
    | .factory => [])
  ++ p.imports.flatMap R.ofImport
  ++ p.memory.toList.flatMap R.ofMemory
  ++ p.data.flatMap (fun d => R.ofLiteral (ofString (Hex.ofBytes d.bytes)))
  ++ R.ofForm createForm []
  ++ p.members.flatMap R.ofMember
  ++ R.ofForm freezeForm []

end FormReader

namespace Program

variable {β : Type} {R : FormReader β}

theorem reads_typeNames (types : List ValueType) :
    Reads R.toTokenReader (typeNames types) (R.ofTypes types) := by
  have hnames :
      Reads R.toTokenReader (", ".intercalate (types.map fun t => Quoted.encode t.name))
        (R.ofTypes types) :=
    .intercalate (by decide) fun t _ => .encode t.name
  have hopen : Inert "[" := by decide
  have hclose : Inert "]" := by decide
  exact (Reads.after hopen hnames).inert hclose

theorem reads_importLine (b : ImportBinding) :
    Reads R.toTokenReader (importLine b) (R.ofImport b) := by
  have hstart : Inert ("const " ++ functionName b.index ++ " = ") :=
    (Inert.append (by decide) (inert_functionName _)).append (by decide)
  have hform :
      Reads R.toTokenReader (bindImportForm.print [b.module, b.field])
        (R.ofForm bindImportForm [b.module, b.field]) :=
    R.reads_form bindImportForm (by decide) _ rfl
  have hcomma : Inert ", " := by decide
  have hclose : Inert ");" := by decide
  have hall :=
    ((((Reads.after hstart hform).append (reads_typeNames b.type.params)).inert hcomma).append
      (reads_typeNames b.type.results)).inert hclose
  have hhead : "const " ++ functionName b.index ++ " = " ++ bindImportForm.print [b.module, b.field]
      = "const " ++ functionName b.index ++ " = rt.bindImport(imports, " ++
          Quoted.encode b.module ++ ", "
        ++ Quoted.encode b.field ++ ", " := by
    have hsplit : " = rt.bindImport(imports, " = " = " ++ "rt.bindImport(imports, " := by decide
    refine Form.append_print_two ?_
    rw [hsplit, ← String.append_assoc]
  rw [hhead] at hall
  exact hall

theorem reads_memoryLine (b : MemoryBinding) :
    Reads R.toTokenReader (memoryLine b) (R.ofMemory b) := by
  have hcomma : Inert ", " := by decide
  have hclose : Inert ");" := by decide
  cases b with
  | lent module field limits =>
    have hstart : Inert "const memory = " := by decide
    have hform :
        Reads R.toTokenReader (bindMemoryForm.print [module, field])
          (R.ofForm bindMemoryForm [module, field]) :=
      R.reads_form bindMemoryForm (by decide) _ rfl
    -- The limits are digits and commas, in which a reader finds nothing.
    have hmaximum : Inert (limits.maximum.elim "" fun n => ", " ++ toString n) := by
      cases limits.maximum with
      | none => decide
      | some n => exact hcomma.append (.nat n)
    have hall :=
      (((Reads.after hstart hform).inert (.nat limits.initial)).inert hmaximum).inert hclose
    have hhead : "const memory = " ++ bindMemoryForm.print [module, field]
        = "const memory = rt.bindMemory(imports, " ++ Quoted.encode module ++ ", " ++
          Quoted.encode field ++ ", " :=
      Form.append_print_two (by decide)
    rw [hhead] at hall
    exact hall
  | owned initial maximum =>
    have hstart : Inert "const memory = new rt.LinearMemory(" := by decide
    exact ((((hstart.append (.nat initial)).append hcomma).append (.nat maximum)).append
      hclose).reads

theorem reads_assign (key : String) :
    Reads R.toTokenReader (assignForm.print [key]) (R.ofForm assignForm [key]) :=
  R.reads_form assignForm (by decide) _ rfl

theorem reads_functionLine (key : String) (index : Nat) (params : List ValueType) :
    Reads R.toTokenReader (memberLine (.function key index params))
      (R.ofForm assignForm [key]) := by
  have hnames : ∀ t ∈ (List.range params.length).map fun i => "a" ++ toString i, Inert t := by
    intro t ht
    obtain ⟨i, -, rfl⟩ := List.mem_map.mp ht
    exact Inert.append (by decide) (.nat i)
  -- Each argument is coerced by a function of the runtime, named after its type.
  have hargs : ∀ t ∈ params.zipIdx.map fun param =>
      "rt." ++ coercionName param.1 ++ ("(a" ++ toString param.2 ++ ")"), Inert t := by
    intro t ht
    obtain ⟨⟨type, i⟩, -, rfl⟩ := List.mem_map.mp ht
    have hcoercion : Inert ("rt." ++ coercionName type) := by cases type <;> decide
    have hargument : Inert ("(a" ++ toString i ++ ")") :=
      (Inert.append (by decide) (.nat i)).append (by decide)
    exact hcoercion.append hargument
  have hopen : Inert "(" := by decide
  have harrow : Inert ") => " := by decide
  have hclose : Inert ");" := by decide
  have hcomma : Inert ", " := by decide
  have hparams := ((reads_assign (R := R) key).inert hopen).inert (hcomma.intercalate hnames)
  have hcall := ((hparams.inert harrow).inert (inert_functionName index)).inert hopen
  have hall := (hcall.inert (hcomma.intercalate hargs)).inert hclose
  have hhead : assignForm.print [key] ++ "(" = "exports[" ++ Quoted.encode key ++ "] = (" :=
    Form.print_one_append (by decide)
  rw [hhead] at hall
  exact hall

theorem reads_globalValueLine (key : String) (index : Nat) :
    Reads R.toTokenReader (memberLine (.globalValue key index)) (R.ofForm defineForm [key]) := by
  have hform : Reads R.toTokenReader (defineForm.print [key]) (R.ofForm defineForm [key]) :=
    R.reads_form defineForm (by decide) _ rfl
  have hget : Inert "\x7bget: () => " := by decide
  have hclose : Inert ", enumerable: true\x7d);" := by decide
  have hall := ((hform.inert hget).inert (Variable.inert_text (.globalVar index))).inert hclose
  have hhead : defineForm.print [key] ++ "\x7bget: () => "
      = "Object.defineProperty(exports, " ++ Quoted.encode key ++ ", \x7bget: () => " :=
    Form.print_one_append (by decide)
  rw [hhead] at hall
  exact hall

theorem reads_memberLine (x : Member) : Reads R.toTokenReader (memberLine x) (R.ofMember x) := by
  cases x with
  | function key index params => exact reads_functionLine key index params
  | memory key =>
    have hclose : Inert "memory;" := by decide
    have hhead : assignForm.print [key] ++ "memory;" = "exports[" ++ Quoted.encode key ++
        "] = memory;" :=
      Form.print_one_append (by decide)
    have hall := (reads_assign (R := R) key).inert hclose
    rw [hhead] at hall
    exact hall
  | globalValue key index => exact reads_globalValueLine key index

theorem inert_globalLine (g : Global) (index : Nat) : Inert (globalLine g index) := by
  have hkeyword : Inert (if g.isMutable then "let " else "const ") := by split <;> decide
  have hvalue : Inert (valueText g.init) := by
    cases g.init with
    | i32 n => exact .int n
    | i64 n => exact (Inert.int n).append (by decide)
  have hequals : Inert " = " := by decide
  have hclose : Inert ";" := by decide
  exact (((hkeyword.append (Variable.inert_text (.globalVar index))).append hequals).append
    hvalue).append hclose

theorem reads_dataLine (d : DataSegment) :
    Reads R.toTokenReader (dataLine d) (R.ofLiteral (ofString (Hex.ofBytes d.bytes))) := by
  have hstart : Inert "memory.initData(" := by decide
  have hdigits : Inert ", rt.hexToBytes(" := by decide
  have hclose : Inert "));" := by decide
  exact (Reads.after ((hstart.append (.nat d.offset)).append hdigits) (.encode _)).inert hclose

theorem writes_writeStart (p : Program) :
    Writes R.toTokenReader p.writeStart
      (p.data.flatMap fun d => R.ofLiteral (ofString (Hex.ofBytes d.bytes))) := by
  have hdata : Writes R.toTokenReader (fun s => s.each p.data fun d => Sheet.line (dataLine d))
      (p.data.flatMap fun d => R.ofLiteral (ofString (Hex.ofBytes d.bytes))) :=
    .each fun d _ => .line (reads_dataLine d).line
  intro s before hs
  unfold writeStart
  split
  · next hempty =>
    rw [List.isEmpty_iff.mp hempty.1]
    simpa using hs
  · have hall := (Writes.separate.comp hdata) s before hs
    rw [List.nil_append] at hall
    simp only
    split
    · exact hall
    · next index _ =>
      have hcall : Inert (functionName index ++ "();") :=
        (inert_functionName index).append (by decide)
      simpa using Writes.inert hcall _ _ hall

theorem writes_writeBody (p : Program) :
    Writes R.toTokenReader (p.writeBody (p.memory.map memoryLine))
      (p.imports.flatMap R.ofImport ++ p.memory.toList.flatMap R.ofMemory
        ++ p.data.flatMap (fun d => R.ofLiteral (ofString (Hex.ofBytes d.bytes)))
        ++ R.ofForm createForm [] ++ p.members.flatMap R.ofMember ++ R.ofForm freezeForm []) := by
  have himports :
  Writes R.toTokenReader (fun s => s.each p.imports fun b => Sheet.line (importLine b))
      (p.imports.flatMap R.ofImport) := .each fun b _ => .line (reads_importLine b).line
  have hmemory :
      Writes R.toTokenReader (fun s => s.each (p.memory.map memoryLine).toList Sheet.line)
      (p.memory.toList.flatMap R.ofMemory) := by
    cases p.memory with
    | none => exact .refl
    | some b =>
      have hline := Writes.line (reads_memoryLine (R := R) b).line
      rwa [← List.append_nil (R.ofMemory b)] at hline
  have hglobals :
      Writes R.toTokenReader
        (fun s => s.each p.globals.zipIdx fun g => Sheet.line (globalLine g.1 g.2))
      (p.globals.zipIdx.flatMap fun _ => []) := .each fun g _ => .inert (inert_globalLine g.1 g.2)
  have hfunctions :
      Writes R.toTokenReader (fun s => s.each p.functions fun f s => f.write s.separate)
      (p.functions.flatMap fun _ => []) := .each fun f _ => Writes.separate.comp f.writes_write
  have hmembers :
      Writes R.toTokenReader
        (fun s => s.each p.members fun member => Sheet.line (memberLine member))
      (p.members.flatMap R.ofMember) := .each fun x _ => .line (reads_memberLine x).line
  have hcreate :
      Writes R.toTokenReader (Sheet.line "const exports = Object.create(null);")
        (R.ofForm createForm []) := by
    have hconst : Inert "const " := by decide
    have hsplit : "const exports = Object.create(null);" = "const " ++ createForm.print [] := by
      decide
    rw [hsplit]
    exact .line (Reads.after hconst (R.reads_form createForm (by decide) [] rfl)).line
  have hfreeze :
      Writes R.toTokenReader (Sheet.line "return Object.freeze(exports);")
        (R.ofForm freezeForm []) := by
    have hreturn : Inert "return " := by decide
    have hsplit : "return Object.freeze(exports);" = "return " ++ freezeForm.print [] := by decide
    rw [hsplit]
    exact .line (Reads.after hreturn (R.reads_form freezeForm (by decide) [] rfl)).line
  have hall :=
    ((((((himports.comp hmemory).comp hglobals).comp hfunctions).comp (writes_writeStart p)).comp
      Writes.separate).comp hcreate).comp (hmembers.comp hfreeze)
  rw [List.flatMap_eq_nil_iff.mpr fun _ _ => rfl, List.flatMap_eq_nil_iff.mpr fun _ _ =>
    rfl] at hall
  simp only [List.append_nil, ← List.append_assoc] at hall
  exact hall

/-- A reader finds in the text of a script what stands in its forms and the literals around them. -/
theorem read_text (R : FormReader β) (p : Program) :
    R.read (ofString p.text) = some (R.ofProgram p) := by
  -- Nothing is read in a comment, and this one ends with its line.
  have hcomment :
      Writes R.toTokenReader (Sheet.line "// Generated by herkos-ts. Do not edit.") [] := by
    have hheader : ∀ u ∈ ofString " Generated by herkos-ts. Do not edit.", Lexer.endsLine u =
      false := by decide
    have hstart : "// Generated by herkos-ts. Do not edit." =
        "//" ++ " Generated by herkos-ts. Do not edit." := by
      decide
    rw [hstart]
    exact .line (readsLine_comment hheader)
  have hblank : Writes R.toTokenReader (Sheet.line "") [] := .inert (by decide)
  have hwrite : Writes R.toTokenReader p.write (R.ofProgram p) := by
    have hbody := writes_writeBody (R := R) p
    unfold write writeWith writeAround
    cases hformat : p.options.format with
    | esm =>
      have hstart : Inert "import * as rt from " := by decide
      have hclose : Inert ";" := by decide
      have hspecifier :=
        (Reads.after hstart (.encode (R := R.toTokenReader) p.options.runtimeSpecifier)).inert
          hclose
      have hheader : Inert "export function instantiate(imports = \x7b\x7d)" := by decide
      have hall := ((hcomment.comp (.line hspecifier.line)).comp hblank).comp (.block hheader hbody)
      simpa [FormReader.ofProgram, hformat] using hall
    | factory =>
      have hstrict : Writes R.toTokenReader (Sheet.line "'use strict';") [] := .inert (by decide)
      have hheader : Inert "function instantiate(imports = \x7b\x7d)" := by decide
      have hreturn : Writes R.toTokenReader (Sheet.line "return instantiate;") [] :=
        .inert (by decide)
      have hall :=
        ((((hcomment.comp hstrict).comp hblank).comp (.block hheader hbody)).comp hblank).comp
          hreturn
      simpa [FormReader.ofProgram, hformat] using hall
  have hfound := hwrite .blank [] Sheet.holds_blank
  rw [List.nil_append] at hfound
  exact hfound.text

end Program

end Script

end WasmScript
