/-
  WasmScript/Proofs/Text/Brackets.lean
  ====================================
  **Text in parentheses** — where a text with matching parentheses ends.

  `depth` counts the parentheses that are open after a text.  A text is `Closed` if it never
  closes one that it has not opened, leaves none open, and has some characters inside of
  parentheses only.  Such texts are told apart by what follows them (`Closed.append_inj`): one
  that is followed by a character of that kind cannot go on, nor can it end earlier.
-/
import Mathlib.Data.List.Basic

namespace WasmScript

/-- How many parentheses a text leaves open. -/
def depth (cs : List Char) : Int := cs.count '(' - cs.count ')'

@[simp] theorem depth_nil : depth [] = 0 := rfl

@[simp] theorem depth_append (xs ys : List Char) : depth (xs ++ ys) = depth xs + depth ys := by
  simp only [depth, List.count_append]
  omega

theorem depth_of_plain {cs : List Char} (h : ∀ c ∈ cs, c ≠ '(' ∧ c ≠ ')') : depth cs = 0 := by
  have hopen : cs.count '(' = 0 := List.count_eq_zero.mpr fun hc => (h _ hc).1 rfl
  have hclose : cs.count ')' = 0 := List.count_eq_zero.mpr fun hc => (h _ hc).2 rfl
  rw [depth, hopen, hclose]
  rfl

/-- A text without parentheses and without some other characters. -/
def Bare (inner cs : List Char) : Prop := ∀ c ∈ cs, c ≠ '(' ∧ c ≠ ')' ∧ c ∉ inner

instance (inner cs : List Char) : Decidable (Bare inner cs) := List.decidableBAll _ cs

/-- A text in which all parentheses match and some characters stand in parentheses. -/
structure Closed (inner : List Char) (cs : List Char) : Prop where
  level : depth cs = 0
  above : ∀ p, p <+: cs → 0 ≤ depth p
  inside : ∀ p c, p ++ [c] <+: cs → c ∈ inner → 0 < depth p

namespace Closed

variable {inner inner' xs ys rest rest' : List Char}

theorem mono (h : Closed inner xs) (hinner : inner' ⊆ inner) : Closed inner' xs where
  level := h.level
  above := h.above
  inside p c hp hc := h.inside p c hp (hinner hc)

theorem plain (h : Bare inner xs) : Closed inner xs where
  level := depth_of_plain fun c hc => ⟨(h c hc).1, (h c hc).2.1⟩
  above p hp :=
    Int.le_of_eq
      (depth_of_plain fun c hc => ⟨(h c (hp.subset hc)).1, (h c (hp.subset hc)).2.1⟩).symm
  inside p c hp hc := by
    have hmem : c ∈ xs := hp.subset (by simp)
    exact absurd hc (h c hmem).2.2

theorem nil : Closed inner [] := plain (by simp [Bare])

theorem prefix_append {p : List Char} (h : p <+: xs ++ ys) :
    p <+: xs ∨ ∃ q, p = xs ++ q ∧ q <+: ys := by
  rcases List.prefix_or_prefix_of_prefix h (List.prefix_append xs ys) with hp | ⟨q, rfl⟩
  · exact .inl hp
  · exact .inr ⟨q, rfl, (List.prefix_append_right_inj xs).mp h⟩

theorem append (hx : Closed inner xs) (hy : Closed inner ys) : Closed inner (xs ++ ys) where
  level := by rw [depth_append, hx.level, hy.level]; rfl
  above p hp := by
    rcases prefix_append hp with hp | ⟨q, rfl, hq⟩
    · exact hx.above p hp
    · rw [depth_append, hx.level, Int.zero_add]
      exact hy.above q hq
  inside p c hp hc := by
    rcases prefix_append hp with hp | ⟨q, hpq, hq⟩
    · exact hx.inside p c hp hc
    · rcases List.eq_nil_or_concat q with rfl | ⟨q, d, rfl⟩
      · rw [List.append_nil] at hpq
        exact hx.inside p c (hpq ▸ List.prefix_rfl) hc
      · rw [List.concat_eq_append] at hpq hq
        rw [← List.append_assoc] at hpq
        obtain ⟨rfl, hcd⟩ := List.append_inj' hpq rfl
        cases hcd
        rw [depth_append, hx.level, Int.zero_add]
        exact hy.inside q c hq hc

/-- What stands in parentheses is not seen from outside. -/
theorem parens (hx : Closed inner' xs) (hinner : '(' ∉ inner) :
    Closed inner ('(' :: (xs ++ [')'])) where
  level := by
    have hopen : depth ('(' :: (xs ++ [')'])) = depth ['('] + (depth xs + depth [')']) := by
      rw [← depth_append, ← depth_append]
      rfl
    rw [hopen, hx.level]
    rfl
  above p hp := by
    cases p with
    | nil => exact Int.le_refl 0
    | cons d p =>
      obtain ⟨rfl, hrest⟩ := List.cons_prefix_cons.mp hp
      have hopen : depth ('(' :: p) = 1 + depth p := depth_append ['('] p
      rw [hopen]
      -- A beginning is within the text, or goes up to the bracket that closes it.
      rcases prefix_append hrest with hp | ⟨q, rfl, hq⟩
      · have := hx.above p hp
        omega
      · have hclose : -1 ≤ depth q := by
          rcases List.prefix_cons_iff.mp hq with rfl | ⟨r, rfl, hr⟩
          · decide
          · rw [List.prefix_nil.mp hr]
            decide
        rw [depth_append, hx.level]
        omega
  inside p c hp hc := by
    cases p with
    | nil =>
      obtain ⟨rfl, -⟩ := List.cons_prefix_cons.mp hp
      exact absurd hc hinner
    | cons d p =>
      obtain ⟨rfl, hrest⟩ := List.cons_prefix_cons.mp (show d :: (p ++ [c]) <+: _ from hp)
      have hopen : depth ('(' :: p) = 1 + depth p := depth_append ['('] p
      have hinside : p <+: xs := by
        have hlength : p.length ≤ xs.length := by simpa using hrest.length_le
        exact List.prefix_of_prefix_length_le ((List.prefix_append p [c]).trans hrest)
          (List.prefix_append xs _) hlength
      have := hx.above p hinside
      omega

/-- A closed text ends where a character follows that stands in it in parentheses only. -/
theorem append_inj (hx : Closed inner xs) (hy : Closed inner ys)
    (hrest : ∀ c ∈ rest.head?, c ∈ inner) (hrest' : ∀ c ∈ rest'.head?, c ∈ inner)
    (h : xs ++ rest = ys ++ rest') : xs = ys ∧ rest = rest' := by
  have longer {xs m : List Char} (rest : List Char) (hx : Closed inner xs)
      (hy : Closed inner (xs ++ m))
      (hrest : ∀ c ∈ (m ++ rest).head?, c ∈ inner) : m = [] := by
    cases m with
    | nil => rfl
    | cons c m =>
      have hpos := hy.inside xs c ⟨m, by simp⟩ (hrest c rfl)
      rw [hx.level] at hpos
      exact absurd hpos (by decide)
  rcases List.append_eq_append_iff.mp h with ⟨m, rfl, rfl⟩ | ⟨m, rfl, rfl⟩
  · rw [longer rest' hx hy hrest]
    simp
  · rw [longer rest hy hx hrest']
    simp

end Closed

/-! ### Texts with a separator -/

theorem intercalate_cons (separator w : List Char) (ws : List (List Char)) :
    separator.intercalate (w :: ws) = w ++ ws.flatMap (separator ++ ·) := by
  induction ws generalizing w with
  | nil => simp
  | cons v ws ih =>
    rw [List.intercalate_cons_cons, ih, List.flatMap_cons]
    simp only [List.append_assoc]

/-- A text between others, with separators around it. -/
theorem intercalate_between (separator w : List Char) {xs ys : List (List Char)} (hx : xs ≠ [])
    (hy : ys ≠ []) :
    separator.intercalate (xs ++ w :: ys)
      = separator.intercalate xs ++
        (separator ++ (w ++ (separator ++ separator.intercalate ys))) := by
  obtain ⟨x, xs, rfl⟩ := List.exists_cons_of_ne_nil hx
  obtain ⟨y, ys, rfl⟩ := List.exists_cons_of_ne_nil hy
  simp [intercalate_cons]

theorem Closed.intercalate {inner separator : List Char} {texts : List (List Char)}
    (hseparator : Closed inner separator) (h : ∀ w ∈ texts, Closed inner w) :
    Closed inner (separator.intercalate texts) := by
  induction texts with
  | nil => exact .nil
  | cons w ws ih =>
    obtain ⟨hw, hws⟩ := List.forall_mem_cons.mp h
    cases ws with
    | nil => simpa using hw
    | cons v ws =>
      rw [List.intercalate_cons_cons]
      exact (hw.append hseparator).append (ih hws)

/-- Texts come apart at their separators. -/
theorem intercalate_inj {inner separator : List Char} {c : Char} (hc : c ∈ inner)
    {xs ys : List (List Char)} (hx : ∀ w ∈ xs, Closed inner w) (hy : ∀ w ∈ ys, Closed inner w)
    (hxs : xs ≠ []) (hys : ys ≠ [])
    (h : (c :: separator).intercalate xs = (c :: separator).intercalate ys) : xs = ys := by
  have hhead (ws : List (List Char)) : ∀ d ∈ (ws.flatMap ((c :: separator) ++ ·)).head?,
      d ∈ inner := by
    cases ws with
    | nil => simp
    | cons w ws => simpa using hc
  obtain ⟨x, xs, rfl⟩ := List.exists_cons_of_ne_nil hxs
  obtain ⟨y, ys, rfl⟩ := List.exists_cons_of_ne_nil hys
  clear hxs hys
  -- The induction is on the first list: where brackets are closed, a text ends at the same place in
  -- both.
  induction xs generalizing x y ys with
  | nil =>
    rw [intercalate_cons, intercalate_cons] at h
    obtain ⟨rfl, hrest⟩ :=
      Closed.append_inj (hx x List.mem_cons_self) (hy y List.mem_cons_self) (hhead [])
        (hhead ys) h
    cases ys with
    | nil => rfl
    | cons y' ys => cases hrest
  | cons x' xs ih =>
    rw [intercalate_cons, intercalate_cons] at h
    obtain ⟨rfl, hrest⟩ := Closed.append_inj (hx x List.mem_cons_self) (hy y List.mem_cons_self)
      (hhead (x' :: xs)) (hhead ys) h
    cases ys with
    | nil => cases hrest
    | cons y' ys =>
      rw [List.flatMap_cons, List.flatMap_cons, List.append_assoc, List.append_assoc] at hrest
      have htail := ih x' (List.forall_mem_cons.mp hx).2 y' ys (List.forall_mem_cons.mp hy).2 (by
        rw [intercalate_cons, intercalate_cons]
        exact List.append_cancel_left hrest)
      rw [htail]

end WasmScript
