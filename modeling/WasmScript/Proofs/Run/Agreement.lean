/-
  WasmScript/Proofs/Run/Agreement.lean
  ====================================
  **Actions that do the same** — two actions from states with a property.

  `Agree P x y Q E` says that from each state with `P` the actions `x` and `y` do the very
  same, and that what they give and leave has `Q`, or that they fail with `E`.  It composes
  along `bind`, so two runs that differ only in how they call others are compared step by
  step, and with two equal actions it says what one of them does.
-/
import WasmScript.Run.Store
import WasmScript.Proofs.Sequences

namespace WasmScript

variable {ε S α β : Type}

/-! ### Two actions -/

/-- Whether what an action came to has one of two properties. -/
def Meets (Q : α → S → Prop) (E : ε → S → Prop) : EStateM.Result ε S α → Prop
  | .ok a s => Q a s
  | .error e s => E e s

/-- From states with a property, two actions do the same, with properties of what comes of them. -/
def Agree (P : S → Prop) (x y : EStateM ε S α) (Q : α → S → Prop) (E : ε → S → Prop) : Prop :=
  ∀ s, P s → x s = y s ∧ Meets Q E (y s)

namespace Agree

variable {P P' : S → Prop} {Q Q' : α → S → Prop} {R : β → S → Prop} {E E' : ε → S → Prop}
variable {x y : EStateM ε S α} {k k' : α → EStateM ε S β}

theorem pure {a : α} (h : ∀ s, P s → Q a s) : Agree P (pure a) (pure a) Q E :=
  fun s hs => ⟨rfl, h s hs⟩

theorem throw {e : ε} (h : ∀ s, P s → E e s) : Agree P (throw e) (throw e) Q E :=
  fun s hs => ⟨rfl, h s hs⟩

theorem get (h : ∀ s, P s → P' s) : Agree P get get (fun s s' => s' = s ∧ P' s) E :=
  fun s hs => ⟨rfl, rfl, h s hs⟩

theorem bind (hx : Agree P x y Q E) (hk : ∀ a, Agree (Q a) (k a) (k' a) R E) :
    Agree P (x >>= k) (y >>= k') R E := by
  intro s hs
  obtain ⟨hsame, hmeets⟩ := hx s hs
  change EStateM.bind x k s = EStateM.bind y k' s ∧ Meets R E (EStateM.bind y k' s)
  unfold EStateM.bind
  rw [hsame]
  cases hy : y s with
  | ok a s' =>
    rw [hy] at hmeets
    exact hk a s' hmeets
  | error e s' =>
    rw [hy] at hmeets
    exact ⟨rfl, hmeets⟩

theorem map (f : α → β) (hx : Agree P x y (fun a s => R (f a) s) E) :
    Agree P (f <$> x) (f <$> y) R E := by
  rw [map_eq_pure_bind, map_eq_pure_bind]
  exact hx.bind fun a => pure fun _ h => h

theorem mono (hx : Agree P x y Q E) (hP : ∀ s, P' s → P s) (hQ : ∀ a s, Q a s → Q' a s)
    (hE : ∀ e s, E e s → E' e s) : Agree P' x y Q' E' := by
  intro s hs
  obtain ⟨hsame, hmeets⟩ := hx s (hP s hs)
  refine ⟨hsame, ?_⟩
  cases hy : y s with
  | ok a s' =>
    rw [hy] at hmeets
    exact hQ a s' hmeets
  | error e s' =>
    rw [hy] at hmeets
    exact hE e s' hmeets

theorem pre (hx : Agree P x y Q E) (hP : ∀ s, P' s → P s) : Agree P' x y Q E :=
  hx.mono hP (fun _ _ h => h) fun _ _ h => h

theorem post (hx : Agree P x y Q E) (hQ : ∀ a s, Q a s → Q' a s) : Agree P x y Q' E :=
  hx.mono (fun _ h => h) hQ fun _ _ h => h

/-- What does not depend on the state may be used. -/
theorem of_fact {A : Prop} (h : A → Agree P x y Q E) : Agree (fun s => A ∧ P s) x y Q E :=
  fun s hs => h hs.1 s hs.2

/-- Two actions agree with a third. -/
theorem trans {z : EStateM ε S α} (hxy : Agree P x y Q E) (hyz : Agree P y z Q' E') :
    Agree P x z Q E := by
  intro s hs
  obtain ⟨hsame, hmeets⟩ := hxy s hs
  obtain ⟨hsame', -⟩ := hyz s hs
  exact ⟨hsame.trans hsame', hsame' ▸ hmeets⟩

theorem symm (h : Agree P x y Q E) : Agree P y x Q E := by
  intro s hs
  obtain ⟨hsame, hmeets⟩ := h s hs
  exact ⟨hsame.symm, hsame ▸ hmeets⟩

end Agree

end WasmScript
