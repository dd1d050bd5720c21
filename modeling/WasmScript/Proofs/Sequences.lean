/-
  WasmScript/Proofs/Sequences.lean
  ================================
  **Actions in sequence** — what comes of an action and another one after it.

  An action whose outcome is known is followed by `bind_at_ok` or `bind_at_error`; the other
  way round, `bind_at_eq_ok` and `bind_at_eq_error` take a sequence apart whose outcome is known.
-/
namespace WasmScript

variable {ε S α β : Type}

theorem bind_at_ok {run : EStateM ε S α} {k : α → EStateM ε S β} {a : α} {s s' : S}
    (h : run s = .ok a s') : (run >>= k) s = k a s' := by
  change EStateM.bind run k s = k a s'
  unfold EStateM.bind
  rw [h]

theorem bind_at_error {run : EStateM ε S α} {k : α → EStateM ε S β} {e : ε} {s s' : S}
    (h : run s = .error e s') : (run >>= k) s = .error e s' := by
  change EStateM.bind run k s = .error e s'
  unfold EStateM.bind
  rw [h]

/-- A sequence that gives something comes from a first action that did so too. -/
theorem bind_at_eq_ok {run : EStateM ε S α} {k : α → EStateM ε S β} {b : β} {s s'' : S}
    (h : (run >>= k) s = .ok b s'') : ∃ a s', run s = .ok a s' ∧ k a s' = .ok b s'' := by
  cases hrun : run s with
  | ok a s' => exact ⟨a, s', rfl, (bind_at_ok hrun).symm.trans h⟩
  | error e s' => cases (bind_at_error hrun).symm.trans h

/-- A sequence that fails does so in its first action or in what comes after it. -/
theorem bind_at_eq_error {run : EStateM ε S α} {k : α → EStateM ε S β} {e : ε} {s s'' : S}
    (h : (run >>= k) s = .error e s'') :
    run s = .error e s'' ∨ ∃ a s', run s = .ok a s' ∧ k a s' = .error e s'' := by
  cases hrun : run s with
  | ok a s' => exact .inr ⟨a, s', rfl, (bind_at_ok hrun).symm.trans h⟩
  | error e' s' =>
    cases (bind_at_error hrun).symm.trans h
    exact .inl rfl

theorem map_at_ok {run : EStateM ε S α} {f : α → β} {a : α} {s s' : S} (h : run s = .ok a s') :
    (f <$> run) s = .ok (f a) s' := by
  rw [map_eq_pure_bind]
  exact bind_at_ok h

theorem map_at_error {run : EStateM ε S α} {f : α → β} {e : ε} {s s' : S}
    (h : run s = .error e s') :
    (f <$> run) s = .error e s' := by
  rw [map_eq_pure_bind]
  exact bind_at_error h

theorem map_at_eq_error {run : EStateM ε S α} {f : α → β} {e : ε} {s s' : S}
    (h : (f <$> run) s = .error e s') :
    run s = .error e s' := by
  cases hrun : run s with
  | ok a s'' => cases (map_at_ok (f := f) hrun).symm.trans h
  | error e' s'' =>
    cases (map_at_error (f := f) hrun).symm.trans h
    rfl

/-- Two sequences that begin in the same way do the same if they go on in the same way. -/
theorem bind_at_congr {x y : EStateM ε S α} {k k' : α → EStateM ε S β} {s s' : S}
    (h : x s = y s') (hk : ∀ a s'', y s' = .ok a s'' → k a s'' = k' a s'') :
    (x >>= k) s = (y >>= k') s' := by
  cases hy : y s' with
  | ok a s'' => rw [bind_at_ok (h.trans hy), bind_at_ok hy, hk a s'' hy]
  | error e s'' => rw [bind_at_error (h.trans hy), bind_at_error hy]

/-! ### Steps that may fail without a state -/

/-- Taking everything back out of what it was put into. -/
theorem mapM_map_some {f : α → β} {g : β → Option α} (h : ∀ a, g (f a) = some a) (as : List α) :
    (as.map f).mapM g = some as := by
  induction as with
  | nil => rfl
  | cons a as ih =>
    rw [List.map_cons, List.mapM_cons, h, ih]
    rfl

theorem ok_of_bind {x : Except ε α} {k : α → Except ε β} {b : β} (h : x >>= k = .ok b) :
    ∃ a, x = .ok a ∧ k a = .ok b := by
  cases x with
  | error => cases h
  | ok a => exact ⟨a, rfl, h⟩

theorem map_ok {x : Except ε α} {f : α → β} {b : β} (h : f <$> x = .ok b) :
    ∃ a, x = .ok a ∧ f a = b := by
  cases x with
  | error => cases h
  | ok a =>
    cases h
    exact ⟨a, rfl, rfl⟩

end WasmScript
