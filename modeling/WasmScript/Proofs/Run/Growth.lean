/-
  WasmScript/Proofs/Run/Growth.lean
  =================================
  **Memories through runs** — that they only ever grow, whatever modules and hosts do.

  `Store.GrowsTo` says what a run makes of a store: memories stay where they are and grow
  within their maximum, instances keep their memory, and what is new is within its bounds.
  This holds of every action, from single operations over expressions, statements and host
  functions to calls and instances, whether or not the modules were accepted.

  So from a given store on two runs are the same if they differ only in a check that holds
  of all stores that it grows to.  `Same` says that of two actions; by it, what is true
  after each step need not be told step by step.
-/
import WasmScript.Proofs.Run.Instances
import WasmScript.Run.Network

namespace WasmScript

variable {σ : Type}

/-! ### What a run makes of a store -/

/-- What may become of a store. -/
structure Store.GrowsTo (s t : Store σ) : Prop where
  memories : ∀ {q : Nat} {m : LinearMemory}, s.memories[q]? = some m → ∃ m', t.memories[q]? =
    some m' ∧ m.GrowsTo m'
  instances : ∀ {p : Nat} {i : Instance}, s.instances[p]? = some i →
    ∃ i', t.instances[p]? = some i' ∧ i'.memory = i.memory
  fresh : ∀ {q : Nat} {m : LinearMemory}, s.memories.size ≤ q → t.memories[q]? = some m → m.Fits

namespace Store.GrowsTo

variable {s t u : Store σ}

theorem refl (s : Store σ) : s.GrowsTo s where
  memories h := ⟨_, h, .refl _⟩
  instances h := ⟨_, h, rfl⟩
  fresh hle h := absurd (Array.getElem?_eq_some_iff.mp h).1 (Nat.not_lt_of_le hle)

theorem trans (h : s.GrowsTo t) (h' : t.GrowsTo u) : s.GrowsTo u where
  memories hm := by
    obtain ⟨m', hm', hgrows⟩ := h.memories hm
    obtain ⟨m'', hm'', hgrows'⟩ := h'.memories hm'
    exact ⟨m'', hm'', hgrows.trans hgrows'⟩
  instances hi := by
    obtain ⟨i', hi', hmemory⟩ := h.instances hi
    obtain ⟨i'', hi'', hmemory'⟩ := h'.instances hi'
    exact ⟨i'', hi'', hmemory'.trans hmemory⟩
  fresh {q m} hle hm := by
    by_cases hlt : q < t.memories.size
    · have hget := Array.getElem?_eq_getElem hlt
      obtain ⟨m', hm', hgrows⟩ := h'.memories hget
      obtain rfl : m' = m := Option.some.inj (hm'.symm.trans hm)
      exact hgrows.fits (h.fresh hle hget)
    · exact h'.fresh (Nat.le_of_not_lt hlt) hm

theorem world (s : Store σ) (w : σ) :
    s.GrowsTo { s with world := w } := ⟨(refl s).memories, (refl s).instances, (refl s).fresh⟩

theorem setMemory {q : Nat} {m m' : LinearMemory} (hm : s.memories[q]? = some m)
    (h : m.GrowsTo m') :
    s.GrowsTo { s with memories := s.memories.setIfInBounds q m' } where
  memories {r l} hl := by
    rw [Array.getElem?_setIfInBounds]
    by_cases hqr : q = r
    · subst hqr
      obtain rfl : m = l := Option.some.inj (hm.symm.trans hl)
      rw [if_pos rfl, if_pos (Array.getElem?_eq_some_iff.mp hm).1]
      exact ⟨m', rfl, h⟩
    · rw [if_neg hqr]
      exact ⟨l, hl, .refl l⟩
  instances := (refl s).instances
  fresh {r l} hle hl := by
    have hlt : r < (s.memories.setIfInBounds q m').size := (Array.getElem?_eq_some_iff.mp hl).1
    rw [Array.size_setIfInBounds] at hlt
    omega

theorem addMemory {m : LinearMemory} (hm : m.Fits) :
    s.GrowsTo { s with memories := s.memories.push m } where
  memories {q l} hl := by
    have hlt := (Array.getElem?_eq_some_iff.mp hl).1
    refine ⟨l, ?_, .refl l⟩
    rw [Array.getElem?_push_lt hlt, ← hl, Array.getElem?_eq_getElem hlt]
  instances := (refl s).instances
  fresh {q l} hle hl := by
    have hlt : q < (s.memories.push m).size := (Array.getElem?_eq_some_iff.mp hl).1
    rw [Array.size_push] at hlt
    obtain rfl : q = s.memories.size := by omega
    obtain rfl : m = l := Option.some.inj (Array.getElem?_push_size.symm.trans hl)
    exact hm

theorem addInstance (s : Store σ) (i : Instance) :
    s.GrowsTo { s with instances := s.instances.push i } where
  memories := (refl s).memories
  instances {p j} hj := by
    have hlt := (Array.getElem?_eq_some_iff.mp hj).1
    refine ⟨j, ?_, rfl⟩
    rw [Array.getElem?_push_lt hlt, ← hj, Array.getElem?_eq_getElem hlt]
  fresh := (refl s).fresh

theorem setInstance {p : Nat} {change : Instance → Instance}
    (h : ∀ i, (change i).memory = i.memory) :
    s.GrowsTo { s with instances := s.instances.modify p change } where
  memories := (refl s).memories
  instances {r j} hj := by
    rw [Array.getElem?_modify, hj]
    split
    · exact ⟨change j, rfl, h j⟩
    · exact ⟨j, rfl, rfl⟩
  fresh := (refl s).fresh

/-- Memories stay within their bounds. -/
theorem fits (h : s.GrowsTo t) (hs : ∀ m ∈ s.memories, m.Fits) : ∀ m ∈ t.memories, m.Fits := by
  intro m hm
  obtain ⟨q, hq, rfl⟩ := Array.mem_iff_getElem.mp hm
  have hget := Array.getElem?_eq_getElem hq
  by_cases hlt : q < s.memories.size
  · obtain ⟨m', hm', hgrows⟩ := h.memories (Array.getElem?_eq_getElem hlt)
    obtain rfl : m' = t.memories[q] := Option.some.inj (hm'.symm.trans hget)
    exact hgrows.fits (hs _ (Array.getElem_mem hlt))
  · exact h.fresh (Nat.le_of_not_lt hlt) hget

/-- Instances keep their memory. -/
theorem memoryAt? (h : s.GrowsTo t) {place q : Nat} (hq : s.memoryAt? place = some q) :
    t.memoryAt? place = some q := by
  obtain ⟨i, hi, hmemory⟩ := Option.bind_eq_some_iff.mp hq
  obtain ⟨i', hi', hsame⟩ := h.instances hi
  rw [Store.memoryAt?, hi', Option.bind_some, hsame, hmemory]

end Store.GrowsTo

/-! ### Actions -/

/-- From each store that the given one grows to, two actions have the same outcome, in a store that
it grows to as well. -/
abbrev Same (s₀ : Store σ) {α : Type} (x y : Action σ α) : Prop :=
  Agree s₀.GrowsTo x y (fun _ => s₀.GrowsTo) fun _ => s₀.GrowsTo

theorem Same.growsTo {s : Store σ} {α : Type} {x y : Action σ α} (h : Same s x y) :
    s.GrowsTo (after (x s)) := by
  obtain ⟨hsame, hmeets⟩ := h s (.refl s)
  rw [hsame]
  cases hy : y s with
  | ok a t =>
    rw [hy] at hmeets
    exact hmeets
  | error e t =>
    rw [hy] at hmeets
    exact hmeets

/-- The value is the size of the memory that an instance has at this moment. -/
def Store.ShowsSize (s : Store σ) (place : Nat) (c : Cell) : Prop :=
  ∃ q m, s.memoryAt? place = some q ∧ s.memories[q]? = some m ∧ c.toValue = .i32 m.pages

theorem Cell.toValue_ofPages (m : LinearMemory) (pages : Int) :
    (ofPages m pages).toValue = .i32 pages := by
  unfold ofPages
  split
  · next h => rw [h.1]; rfl
  · rfl

namespace Action

variable {s₀ : Store σ} {α : Type} {place : Nat}

theorem same_of_growsTo {x : Action σ α} (h : ∀ s : Store σ, s.GrowsTo (after (x s))) :
    Same s₀ x x := by
  intro s hs
  have hgrows := hs.trans (h s)
  refine ⟨rfl, ?_⟩
  cases hx : x s with
  | ok a t =>
    rw [hx] at hgrows
    exact hgrows
  | error e t =>
    rw [hx] at hgrows
    exact hgrows

/-- An action that only looks at the store. -/
theorem same_of_still {x : Action σ α} (h : ∀ s, after (x s) = s) : Same s₀ x x :=
  same_of_growsTo fun s => (h s).symm ▸ .refl s

theorem same_ofExcept (r : Except Failure α) : Same s₀ (ofExcept id r) (ofExcept id r) := by
  apply same_of_still
  intro s
  cases r <;> rfl

theorem same_ofOption (o : Option α) : Same s₀ (ofOption o) (ofOption o) := by
  apply same_of_still
  intro s
  cases o <;> rfl

theorem same_instanceAt : Same s₀ (instanceAt place) (instanceAt place) := by
  apply same_of_still
  intro s
  change after (ofOption s.instances[place]? s) = s
  cases s.instances[place]? <;> rfl

theorem same_requireInstance : Same s₀ (requireInstance place) (requireInstance place) := by
  apply same_of_still
  intro s
  change after
    ((if s.instances.size ≤ place then throw .noInstance else pure () : Action σ Unit) s) = s
  split <;> rfl

theorem same_getGlobal (index : Nat) : Same s₀ (getGlobal place index) (getGlobal place index) :=
  same_instanceAt.bind fun _ => same_ofOption _

theorem same_setGlobal (index : Nat) (c : Cell) :
    Same s₀ (setGlobal place index c) (setGlobal place index c) := by
  refine (same_getGlobal index).bind fun _ => same_of_growsTo fun s => ?_
  exact .setInstance fun _ => rfl

theorem same_onMemory {op : EStateM Failure LinearMemory α}
    (hop : ∀ m : LinearMemory, Keeps m.GrowsTo op) :
    Same s₀ (onMemory place op) (onMemory place op) := by
  apply same_of_growsTo
  intro s
  cases hm : s.memories[place]? with
  | none =>
    unfold onMemory
    simp only [hm]
    exact .refl s
  | some m =>
    have hgrows := hop m m (.refl m)
    rw [onMemory_eq hm]
    cases hrun : op m with
    | ok a m' =>
      rw [hrun] at hgrows
      exact .setMemory hm hgrows
    | error e m' =>
      rw [hrun] at hgrows
      exact .setMemory hm hgrows

theorem same_onOwnMemory {op : LinearMemory.Op α} (hop : ∀ m : LinearMemory, Keeps m.GrowsTo op) :
    Same s₀ (onOwnMemory place op) (onOwnMemory place op) :=
  same_instanceAt.bind fun _ => (same_ofOption _).bind fun _ => same_onMemory fun m =>
    MemoryCall.keeps_lift (hop m)

theorem same_memoryGrow (delta : Nat) : Same s₀ (memoryGrow place delta) (memoryGrow place delta) :=
  same_onOwnMemory fun _ => (LinearMemory.keeps_grow delta).bind fun _ =>
    Keeps.get.bind fun _ => .pure _

/-- An instance operates on its memory, if it has one. -/
theorem onOwnMemory_cases (place : Nat) (op : LinearMemory.Op α) (s : Store σ) :
    (∃ i q m, s.instances[place]? = some i ∧ i.memory = some q ∧ s.memories[q]? = some m) ∨
      onOwnMemory place op s = .error .stuck s := by
  change _ ∨ EStateM.bind (ofOption s.instances[place]?) (fun i => ofOption i.memory >>= fun q =>
    onMemory q (MemoryCall.lift op)) s = _
  cases hi : s.instances[place]? with
  | none => exact .inr rfl
  | some i =>
    change _ ∨ EStateM.bind (ofOption i.memory) (fun q => onMemory q (MemoryCall.lift op)) s = _
    cases hq : i.memory with
    | none => exact .inr rfl
    | some q =>
      change _ ∨ onMemory q (MemoryCall.lift op) s = _
      cases hm : s.memories[q]? with
      | none =>
        right
        unfold onMemory
        simp only [hm]
      | some m => exact .inl ⟨i, q, m, rfl, hq, hm⟩

/-- An instance is told the size of its memory. -/
theorem agree_size (place : Nat) : Agree s₀.GrowsTo (memorySize place) (memorySize place)
    (fun c s => s.ShowsSize place c ∧ s₀.GrowsTo s) fun _ => s₀.GrowsTo := by
  intro s hs
  refine ⟨rfl, ?_⟩
  rcases onOwnMemory_cases place (do let m ← get; pure (Cell.ofPages m m.pages)) s with
    ⟨i, q, m, hi, hq, hm⟩ | hrun
  · rw [memorySize, onOwnMemory_of_instance hi hq hm]
    change Store.ShowsSize { s with memories := s.memories.setIfInBounds q m } place _
      ∧ s₀.GrowsTo { s with memories := s.memories.setIfInBounds q m }
    rw [Store.setMemory_self hm]
    exact ⟨⟨q, m, by rw [Store.memoryAt?, hi, Option.bind_some, hq], hm,
      Cell.toValue_ofPages m m.pages⟩, hs⟩
  · rw [memorySize, hrun]
    exact hs

end Action

/-! ### Running code -/

namespace IR

/-- From variables whose store the given one grows to, two runs have the same outcome, in a store
that it grows to as well. -/
abbrev SameRun (s₀ : Store σ) {α : Type} (x y : Run σ α) : Prop :=
  Agree (fun v => s₀.GrowsTo v.store) x y (fun _ v => s₀.GrowsTo v.store) fun _ v =>
    s₀.GrowsTo v.store

/-- Surroundings which only differ in calls that do the same, and in watches that object to nothing:
not to any value, as long as the size of a memory is told as it is. -/
structure SameSurroundings (s₀ : Store σ) (around around' : Surroundings σ) : Prop where
  place : around'.place = around.place
  turns : around'.turns = around.turns
  call : ∀ function args, Same s₀ (around.call function args) (around'.call function args)
  watch : ∀ e c v, s₀.GrowsTo v.store → (e = .memorySize → v.store.ShowsSize around.place c) →
    around.watch e c v ∧ around'.watch e c v

namespace Run

variable {s₀ : Store σ} {α : Type} {around around' : Surroundings σ}

/-- A run that does not touch the store. -/
theorem same_of_store {x : Run σ α} (h : ∀ v, (after (x v)).store = v.store) : SameRun s₀ x x := by
  intro v hv
  have hstore : s₀.GrowsTo (after (x v)).store := (h v).symm ▸ hv
  refine ⟨rfl, ?_⟩
  cases hx : x v with
  | ok a w =>
    rw [hx] at hstore
    exact hstore
  | error e w =>
    rw [hx] at hstore
    exact hstore

theorem same_act {a a' : Action σ α} (h : Same s₀ a a') : SameRun s₀ (act a) (act a') := by
  rintro ⟨locals, temps, store⟩ hv
  obtain ⟨hsame, hmeets⟩ := h store hv
  simp only [act]
  rw [hsame]
  cases ha : a' store with
  | ok x s =>
    rw [ha] at hmeets
    exact ⟨rfl, hmeets⟩
  | error e s =>
    rw [ha] at hmeets
    exact ⟨rfl, hmeets⟩

theorem same_result (r : Except Failure α) : SameRun s₀ (result r) (result r) := by
  apply same_of_store
  intro v
  cases r <;> rfl

theorem same_present (o : Option α) : SameRun s₀ (present o) (present o) := by
  apply same_of_store
  intro v
  cases o <;> rfl

theorem same_pure (a : α) : SameRun s₀ (pure a) (pure a) := Agree.pure fun _ hv => hv

theorem same_get {k k' : Variables σ → Run σ α} (h : ∀ v, SameRun s₀ (k v) (k' v)) :
    SameRun s₀ (get >>= k) (get >>= k') := by
  refine Agree.bind (Agree.get fun _ hv => hv) fun v => (h v).pre ?_
  rintro _ ⟨rfl, hv⟩
  exact hv

theorem same_setLocal (index : Nat) (c : Cell) :
    SameRun s₀ (setLocal index c) (setLocal index c) := by
  apply same_of_store
  rintro ⟨locals, temps, store⟩
  simp only [setLocal]
  split <;> rfl

theorem same_setTemp (id : Nat) (c : Cell) : SameRun s₀ (setTemp id c) (setTemp id c) := by
  apply same_of_store
  rintro ⟨locals, temps, store⟩
  simp only [setTemp]
  split <;> rfl

theorem same_setTemps :
    ∀ (ids : List Nat) (cs : List Cell), SameRun s₀ (setTemps ids cs) (setTemps ids cs)
  | [], [] => same_pure ()
  | id :: ids, c :: cs => (same_setTemp id c).bind fun _ => same_setTemps ids cs
  | [], _ :: _ => same_of_store fun _ => rfl
  | _ :: _, [] => same_of_store fun _ => rfl

theorem same_toI32 (c : Cell) : SameRun s₀ (toI32 c) (toI32 c) := by
  apply same_of_store
  intro v
  unfold toI32
  cases c.toValue <;> rfl

theorem same_toAddress (c : Cell) : SameRun s₀ (toAddress c) (toAddress c) :=
  (same_toI32 c).bind fun _ => same_pure _

theorem same_theOnly (cs : List Cell) : SameRun s₀ (theOnly cs) (theOnly cs) := by
  apply same_of_store
  intro v
  unfold theOnly
  split <;> rfl

theorem agree_look (h : SameSurroundings s₀ around around') {e : Expression} {x y : Run σ Cell}
    (hxy : Agree (fun v => s₀.GrowsTo v.store) x y
      (fun c v => (e = .memorySize → v.store.ShowsSize around.place c) ∧ s₀.GrowsTo v.store)
      fun _ v => s₀.GrowsTo v.store) :
    SameRun s₀ (watched around e x) (watched around' e y) := by
  refine hxy.bind fun c v hv => ?_
  obtain ⟨hwatch, hwatch'⟩ := h.watch e c v hv.2 hv.1
  change (if around.watch e c v then pure c else throw .stuck : Run σ Cell) v
      = (if around'.watch e c v then pure c else throw .stuck : Run σ Cell) v
    ∧ Meets _ _ ((if around'.watch e c v then pure c else throw .stuck : Run σ Cell) v)
  rw [if_pos hwatch, if_pos hwatch']
  exact ⟨rfl, hv.2⟩

theorem same_watched (h : SameSurroundings s₀ around around') {e : Expression}
    (hne : e ≠ .memorySize) {x y : Run σ Cell} (hxy : SameRun s₀ x y) :
    SameRun s₀ (watched around e x) (watched around' e y) :=
  agree_look h (hxy.post fun _ _ hv => ⟨fun he => (hne he).elim, hv⟩)

mutual
theorem same_evaluate (h : SameSurroundings s₀ around around') (e : Expression) :
    SameRun s₀ (evaluate around e) (evaluate around' e) := by
  have hplace := h.place
  cases e with
  | literal v =>
    rw [evaluate, evaluate]
    exact same_watched h (by simp) (same_pure _)
  | localRef type index =>
    rw [evaluate, evaluate]
    exact same_watched h (by simp) (same_get fun _ => same_present _)
  | tempRef type id =>
    rw [evaluate, evaluate]
    exact same_watched h (by simp) (same_get fun _ => same_present _)
  | globalRef type index =>
    rw [evaluate, evaluate, hplace]
    exact same_watched h (by simp) (same_act (Action.same_getGlobal index))
  | unary type op a =>
    rw [evaluate, evaluate]
    exact same_watched h (by simp) ((same_evaluate h a).bind fun _ => same_result _)
  | binary type op a b =>
    rw [evaluate, evaluate]
    refine same_watched h (by simp) ((same_evaluate h a).bind fun _ => ?_)
    exact (same_evaluate h b).bind fun _ => same_result _
  | compare op a b =>
    rw [evaluate, evaluate]
    refine same_watched h (by simp) ((same_evaluate h a).bind fun _ => ?_)
    exact (same_evaluate h b).bind fun _ => same_result _
  | select type c a b =>
    rw [evaluate, evaluate]
    refine same_watched h (by simp)
      ((same_evaluate h c).bind fun _ => (same_toI32 _).bind fun n => ?_)
    split
    · exact same_evaluate h a
    · exact same_evaluate h b
  | call type function args =>
    rw [evaluate, evaluate]
    refine same_watched h (by simp) ((same_evaluateAll h args).bind fun _ => ?_)
    exact (same_act (h.call function _)).bind fun _ => same_theOnly _
  | tee type index a =>
    rw [evaluate, evaluate]
    refine same_watched h (by simp) ((same_evaluate h a).bind fun _ => ?_)
    exact (same_setLocal index _).bind fun _ => same_pure _
  | address a offset =>
    rw [evaluate, evaluate]
    refine same_watched h (by simp) ((same_evaluate h a).bind fun _ => ?_)
    exact (same_toI32 _).bind fun _ => same_pure _
  | load access a =>
    rw [evaluate, evaluate, hplace]
    refine same_watched h (by simp)
      ((same_evaluate h a).bind fun _ => (same_toAddress _).bind fun _ => ?_)
    exact (same_act (Action.same_onOwnMemory fun _ => LinearMemory.keeps_load _ _ _)).bind fun _ =>
      same_pure _
  | memorySize =>
    rw [evaluate, evaluate, hplace]
    -- Of all values only a size is watched, and this is the one that the store shows.
    refine agree_look h ?_
    rintro ⟨locals, temps, store⟩ hv
    obtain ⟨-, hmeets⟩ := Action.agree_size around.place store hv
    refine ⟨rfl, ?_⟩
    simp only [act]
    cases hrun : Action.memorySize around.place store with
    | ok c s =>
      rw [hrun] at hmeets
      exact ⟨fun _ => hmeets.1, hmeets.2⟩
    | error e s =>
      rw [hrun] at hmeets
      exact hmeets
  | memoryGrow a =>
    rw [evaluate, evaluate, hplace]
    refine same_watched h (by simp)
      ((same_evaluate h a).bind fun _ => (same_toAddress _).bind fun n => ?_)
    exact same_act (Action.same_memoryGrow n)

theorem same_evaluateAll (h : SameSurroundings s₀ around around') (es : List Expression) :
    SameRun s₀ (evaluateAll around es) (evaluateAll around' es) := by
  cases es with
  | nil =>
    rw [evaluateAll, evaluateAll]
    exact same_pure _
  | cons e es =>
    rw [evaluateAll, evaluateAll]
    exact (same_evaluate h e).bind fun _ => (same_evaluateAll h es).bind fun _ => same_pure _
end

theorem same_evaluateOperand (h : SameSurroundings s₀ around around') (operand : Operand) :
    SameRun s₀ (evaluateOperand around operand) (evaluateOperand around' operand) := by
  cases operand with
  | single e => exact (same_evaluate h e).bind fun _ => same_pure _
  | multi function args types =>
    exact (same_evaluateAll h args).bind fun _ => same_act (h.call function _)

/-! ### Statements -/

theorem same_takeBranch (h : SameSurroundings s₀ around around') (b : Branch) :
    SameRun s₀ (takeBranch around b) (takeBranch around' b) := by
  refine (same_evaluateAll h b.values).bind fun cs => ?_
  cases b.mode with
  | leave => exact same_pure _
  | exit => exact (same_setTemps b.slots cs).bind fun _ => same_pure _
  | restart => exact (same_setTemps b.slots cs).bind fun _ => same_pure _

theorem same_inScope {body : List Statement} {x y : Run σ Ending} (hxy : SameRun s₀ x y) :
    SameRun s₀ (inScope body x) (inScope body y) := by
  refine hxy.bind fun ending => Agree.bind (same_of_store fun _ => rfl) fun _ => same_pure _

theorem same_repeatBody {label : Int} {x y : Run σ Ending} (hxy : SameRun s₀ x y) (turns : Nat) :
    SameRun s₀ (repeatBody label x turns) (repeatBody label y turns) := by
  induction turns with
  | zero => exact same_of_store fun _ => rfl
  | succ turns ih =>
    rw [repeatBody, repeatBody]
    refine hxy.bind fun ending => ?_
    cases ending with
    | next => exact same_pure _
    | exit l => exact same_pure _
    | restart l =>
      dsimp only
      split
      · exact ih
      · exact same_pure _
    | leave cells => exact same_pure _

theorem same_onMemory {op : LinearMemory.Op Unit} {place : Nat}
    (hop : ∀ m : LinearMemory, Keeps m.GrowsTo op) :
    SameRun s₀ (do act (.onOwnMemory place op); pure Ending.next)
      (do act (.onOwnMemory place op); pure Ending.next) :=
  (same_act (Action.same_onOwnMemory hop)).bind fun _ => same_pure _

mutual
theorem same_execute (h : SameSurroundings s₀ around around') (s : Statement) :
    SameRun s₀ (execute around s) (execute around' s) := by
  have hplace := h.place
  cases s with
  | block label targeted body =>
    rw [execute, execute]
    exact (same_inScope (same_executeAll h body)).bind fun _ => same_pure _
  | loop label targeted body =>
    rw [execute, execute, h.turns]
    exact same_repeatBody (same_inScope (same_executeAll h body)) _
  | conditional label targeted condition yes no =>
    rw [execute, execute]
    refine (same_evaluate h condition).bind fun c => (same_toI32 c).bind fun n => ?_
    split
    · exact (same_inScope (same_executeAll h yes)).bind fun _ => same_pure _
    · exact (same_inScope (same_executeAll h no)).bind fun _ => same_pure _
  | branch b =>
    rw [execute, execute]
    exact same_takeBranch h b
  | branchIf condition b =>
    rw [execute, execute]
    refine (same_evaluate h condition).bind fun c => (same_toI32 c).bind fun n => ?_
    split
    · exact same_takeBranch h b
    · exact same_pure _
  | branchTable index targets default =>
    rw [execute, execute]
    exact (same_evaluate h index).bind fun c => (same_toAddress c).bind fun n => same_takeBranch h _
  | leave values =>
    rw [execute, execute]
    exact (same_evaluateAll h values).bind fun _ => same_pure _
  | unreachable =>
    rw [execute, execute]
    exact same_of_store fun _ => rfl
  | localSet index value =>
    rw [execute, execute]
    exact (same_evaluate h value).bind fun c => (same_setLocal index c).bind fun _ => same_pure _
  | globalSet index value =>
    rw [execute, execute, hplace]
    refine (same_evaluate h value).bind fun c => ?_
    exact (same_act (Action.same_setGlobal index c)).bind fun _ => same_pure _
  | define ids value =>
    rw [execute, execute]
    exact (same_evaluateOperand h value).bind fun cs => (same_setTemps ids cs).bind fun _ =>
      same_pure _
  | assign ids values =>
    rw [execute, execute]
    exact (same_evaluateAll h values).bind fun cs => (same_setTemps ids cs).bind fun _ =>
      same_pure _
  | store access address value =>
    rw [execute, execute, hplace]
    refine (same_evaluate h address).bind fun a => (same_toAddress a).bind fun i => ?_
    refine (same_evaluate h value).bind fun c => (same_result _).bind fun n => ?_
    -- Only a call can tell the two surroundings apart, and the memory itself is one and the same.
    exact same_onMemory fun _ => LinearMemory.keeps_store _ _ _
  | memoryCopy destination source length =>
    rw [execute, execute, hplace]
    refine (same_evaluate h destination).bind fun a => (same_toAddress a).bind fun d => ?_
    refine (same_evaluate h source).bind fun b => (same_toAddress b).bind fun s => ?_
    refine (same_evaluate h length).bind fun c => (same_toAddress c).bind fun n => ?_
    exact same_onMemory fun _ => LinearMemory.keeps_copy _ _ _
  | memoryFill destination value length =>
    rw [execute, execute, hplace]
    refine (same_evaluate h destination).bind fun a => (same_toAddress a).bind fun d => ?_
    refine (same_evaluate h value).bind fun b => (same_toI32 b).bind fun v => ?_
    refine (same_evaluate h length).bind fun c => (same_toAddress c).bind fun n => ?_
    exact same_onMemory fun _ => LinearMemory.keeps_fill _ _ _
  | evaluate value =>
    rw [execute, execute]
    exact (same_evaluateOperand h value).bind fun _ => same_pure _

theorem same_executeAll (h : SameSurroundings s₀ around around') (ss : List Statement) :
    SameRun s₀ (executeAll around ss) (executeAll around' ss) := by
  cases ss with
  | nil =>
    rw [executeAll, executeAll]
    exact same_pure _
  | cons s ss =>
    rw [executeAll, executeAll]
    refine (same_execute h s).bind fun ending => ?_
    cases ending with
    | next => exact same_executeAll h ss
    | exit l => exact same_pure _
    | restart l => exact same_pure _
    | leave cells => exact same_pure _
end

end Run

/-- A function does the same in surroundings that do the same. -/
theorem Function.same_run {s₀ : Store σ} {around around' : Surroundings σ}
    (h : SameSurroundings s₀ around around') (f : Function) (args : List Cell) :
    Same s₀ (f.run around args) (f.run around' args) := by
  intro store hstore
  obtain ⟨hsame, hmeets⟩ := Run.same_executeAll h f.body
    ⟨(args ++ f.locals.map Cell.zero).toArray, (f.temps.map Temp.initial).toArray, store⟩ hstore
  unfold Function.run
  dsimp only
  rw [hsame]
  refine ⟨rfl, ?_⟩
  split
  · next ending v hrun =>
    rw [hrun] at hmeets
    split
    · exact hmeets
    · exact hmeets
  · next e v hrun =>
    rw [hrun] at hmeets
    exact hmeets

end IR

end WasmScript
