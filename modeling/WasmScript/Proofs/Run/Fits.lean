/-
  WasmScript/Proofs/Run/Fits.lean
  ===============================
  **Stores that fit a module** — what holds of the store while instances of a module run.

  A cell fits a type if it holds a value of the type in its signed form.  A store fits a
  module if it has so many instances of it, each with a cell for each global and a memory
  if the module has one, and if no memory is out of its bounds.  Each operation of running
  code finds what it asks for in such a store, and leaves one behind.
-/
import Mathlib.Algebra.Group.Nat.Defs
import Mathlib.Algebra.Ring.Int.Defs
import Mathlib.Data.List.Forall2
import WasmScript.Run.Store
import WasmScript.Run.Operation
import WasmScript.Proofs.Memory

namespace WasmScript

/-! ### Cells -/

/-- A value in the signed form of a type. -/
def Value.Fits (type : ValueType) (v : Value) : Prop := v.type = type ∧ v.Canonical

/-- A cell that holds a value in the signed form of a type. -/
def Cell.Fits (type : ValueType) (c : Cell) : Prop := c.toValue.Fits type

theorem Value.fits_ofInt {type : ValueType} {n : Int} (hlow : -2 ^ (type.width - 1) ≤ n)
    (hhigh : n < 2 ^ (type.width - 1)) : (Value.ofInt type n).Fits type := by
  cases type with
  | i32 => exact ⟨rfl, hlow, hhigh⟩
  | i64 => exact ⟨rfl, hlow, hhigh⟩

theorem Value.fits_i32_iff {v : Value} :
    v.Fits .i32 ↔ ∃ n, v = .i32 n ∧ -0x80000000 ≤ n ∧ n < 0x80000000 := by
  constructor
  · rintro ⟨htype, hcanonical⟩
    cases v with
    | i32 n => exact ⟨n, rfl, hcanonical⟩
    | i64 n => cases htype
  · rintro ⟨n, rfl, h⟩
    exact ⟨rfl, h⟩

theorem Cell.fits_zero (type : ValueType) : (Cell.zero type).Fits type := by
  cases type <;> exact ⟨rfl, by decide, by decide⟩

/-- Cells that fit types one by one. -/
abbrev FitAll (cells : List Cell) (types : List ValueType) : Prop :=
  List.Forall₂ (fun c type => Cell.Fits type c) cells types

/-- As `FitAll`, for arrays. -/
structure FitEach (cells : Array Cell) (types : Array ValueType) : Prop where
  size : cells.size = types.size
  fits : ∀ (i : Nat) (type : ValueType) (c : Cell), types[i]? = some type → cells[i]? = some c →
    c.Fits type

theorem FitEach.get {cells : Array Cell} {types : Array ValueType} (h : FitEach cells types)
    {i : Nat} {type : ValueType} (htype : types[i]? = some type) :
    ∃ c, cells[i]? = some c ∧ c.Fits type := by
  have hlt : i < cells.size := h.size ▸ (Array.getElem?_eq_some_iff.mp htype).1
  exact ⟨cells[i], Array.getElem?_eq_getElem hlt,
    h.fits i type _ htype (Array.getElem?_eq_getElem hlt)⟩

theorem FitEach.set {cells : Array Cell} {types : Array ValueType} (h : FitEach cells types)
    {i : Nat} {type : ValueType} {c : Cell} (htype : types[i]? = some type) (hc : c.Fits type) :
    FitEach (cells.setIfInBounds i c) types := by
  refine ⟨Array.size_setIfInBounds.trans h.size, fun j t d ht hd => ?_⟩
  rw [Array.getElem?_setIfInBounds] at hd
  split at hd
  · next hij =>
    subst hij
    split at hd
    · cases hd
      rw [htype] at ht
      cases ht
      exact hc
    · cases hd
  · exact h.fits j t d ht hd

theorem fitEach_toArray {cells : List Cell} {types : List ValueType} (h : FitAll cells types) :
    FitEach cells.toArray types.toArray := by
  refine ⟨?_, fun i type c htype hc => ?_⟩
  · rw [List.size_toArray, List.size_toArray, h.length_eq]
  · rw [List.getElem?_toArray] at htype hc
    induction h generalizing i with
    | nil => cases hc
    | cons hfirst _ ih =>
      cases i with
      | zero =>
        cases htype
        cases hc
        exact hfirst
      | succ i => exact ih i htype hc

/-! ### Stores -/

def Module.globalTypes (m : Module) : Array ValueType := m.globals.map Global.type

theorem Module.globalTypes_of_found {m : Module} {index : Nat} {g : Global}
    (h : m.globals[index]? = some g) :
    m.globalTypes[index]? = some g.type := by
  rw [globalTypes, Array.getElem?_map, h, Option.map_some]

/-- An instance of a module, among so many memories. -/
structure Instance.Fits (m : Module) (memories : Nat) (i : Instance) : Prop where
  imports : i.imports.size = m.imports.size
  memory : i.memory.isSome = m.memory.isSome
  place : ∀ p ∈ i.memory, p < memories
  globals : FitEach i.globals m.globalTypes

/-- A store with so many instances of a module. -/
structure Store.Fits {σ : Type} (m : Module) (count : Nat) (s : Store σ) : Prop where
  size : s.instances.size = count
  instances : ∀ i ∈ s.instances, i.Fits m s.memories.size
  memories : ∀ memory ∈ s.memories, memory.Fits

/-- A memory that is put where it was. -/
theorem Store.setMemory_self {σ : Type} {s : Store σ} {p : Nat} {memory : LinearMemory}
    (h : s.memories[p]? = some memory) :
    { s with memories := s.memories.setIfInBounds p memory } = s := by
  obtain ⟨hlt, rfl⟩ := Array.getElem?_eq_some_iff.mp h
  rw [Array.setIfInBounds, dif_pos hlt, Array.set_getElem_self]

namespace Store.Fits

variable {σ : Type} {m : Module} {count : Nat} {s : Store σ}

theorem world (h : s.Fits m count) (w : σ) : ({ s with world := w } : Store σ).Fits m count :=
  ⟨h.size, h.instances, h.memories⟩

theorem setMemory (h : s.Fits m count) {p : Nat} {memory : LinearMemory} (hm : memory.Fits) :
    ({ s with memories := s.memories.setIfInBounds p memory } : Store σ).Fits m count := by
  refine ⟨h.size, fun i hi => ?_, fun memory' hmem => ?_⟩
  · obtain ⟨himports, hmemory, hplace, hglobals⟩ := h.instances i hi
    exact ⟨himports, hmemory, fun p hp => Array.size_setIfInBounds.symm ▸ hplace p hp, hglobals⟩
  · rcases Array.mem_or_eq_of_mem_setIfInBounds hmem with hmem | rfl
    · exact h.memories memory' hmem
    · exact hm

theorem setInstance (h : s.Fits m count) {p : Nat} {change : Instance → Instance}
    (hchange : ∀ i : Instance, i.Fits m s.memories.size → (change i).Fits m s.memories.size) :
    ({ s with instances := s.instances.modify p change } : Store σ).Fits m count := by
  refine ⟨Array.size_modify.trans h.size, fun i hi => ?_, h.memories⟩
  obtain ⟨j, hj, rfl⟩ := Array.mem_iff_getElem.mp hi
  rw [Array.getElem_modify]
  split
  · exact hchange _ (h.instances _ (Array.getElem_mem _))
  · exact h.instances _ (Array.getElem_mem _)

end Store.Fits

namespace Action

variable {σ : Type} {m : Module} {count place : Nat} {s : Store σ}

/-! ### What running code asks of its instance -/

theorem requireInstance_eq (h : s.Fits m count) (hplace : place < count) :
    requireInstance place s = .ok () s := by
  have hnot : ¬ s.instances.size ≤ place := by
    rw [h.size]
    omega
  change (if s.instances.size ≤ place then throw .noInstance else pure () : Action σ Unit) s = _
  rw [if_neg hnot]
  rfl

theorem requireInstance_fails (h : s.Fits m count) (hplace : count ≤ place) :
    requireInstance place s = .error .noInstance s := by
  change (if s.instances.size ≤ place then throw .noInstance else pure () : Action σ Unit) s = _
  rw [if_pos (h.size ▸ hplace)]
  rfl

theorem requireMemory_eq (hplace : place < s.memories.size) : requireMemory place s = .ok () s := by
  change (if s.memories.size ≤ place then throw .noMemory else pure () : Action σ Unit) s = _
  rw [if_neg (Nat.not_le_of_lt hplace)]
  rfl

theorem requireMemory_fails (hplace : s.memories.size ≤ place) :
    requireMemory place s = .error .noMemory s := by
  change (if s.memories.size ≤ place then throw .noMemory else pure () : Action σ Unit) s = _
  rw [if_pos hplace]
  rfl

theorem instanceAt_eq (h : s.Fits m count) (hplace : place < count) :
    ∃ i, s.instances[place]? = some i ∧ instanceAt place s = .ok i s ∧
      i.Fits m s.memories.size := by
  have hlt : place < s.instances.size := h.size.symm ▸ hplace
  have hget := Array.getElem?_eq_getElem hlt
  refine ⟨s.instances[place], hget, ?_, h.instances _ (Array.getElem_mem hlt)⟩
  change ofOption s.instances[place]? s = _
  rw [hget]
  rfl

theorem getGlobal_eq (h : s.Fits m count) (hplace : place < count) {index : Nat} {type : ValueType}
    (htype : m.globalTypes[index]? = some type) :
    ∃ c, getGlobal place index s = .ok c s ∧ c.Fits type := by
  obtain ⟨i, -, hi, hfits⟩ := instanceAt_eq h hplace
  obtain ⟨c, hc, hcfits⟩ := hfits.globals.get htype
  refine ⟨c, ?_, hcfits⟩
  change EStateM.bind (instanceAt place) (fun i => ofOption i.globals[index]?) s = _
  simp only [EStateM.bind, hi, hc]
  rfl

theorem setGlobal_eq (h : s.Fits m count) (hplace : place < count) {index : Nat} {type : ValueType}
    (htype : m.globalTypes[index]? = some type) {c : Cell} (hc : c.Fits type) :
    ∃ s', setGlobal place index c s = .ok () s' ∧ s'.Fits m count := by
  obtain ⟨c', hget, -⟩ := getGlobal_eq h hplace htype
  let change (i : Instance) : Instance := { i with globals := i.globals.setIfInBounds index c }
  have hchange (i : Instance) (hi : i.Fits m s.memories.size) :
      (change i).Fits m s.memories.size :=
    { hi with globals := hi.globals.set htype hc }
  refine ⟨_, ?_, h.setInstance (p := place) hchange⟩
  change EStateM.bind (getGlobal place index) _ s = _
  simp only [EStateM.bind, hget]
  rfl

/-- Putting what is at a place there changes nothing. -/
theorem setIfInBounds_eq_self {α : Type} {xs : Array α} {i : Nat} {a : α} (h : xs[i]? = some a) :
    xs.setIfInBounds i a = xs := by
  obtain ⟨hi, rfl⟩ := Array.getElem?_eq_some_iff.mp h
  rw [Array.setIfInBounds, dif_pos hi, Array.set_getElem_self]

/-- An operation on a memory changes that memory alone. -/
theorem onMemory_eq {α : Type} {p : Nat} {memory : LinearMemory}
    (hmemory : s.memories[p]? = some memory) (op : EStateM Failure LinearMemory α) :
    onMemory p op s =
      match op memory with
      | .ok a memory => .ok a { s with memories := s.memories.setIfInBounds p memory }
      | .error e memory => .error e { s with memories := s.memories.setIfInBounds p memory } := by
  unfold onMemory
  simp only [hmemory]
  cases op memory <;> simp

/-- An operation on the memory of an instance is one on the memory that the instance has. -/
theorem onOwnMemory_of_instance {α : Type} {i : Instance} {p : Nat} {memory : LinearMemory}
    (hi : s.instances[place]? = some i) (hp : i.memory = some p)
    (hmemory : s.memories[p]? = some memory) (op : LinearMemory.Op α) :
    onOwnMemory place op s =
      match op memory with
      | .ok a memory => .ok a { s with memories := s.memories.setIfInBounds p memory }
      | .error kind memory =>
        .error (.trap kind) { s with memories := s.memories.setIfInBounds p memory } := by
  have hown : onOwnMemory place op s = onMemory p (MemoryCall.lift op) s := by
    change EStateM.bind (instanceAt place) _ s = _
    have hat : instanceAt place s = .ok i s := by
      change ofOption s.instances[place]? s = _
      rw [hi]
      rfl
    simp only [EStateM.bind, hat, hp]
    rfl
  rw [hown, onMemory_eq hmemory]
  unfold MemoryCall.lift
  cases op memory <;> rfl

theorem onOwnMemory_eq {α : Type} (h : s.Fits m count) (hplace : place < count)
    (hmemory : m.memory.isSome) (op : LinearMemory.Op α) :
    ∃ p memory, s.memories[p]? = some memory ∧ memory.Fits ∧ onOwnMemory place op s =
      match op memory with
      | .ok a memory => .ok a { s with memories := s.memories.setIfInBounds p memory }
      | .error kind memory =>
        .error (.trap kind) { s with memories := s.memories.setIfInBounds p memory } := by
  obtain ⟨i, hi, -, hfits⟩ := instanceAt_eq h hplace
  have hsome : i.memory.isSome := hfits.memory.trans hmemory
  obtain ⟨p, hp⟩ := Option.isSome_iff_exists.mp hsome
  have hlt : p < s.memories.size := hfits.place p hp
  have hget := Array.getElem?_eq_getElem hlt
  exact ⟨p, s.memories[p], hget, h.memories _ (Array.getElem_mem hlt),
    onOwnMemory_of_instance hi hp hget op⟩

end Action

end WasmScript
