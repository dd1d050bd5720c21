/-
  WasmScript/Proofs/Run/Linking.lean
  ==================================
  **New instances** — that they fit their module, and fail as calls do.

  Linking binds a place for each import, lends or makes the memory and starts the globals at
  their initial values, so a store that fits has one more instance after it.  It fails
  before it changes anything.  What comes after it, the data segments and the start
  function, finds what it asks for; two machines whose bodies agree do the same in both parts.
-/
import WasmScript.Proofs.Run.Calls

namespace WasmScript

variable {σ : Type} {m : Module} {count place : Nat}

/-! ### Stores that grow -/

namespace Store.Fits

variable {s : Store σ}

theorem addMemory (h : s.Fits m count) {memory : LinearMemory} (hm : memory.Fits) :
    ({ s with memories := s.memories.push memory } : Store σ).Fits m count := by
  refine ⟨h.size, fun i hi => ?_, fun memory' hmem => ?_⟩
  · obtain ⟨himports, hmemory, hplace, hglobals⟩ := h.instances i hi
    refine ⟨himports, hmemory, fun p hp => ?_, hglobals⟩
    rw [Array.size_push]
    exact Nat.lt_succ_of_lt (hplace p hp)
  · rcases Array.mem_push.mp hmem with hmem | rfl
    · exact h.memories memory' hmem
    · exact hm

theorem addInstance (h : s.Fits m count) {i : Instance} (hi : i.Fits m s.memories.size) :
    ({ s with instances := s.instances.push i } : Store σ).Fits m (count + 1) := by
  refine ⟨by rw [Array.size_push, h.size], fun j hj => ?_, h.memories⟩
  rcases Array.mem_push.mp hj with hj | rfl
  · exact h.instances j hj
  · exact hi

end Store.Fits

/-- Globals start at values of their types. -/
theorem Module.fitEach_init (h : m.WellFormed) :
    FitEach (m.globals.map fun g => .plain g.init) m.globalTypes := by
  refine ⟨by simp [Module.globalTypes], fun i type c htype hc => ?_⟩
  rw [Module.globalTypes, Array.getElem?_map] at htype
  rw [Array.getElem?_map] at hc
  obtain ⟨g, hg, rfl⟩ := Option.map_eq_some_iff.mp htype
  rw [hg] at hc
  cases hc
  exact h.globals g (Array.mem_of_getElem? hg)

/-- The most pages of a memory that is not lent: without a declared maximum it may grow as the
options allow. -/
def Limits.most (limits : Limits) (maxPages : Nat) :
    Nat := limits.maximum.getD (max limits.initial maxPages)

theorem Limits.most_bounds {limits : Limits} (h : limits.WellFormed Decode.maxMemoryPages)
    {maxPages : Nat} (hpages : maxPages ≤ LinearMemory.maxPages) :
    limits.initial ≤ limits.most maxPages ∧ limits.most maxPages ≤ LinearMemory.maxPages := by
  obtain ⟨hinitial, hmaximum⟩ := h
  unfold most
  cases hmax : limits.maximum with
  | none => exact ⟨Nat.le_max_left _ _, Nat.max_le.mpr ⟨hinitial, hpages⟩⟩
  | some n => exact hmaximum n hmax

namespace Machine

open WasmScript.Action

variable {M : Machine σ} {imports : HostValue}

/-! ### Binding -/

theorem agree_bindFunctions (entries : List FunctionImport) :
    Agree (Store.Fits (σ := σ) m count) (bindFunctions imports entries)
      (bindFunctions imports entries)
      (fun places s => places.length = entries.length ∧ s.Fits m count)
      (fun _ s => s.Fits m count) := by
  induction entries with
  | nil => exact Agree.pure fun s hs => ⟨rfl, hs⟩
  | cons entry rest ih =>
    have hfirst : Agree (Store.Fits (σ := σ) m count) (bindFunction imports entry.module entry.name)
        (bindFunction imports entry.module entry.name) (fun _ s => s.Fits m count)
        (fun _ s => s.Fits m count) := by
      unfold bindFunction
      split
      · exact Agree.pure fun s hs => hs
      · exact Agree.throw fun s hs => hs
    refine hfirst.bind fun p => ih.bind fun places => Agree.of_fact fun hplaces => ?_
    exact Agree.pure fun s hs => ⟨congrArg (· + 1) hplaces, hs⟩

/-- The memory that a host lends is one of the store. -/
theorem agree_bindMemory (module field : String) (required allowed : HostValue) :
    Agree (Store.Fits (σ := σ) m count) (bindMemory imports module field required allowed)
      (bindMemory imports module field required allowed)
      (fun p s => p < s.memories.size ∧ s.Fits m count) (fun _ s => s.Fits m count) := by
  unfold bindMemory
  split
  · next p _ _ _ =>
    let There (s : Store σ) : Prop := p < s.memories.size ∧ s.Fits m count
    -- Nothing after the memory is found changes the store.
    have hpure {α : Type} (r : Except Failure α) : Agree There (ofExcept id r) (ofExcept id r)
        (fun _ => There) (fun _ s => s.Fits m count) :=
      (agree_ofExcept r).mono (fun _ h => h) (fun _ _ h => h.2) fun _ _ h => h.2.2
    have hrefuse (r : Except Failure String) (flaw : String → Failure)
        (next : PUnit → Action σ Nat) :
        Agree There (do let text ← ofExcept id r; let x ← throw (flaw text); next x)
          (do let text ← ofExcept id r; let x ← throw (flaw text); next x)
          (fun p s => p < s.memories.size ∧ s.Fits m count) (fun _ s => s.Fits m count) :=
      (hpure r).bind fun text => Agree.bind (Q := fun _ _ => False) (Agree.throw fun _ h => h.2)
        fun _ _ h => h.elim
    refine Agree.bind (Agree.get fun _ h => h) fun s => ?_
    refine Agree.bind (Q := fun _ => There) ?_ fun memory => (hpure _).bind fun few => ?_
    · rintro s ⟨rfl, hs⟩
      refine ⟨rfl, ?_⟩
      cases hmemory : s.memories[p]? with
      | none => exact hs
      | some memory => exact ⟨(Array.getElem?_eq_some_iff.mp hmemory).1, hs⟩
    split
    · cases few with
      | true => exact hrefuse _ _ _
      | false => exact Agree.pure fun _ h => h
    · cases few with
      | true => exact hrefuse _ _ _
      | false =>
        refine (hpure _).bind fun grows => ?_
        cases grows with
        | true => exact hrefuse _ _ _
        | false => exact Agree.pure fun _ h => h
  · exact Agree.throw fun s hs => hs

/-- The memory of a new instance is one that there is, if the module has one. -/
theorem agree_linkMemory (hwell : M.module.WellFormed)
    (hpages : M.maxPages ≤ LinearMemory.maxPages) :
    Agree (Store.Fits M.module count) (M.linkMemory imports) (M.linkMemory imports)
      (fun memory s => (memory.isSome = M.module.memory.isSome ∧ ∀ p ∈ memory, p < s.memories.size)
        ∧ s.Fits M.module count)
      (fun _ s => s.Fits M.module count) := by
  unfold linkMemory
  split
  · next hnone =>
    rw [hnone]
    refine Agree.pure fun s hs => ⟨⟨rfl, ?_⟩, hs⟩
    rintro p ⟨⟩
  · next limits source hlimits hsource =>
    rw [hlimits]
    refine Agree.map some ((agree_bindMemory _ _ _ _).post fun p s h => ⟨⟨rfl, ?_⟩, h.2⟩)
    rintro _ ⟨⟩
    exact h.1
  · next limits hlimits hsource =>
    rw [hlimits]
    -- A memory of its own is made as the limits say, with the option as its maximum if that is
    -- less.
    have hbounds := limits.most_bounds (hwell.memory limits hlimits) hpages
    refine Agree.map some fun s hs => ⟨rfl, ⟨rfl, ?_⟩, ?_⟩
    · rintro _ ⟨⟩
      rw [Array.size_push]
      exact Nat.lt_succ_self _
    · exact hs.addMemory (LinearMemory.fits_create hbounds.1 hbounds.2)

/-- Linking makes an instance that fits, or it fails and makes none. -/
theorem agree_link (hwell : M.module.WellFormed) (hpages : M.maxPages ≤ LinearMemory.maxPages) :
    Agree (Store.Fits M.module count) (M.link imports) (M.link imports)
      (fun place s => place = count ∧ s.Fits M.module (count + 1))
      (fun _ s => s.Fits M.module count) := by
  refine (agree_bindFunctions _).bind fun places => Agree.of_fact fun hplaces => ?_
  refine (agree_linkMemory hwell hpages).bind fun memory s hs => ?_
  obtain ⟨⟨hsome, hplace⟩, hs⟩ := hs
  have hsize : places.toArray.size = M.module.imports.size := hplaces
  exact ⟨rfl, hs.size, hs.addInstance ⟨hsize, hsome, hplace, Module.fitEach_init hwell⟩⟩

/-! ### Instantiating -/

theorem agree_writeData (hplace : place < count) (segments : List DataSegment)
    (hmemory : ∀ d ∈ segments, m.memory.isSome) :
    Agree (Store.Fits (σ := σ) m count) (writeData place segments) (writeData place segments)
      (fun _ s => s.Fits m count) (Traps m count) := by
  -- A segment is written to what the ones before it have left.
  induction segments with
  | nil => exact Agree.pure fun s hs => hs
  | cons d rest ih =>
    obtain ⟨hd, hrest⟩ := List.forall_mem_cons.mp hmemory
    have hwrite : Agree (Store.Fits (σ := σ) m count) _ _ _ (Traps m count) :=
      agree_onOwnMemory (Q := fun _ => True) hplace hd
          (.fits fun _ => LinearMemory.keeps_write d.offset ⟨d.bytes.toArray⟩)
        fun _ _ _ _ _ => trivial
    exact hwrite.bind fun _ => (ih hrest).pre fun s h => h.2

/-- What fails before there is an instance, or after that as a call does. -/
def InstantiateFails (M : Machine σ) (imports : HostValue) (count : Nat) (e : Failure)
    (s : Store σ) : Prop :=
  (∃ before, M.link imports before = .error e s ∧ s.Fits M.module count)
    ∨ CallFails M.host M.module (count + 1) e s

/-- Two machines whose bodies agree make the same instances. -/
theorem agree_instantiate
    {body : Nat → (Nat → List Cell → Action σ (List Cell)) → Nat → List Cell → Action σ (List Cell)}
      (h : M.BodiesAgree body) (depth : Nat) :
    Agree (Store.Fits M.module count) (M.instantiate depth imports)
      ({ M with body }.instantiate depth imports)
      (fun place s => place = count ∧ s.Fits M.module (count + 1))
      (InstantiateFails M imports count) := by
  have hlink : Agree (Store.Fits M.module count) (M.link imports) (M.link imports)
      (fun place s => place = count ∧ s.Fits M.module (count + 1))
        (InstantiateFails M imports count) := by
    intro s hs
    -- Linking does not run any body, so both machines link alike.
    obtain ⟨hsame, hmeets⟩ := agree_link h.wellFormed h.maxPages s hs
    refine ⟨hsame, ?_⟩
    cases hlinked : M.link imports s with
    | ok place s' =>
      rw [hlinked] at hmeets
      exact hmeets
    | error e s' =>
      rw [hlinked] at hmeets
      exact .inl ⟨s, hlinked, hmeets⟩
  refine Agree.bind hlink fun place => Agree.of_fact fun hplace => ?_
  subst hplace
  have hdata : ∀ d ∈ M.module.data, M.module.memory.isSome := fun d hd => (h.wellFormed.data d hd).1
  have hwrites := agree_writeData (σ := σ) (Nat.lt_succ_self place) M.module.data hdata
  refine Agree.bind (hwrites.mono (fun _ h => h) (fun _ _ h => h) ?_) fun _ => ?_
  -- From here on there is an instance, and what fails does so as in a call.
  · rintro e s ⟨⟨kind, rfl⟩, hs⟩
    exact .inr ⟨.trap kind, hs⟩
  cases hstart : M.module.start with
  | none => exact Agree.pure fun s hs => ⟨rfl, hs⟩
  | some function =>
    obtain ⟨-, htype⟩ := h.wellFormed.start function hstart
    have hinvoke := agree_invoke h depth place (Nat.lt_succ_self place) function _ [] htype .nil
    refine (hinvoke.mono (fun _ h => h) (fun _ _ h => h.2) fun _ _ => .inr).bind fun _ => ?_
    exact Agree.pure fun s hs => ⟨rfl, hs⟩

end Machine

end WasmScript
