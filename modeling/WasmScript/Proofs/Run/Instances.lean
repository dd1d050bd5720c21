/-
  WasmScript/Proofs/Run/Instances.lean
  ====================================
  **How an instance comes about** — phase by phase, each of which may be the last.

  First all imports are bound, and nothing changes if one of them cannot be.  `Linked` says
  which store there is after that: it has one more instance, whose globals are at their
  initial values, and one more memory if the module has one of its own.  Then the data
  segments are written in order, up to the first that does not fit, which traps.  In the end
  the start function is called.

  A memory of its own comes with zeros at a new place, so what an instance starts from does
  not depend on the instances before it.
-/
import WasmScript.Proofs.Memory.Contents
import WasmScript.Proofs.Number.Whole
import WasmScript.Proofs.Run.Safety

namespace WasmScript

variable {σ : Type} {s t : Store σ} {place : Nat}

/-! ### Data segments -/

/-- Whether a segment lies within a memory of some size. -/
def DataSegment.fits (size : Nat) (d : DataSegment) : Bool := d.offset + d.bytes.length ≤ size

/-- A memory with segments written over its bytes, one after another. -/
def LinearMemory.written (m : LinearMemory) (segments : List DataSegment) : LinearMemory :=
  { m with bytes :=
    ⟨(segments.foldl (fun bytes d => overwrite bytes d.offset d.bytes) m.contents).toArray⟩ }

namespace Store

def memoryAt? (s : Store σ) (place : Nat) : Option Nat := s.instances[place]?.bind Instance.memory

/-- The size of the memory of an instance in bytes, of which there are none without a memory. -/
def sizeAt (s : Store σ) (place : Nat) : Nat :=
  ((s.memoryAt? place).bind fun q => s.memories[q]?).elim 0 LinearMemory.size

/-- A store with segments written to the memory of an instance. -/
def written (s : Store σ) (place : Nat) (segments : List DataSegment) : Store σ :=
  match s.memoryAt? place with
  | none => s
  | some q => { s with memories := s.memories.modify q fun m => m.written segments }

theorem written_nil (s : Store σ) (place : Nat) : s.written place [] = s := by
  unfold written
  split
  · rfl
  · next q _ =>
    have hsame : s.memories.modify q (fun m => m.written []) = s.memories := by
      apply Array.ext_getElem?
      intro i
      rw [Array.getElem?_modify]
      split
      · exact Option.map_id'
      · rfl
    rw [hsame]

/-- The first segment is written before the others. -/
theorem written_cons {q : Nat} {m : LinearMemory} (hq : s.memoryAt? place = some q)
    (hm : s.memories[q]? = some m) (d : DataSegment) (rest : List DataSegment) :
    ({ s with memories := s.memories.setIfInBounds q (m.written [d]) } : Store σ).written place rest
      = s.written place (d :: rest) := by
  have hq' :
      ({ s with memories := s.memories.setIfInBounds q (m.written [d]) } : Store σ).memoryAt? place
      = some q := hq
  unfold written
  rw [hq, hq']
  dsimp only
  congr 1
  apply Array.ext_getElem?
  intro i
  rw [Array.getElem?_modify, Array.getElem?_modify, Array.getElem?_setIfInBounds]
  by_cases hqi : q = i
  · subst hqi
    rw [if_pos rfl, if_pos rfl, if_pos rfl, if_pos (Array.getElem?_eq_some_iff.mp hm).1, hm]
    rfl
  · rw [if_neg hqi, if_neg hqi, if_neg hqi]

end Store

namespace Machine

open WasmScript.Action

/-- Segments are written up to the first that does not fit, which traps. -/
theorem writeData_eq {i : Instance} {q : Nat} (hi : s.instances[place]? = some i)
    (hq : i.memory = some q) {m : LinearMemory} (hm : s.memories[q]? = some m)
    (segments : List DataSegment) :
    writeData place segments s =
      let next := s.written place (segments.takeWhile (DataSegment.fits m.size))
      if segments.all (DataSegment.fits m.size) then .ok () next else .error
        (.trap .outOfBounds) next := by
  induction segments generalizing s m with
  | nil =>
    change EStateM.Result.ok () s = .ok () (s.written place [])
    rw [Store.written_nil]
  | cons d rest ih =>
    have hmemory : s.memoryAt? place = some q := by rw [Store.memoryAt?, hi, Option.bind_some, hq]
    have hlt : q < s.memories.size := (Array.getElem?_eq_some_iff.mp hm).1
    have hsize : (ByteArray.mk d.bytes.toArray).size = d.bytes.length := rfl
    change EStateM.bind (onOwnMemory place _) _ s = _
    rw [EStateM.bind, onOwnMemory_of_instance hi hq hm, LinearMemory.write_eq, hsize]
    by_cases hfits : d.offset + d.bytes.length ≤ m.size
    · have hd : d.fits m.size = true := decide_eq_true hfits
      have hsplice :
          ({ m with bytes := LinearMemory.splice ⟨d.bytes.toArray⟩ d.offset m.bytes } :
            LinearMemory)
          = m.written [d] := by
        unfold LinearMemory.written
        congr 1
        apply ByteArray.ext
        exact Array.ext' LinearMemory.toList_splice
      -- Writing keeps the size, so later segments fit or not as before.
      have hkept : (m.written [d]).size = m.size := by
        rw [← hsplice]
        exact LinearMemory.size_splice hfits
      have hnext :
          ({ s with memories := s.memories.setIfInBounds q (m.written [d]) } : Store σ).memories[q]?
          = some (m.written [d]) := by simp [hlt]
      rw [if_pos hfits, hsplice]
      dsimp only
      rw [ih (s := { s with memories := s.memories.setIfInBounds q (m.written [d]) }) hi hnext,
        hkept, Store.written_cons hmemory hm, List.takeWhile_cons_of_pos hd, List.all_cons, hd,
          Bool.true_and]
    · have hd : d.fits m.size = false := decide_eq_false hfits
      rw [if_neg hfits, List.takeWhile_cons_of_neg (by simp [hd]), List.all_cons, hd,
        Bool.false_and, Store.written_nil]
      dsimp only
      rw [Store.setMemory_self hm]
      rfl

end Machine

/-! ### Imports -/

theorem HostValue.lt_number (x y : Number) :
    HostValue.lt (.number x) (.number y) = .ok (x.lt y) := rfl

theorem LinearMemory.represents_sizeNumber (negative : Bool) (pages : Nat) :
    (sizeNumber negative pages).Represents pages := by
  unfold sizeNumber
  split
  · next h => exact .inr ⟨h.1, rfl⟩
  · exact .inl rfl

namespace Machine

open WasmScript.Action

variable {imports : HostValue}

/-- The host supplies functions for imports, one from each of these places. -/
def Supplies (imports : HostValue) : List FunctionImport → List Nat → Prop :=
  List.Forall₂ fun entry place => ∃ reply, supplied imports entry.module entry.name =
    .function place reply

/-- The host lends the memory at a place, which has the pages that are asked for and cannot grow
past the maximum. -/
structure Lends (imports : HostValue) (source : MemoryImport) (limits : Limits) (s : Store σ)
    (q : Nat) : Prop where
  supplied : ∃ pages maximum, supplied imports source.module source.name = .memory q pages maximum
  usable : ∃ m, s.memories[q]? = some m ∧ limits.initial ≤ m.pages ∧ ∀ most ∈ limits.maximum,
    m.maximum ≤ most

/-- The memory of a new instance, in the store that has it: none, one that the host lends, or a new
one. -/
inductive Houses (m : Module) (maxPages : Nat) (imports : HostValue) (s : Store σ) :
    Option Nat → Store σ → Prop
  | none (memory : m.memory = none) : Houses m maxPages imports s none s
  | lent {limits : Limits} {source : MemoryImport} {q : Nat} (memory : m.memory = some limits)
      (imported : m.memoryImport = some source) (lends : Lends imports source limits s q) :
      Houses m maxPages imports s (some q) s
  | owned {limits : Limits} (memory : m.memory = some limits) (own : m.memoryImport = none) :
      Houses m maxPages imports s (some s.memories.size)
        { s with memories := s.memories.push (.create limits.initial (limits.most maxPages)) }

/-- The store in which a new instance has its imports and nothing is run yet. -/
def Linked (m : Module) (maxPages : Nat) (imports : HostValue) (s t : Store σ) : Prop :=
  ∃ places memory s', Supplies imports m.imports.toList places ∧
      Houses m maxPages imports s memory s' ∧
    t = { s' with
      instances :=
        s'.instances.push ⟨places.toArray, memory, m.globals.map fun g => .plain g.init⟩ }

/-- A memory that the host supplies for the import is one of the store. -/
def Known (imports : HostValue) (m : Module) (s : Store σ) : Prop :=
  ∀ source ∈ m.memoryImport, ∀ q pages maximum,
    supplied imports source.module source.name = .memory q pages maximum → q < s.memories.size

theorem bindFunction_of_supplied {module field : String} {reply : Reply HostValue}
    (h : supplied imports module field = .function place reply) :
    bindFunction imports module field s = .ok place s := by
  unfold bindFunction
  rw [h]
  rfl

theorem bindFunction_fails {module field : String}
    (h : ∀ place reply, supplied imports module field ≠ .function place reply) :
    bindFunction imports module field s
      = .error (.link (.notFunction module field (supplied imports module field).typeName)) s := by
  unfold bindFunction
  generalize supplied imports module field = v at h ⊢
  cases v with
  | function place reply => exact (h place reply rfl).elim
  | _ => rfl

theorem bindFunctions_of_supplies {entries : List FunctionImport} {places : List Nat}
    (h : Supplies imports entries places) : bindFunctions imports entries s = .ok places s := by
  induction h with
  | nil => rfl
  | @cons entry place entries places hfirst _ ih =>
    obtain ⟨reply, hfirst⟩ := hfirst
    change EStateM.bind (bindFunction imports entry.module entry.name) _ s = _
    rw [EStateM.bind, bindFunction_of_supplied hfirst]
    change EStateM.bind (bindFunctions imports entries) _ s = _
    rw [EStateM.bind, ih]
    rfl

theorem bindFunctions_fails {entries : List FunctionImport}
    (h : ∀ places, ¬ Supplies imports entries places) :
    ∃ cause, bindFunctions imports entries s = .error (.link cause) s := by
  induction entries with
  | nil => exact (h [] .nil).elim
  | cons entry entries ih =>
    change ∃ cause, EStateM.bind (bindFunction imports entry.module entry.name) _ s = _
    by_cases hfirst : ∃ place reply, supplied imports entry.module entry.name =
      .function place reply
    · obtain ⟨place, reply, hsupplied⟩ := hfirst
      obtain ⟨cause, hrest⟩ :=
        ih fun places hplaces => h (place :: places) (.cons ⟨reply, hsupplied⟩ hplaces)
      refine ⟨cause, ?_⟩
      rw [EStateM.bind, bindFunction_of_supplied hsupplied]
      change EStateM.bind (bindFunctions imports entries) _ s = _
      rw [EStateM.bind, hrest]
    · push Not at hfirst
      exact ⟨_, by rw [EStateM.bind, bindFunction_fails hfirst]⟩

/-- A memory that the host lends is looked at, and nothing is done to it. -/
theorem bindMemory_eq {module field : String} {q : Nat} {pages maximum : Number} {m : LinearMemory}
    (hsupplied : supplied imports module field = .memory q pages maximum)
    (hm : s.memories[q]? = some m) (limits : Limits) :
    bindMemory imports module field (pagesValue limits.initial) (pagesValue limits.maximum) s =
      if m.pages < limits.initial then
        .error (.link
          (.fewPages module field m.pagesNumber.text (Number.ofInt limits.initial).text)) s
      else match limits.maximum with
        | none => .ok q s
        | some most =>
          if most < m.maximum then
            .error (.link (.mayGrow module field m.maximumNumber.text (Number.ofInt most).text)) s
          else .ok q s := by
  -- Counts of pages are whole numbers, and compare as such.
  have hfew : m.pagesNumber.lt (.ofInt limits.initial) = decide (m.pages < limits.initial) := by
    rw [LinearMemory.pagesNumber, (LinearMemory.represents_sizeNumber _ _).lt (.ofInt _)]
    simp
  have hgrows (most : Nat) :
      (Number.ofInt most).lt m.maximumNumber = decide (most < m.maximum) := by
    rw [LinearMemory.maximumNumber,
      Number.Represents.lt (.ofInt _) (LinearMemory.represents_sizeNumber _ _)]
    simp
  have hget : (get : Action σ (Store σ)) s = .ok s s := rfl
  unfold bindMemory
  rw [hsupplied]
  dsimp only
  rw [bind_at_ok hget, hm]
  simp only [ofOption, pure, EStateM.pure, bind, EStateM.bind, pagesValue, Option.elim,
    HostValue.lt_number, Action.ofExcept, id, hfew, decide_eq_true_eq]
  by_cases hinitial : m.pages < limits.initial
  · rw [if_pos hinitial, if_pos hinitial]
    rfl
  · rw [if_neg hinitial, if_neg hinitial]
    cases limits.maximum with
    | none => rfl
    | some most =>
      simp only [HostValue.lt_number, hgrows]
      by_cases hmost : most < m.maximum
      · rw [if_pos hmost, decide_eq_true hmost]
        rfl
      · rw [if_neg hmost, decide_eq_false hmost]
        rfl

theorem bindMemory_of_lends {source : MemoryImport} {limits : Limits} {q : Nat}
    (h : Lends imports source limits s q) :
    bindMemory imports source.module source.name (pagesValue limits.initial)
      (pagesValue limits.maximum) s = .ok q s := by
  obtain ⟨⟨pages, maximum, hsupplied⟩, m, hm, hinitial, hmost⟩ := h
  rw [bindMemory_eq hsupplied hm, if_neg (Nat.not_lt_of_le hinitial)]
  split
  · rfl
  · next most hmaximum => exact if_neg (Nat.not_lt_of_le (hmost most hmaximum))

theorem bindMemory_fails {source : MemoryImport} {limits : Limits}
    (h : ∀ q, ¬ Lends imports source limits s q) :
    ∃ e, bindMemory imports source.module source.name (pagesValue limits.initial)
      (pagesValue limits.maximum) s
        = .error e s ∧
      ((∀ q pages maximum, supplied imports source.module source.name = .memory q pages maximum →
        q < s.memories.size) → ∃ cause, e = .link cause) := by
  -- What is supplied may be no memory at all, or one that is too small or may grow too far.
  by_cases hmemory : ∃ q pages maximum, supplied imports source.module source.name =
    .memory q pages maximum
  · obtain ⟨q, pages, maximum, hsupplied⟩ := hmemory
    cases hm : s.memories[q]? with
    | none =>
      refine ⟨.stuck, ?_, fun hlent => ?_⟩
      · have hget : (get : Action σ (Store σ)) s = .ok s s := rfl
        unfold bindMemory
        rw [hsupplied]
        dsimp only
        rw [bind_at_ok hget, hm]
        rfl
      · have hlt := hlent q pages maximum hsupplied
        rw [Array.getElem?_eq_getElem hlt] at hm
        cases hm
    | some m =>
      rw [bindMemory_eq hsupplied hm]
      by_cases hinitial : m.pages < limits.initial
      · exact ⟨_, if_pos hinitial, fun _ => ⟨_, rfl⟩⟩
      rw [if_neg hinitial]
      have husable : ¬ ∀ most ∈ limits.maximum, m.maximum ≤ most := fun hmost =>
        h q ⟨⟨pages, maximum, hsupplied⟩, m, hm, Nat.le_of_not_lt hinitial, hmost⟩
      split
      · next hnone =>
        rw [hnone] at husable
        exact (husable (by simp)).elim
      · next most hmaximum =>
        rw [hmaximum] at husable
        have hlt : most < m.maximum := by simpa using husable
        exact ⟨_, if_pos hlt, fun _ => ⟨_, rfl⟩⟩
  · push Not at hmemory
    refine ⟨.link
        (.notMemory source.module source.name
        (supplied imports source.module source.name).typeName), ?_,
      fun _ => ⟨_, rfl⟩⟩
    unfold bindMemory
    generalize supplied imports source.module source.name = v at hmemory ⊢
    cases v with
    | memory q pages maximum => exact (hmemory q pages maximum rfl).elim
    | _ => rfl

/-! ### Linking -/

variable {M : Machine σ}

theorem linkMemory_of_houses {q : Option Nat} (h : Houses M.module M.maxPages imports s q t) :
    M.linkMemory imports s = .ok q t := by
  unfold linkMemory
  cases h with
  | none memory =>
    rw [memory]
    rfl
  | lent memory imported lends =>
    rw [memory, imported]
    change EStateM.map some _ s = _
    rw [EStateM.map, bindMemory_of_lends lends]
  | owned memory own =>
    rw [memory, own]
    rfl

theorem linkMemory_fails (h : ∀ q t, ¬ Houses M.module M.maxPages imports s q t) :
    ∃ e, M.linkMemory imports s = .error e s ∧
      (Known imports M.module s → ∃ cause, e = .link cause) := by
  unfold linkMemory
  cases hmemory : M.module.memory with
  | none => exact (h none s (.none hmemory)).elim
  | some limits =>
    cases himport : M.module.memoryImport with
    | none => exact (h _ _ (.owned hmemory himport)).elim
    | some source =>
      obtain ⟨e, hfails, hcause⟩ := bindMemory_fails fun q hlends =>
        h (some q) s (.lent hmemory himport hlends)
      refine ⟨e, ?_, fun hknown => hcause (hknown source himport)⟩
      change EStateM.map some _ s = _
      rw [EStateM.map, hfails]

theorem instances_of_houses {m : Module} {maxPages : Nat} {q : Option Nat}
    (h : Houses m maxPages imports s q t) :
    t.instances = s.instances := by
  cases h <;> rfl

/-- What is linked has its instance at the next place. -/
theorem link_of_linked (h : Linked M.module M.maxPages imports s t) :
    M.link imports s = .ok s.instances.size t := by
  obtain ⟨places, memory, s', hplaces, hhouses, rfl⟩ := h
  change EStateM.bind (bindFunctions imports M.module.imports.toList) _ s = _
  rw [EStateM.bind, bindFunctions_of_supplies hplaces]
  change EStateM.bind (M.linkMemory imports) _ s = _
  rw [EStateM.bind, linkMemory_of_houses hhouses, ← instances_of_houses hhouses]
  rfl

/-- If something cannot be bound, linking fails and changes nothing. -/
theorem link_fails (h : ∀ t, ¬ Linked M.module M.maxPages imports s t) :
    ∃ e, M.link imports s = .error e s ∧ (Known imports M.module s → ∃ cause, e = .link cause) := by
  change ∃ e, EStateM.bind (bindFunctions imports M.module.imports.toList) _ s = _ ∧ _
  by_cases hplaces : ∃ places, Supplies imports M.module.imports.toList places
  · obtain ⟨places, hplaces⟩ := hplaces
    have hhouses : ∀ q t, ¬ Houses M.module M.maxPages imports s q t := fun q t hq =>
      h _ ⟨places, q, t, hplaces, hq, rfl⟩
    obtain ⟨e, hfails, hcause⟩ := linkMemory_fails hhouses
    refine ⟨e, ?_, hcause⟩
    rw [EStateM.bind, bindFunctions_of_supplies hplaces]
    change EStateM.bind (M.linkMemory imports) _ s = _
    rw [EStateM.bind, hfails]
  · push Not at hplaces
    obtain ⟨cause, hfails⟩ := bindFunctions_fails (s := s) hplaces
    exact ⟨.link cause, by rw [EStateM.bind, hfails], fun _ => ⟨cause, rfl⟩⟩

/-- The instance that was linked, and its memory. -/
theorem exists_instance_of_linked {m : Module} {maxPages : Nat}
    (h : Linked m maxPages imports s t) :
    ∃ i, t.instances[s.instances.size]? = some i ∧
      (i.globals = m.globals.map fun g => .plain g.init) ∧
      i.memory.isSome = m.memory.isSome ∧ ∀ q ∈ i.memory, ∃ memory, t.memories[q]? =
        some memory := by
  obtain ⟨places, memory, s', -, hhouses, rfl⟩ := h
  refine ⟨⟨places.toArray, memory, m.globals.map fun g => .plain g.init⟩, ?_, rfl, ?_, ?_⟩
  · rw [← instances_of_houses hhouses]
    exact Array.getElem?_push_size
  · cases hhouses with
    | none memory => simp [memory]
    | lent memory => simp [memory]
    | owned memory => simp [memory]
  · intro q hq
    cases hhouses with
    | none memory => cases hq
    | lent _ _ lends =>
      cases hq
      obtain ⟨m, hm, -⟩ := lends.usable
      exact ⟨m, hm⟩
    | owned =>
      cases hq
      exact ⟨_, Array.getElem?_push_size⟩

/-! ### Instantiating -/

/-- The data segments of a module are written to its memory, if it has any. -/
theorem writeData_of_linked (hwell : M.module.WellFormed)
    (h : Linked M.module M.maxPages imports s t) :
    let fits := DataSegment.fits (t.sizeAt s.instances.size)
    let next := t.written s.instances.size (M.module.data.takeWhile fits)
    writeData s.instances.size M.module.data t =
      if M.module.data.all fits then .ok () next else .error (.trap .outOfBounds) next := by
  obtain ⟨i, hi, -, hsome, hthere⟩ := exists_instance_of_linked h
  cases hq : i.memory with
  | some q =>
    obtain ⟨m, hm⟩ := hthere q hq
    have hsize : t.sizeAt s.instances.size = m.size := by
      rw [Store.sizeAt, Store.memoryAt?, hi, Option.bind_some, hq, Option.bind_some, hm]
      rfl
    rw [hsize]
    exact writeData_eq hi hq hm _
  | none =>
    -- Without a memory there is nothing to write, as a segment needs one.
    have hdata : M.module.data = [] := by
      rw [List.eq_nil_iff_forall_not_mem]
      intro d hd
      have hmemory := (hwell.data d hd).1
      rw [← hsome, hq] at hmemory
      cases hmemory
    rw [hdata]
    change EStateM.Result.ok () t = .ok () (t.written s.instances.size [])
    rw [Store.written_nil]

/-- What is linked is instantiated by writing the data segments that fit, and then by a call of the
start function unless one did not fit. -/
theorem instantiate_of_linked (hwell : M.module.WellFormed)
    (h : Linked M.module M.maxPages imports s t) (depth : Nat) :
    let place := s.instances.size
    let fits := DataSegment.fits (t.sizeAt place)
    let next := t.written place (M.module.data.takeWhile fits)
    M.instantiate depth imports s =
      if M.module.data.all fits then
        match M.module.start with
        | none => .ok place next
        | some function =>
          match M.invoke depth place function [] next with
          | .ok _ u => .ok place u
          | .error e u => .error e u
      else .error (.trap .outOfBounds) next := by
  intro place fits next
  change EStateM.bind (M.link imports) _ s = _
  rw [EStateM.bind, link_of_linked h]
  change EStateM.bind (writeData place M.module.data) _ t = _
  rw [EStateM.bind, writeData_of_linked hwell h]
  -- A segment that does not fit keeps the start function from being called.
  by_cases hall : M.module.data.all fits
  · rw [if_pos hall, if_pos hall]
    cases M.module.start with
    | none => rfl
    | some function =>
      change EStateM.bind (M.invoke depth place function []) _ next = _
      rw [EStateM.bind]
      dsimp only
      cases M.invoke depth place function [] next <;> rfl
  · rw [if_neg hall, if_neg hall]

end Machine

open Machine

end WasmScript
