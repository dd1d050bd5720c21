/-
  WasmScript/Proofs/Run/Sharing.lean
  ==================================
  **Memories that are shared** — the size of a memory, while instances of several modules and
  a host work with it in turn.

  A guard checks at each moment that the number of pages lies within bounds: wherever an
  expression gives a value, where it checks the sizes that instances are told too, and
  before each step of a host function.  It is never alarmed, since the network that it
  guards does the same from every store that has been reached; `Same` carries that through
  calls from one module to another.
-/
import WasmScript.Proofs.Run.Growth

namespace WasmScript

variable {σ : Type}

/-! ### Guards -/

/-- Whether the memory at a place has a number of pages within bounds. -/
def Store.pagesWithin (s : Store σ) (q low high : Nat) : Bool :=
  s.memories[q]?.any fun m => low ≤ m.pages ∧ m.pages ≤ high

/-- Whether a cell is the size of the memory of an instance. -/
def Store.isSize (s : Store σ) (place : Nat) (c : Cell) : Bool :=
  ((s.memoryAt? place).bind fun q => s.memories[q]?).any fun m => c.toValue = .i32 m.pages

/-- Objects to a memory out of its bounds, and to an instance that is told a wrong size. -/
def IR.guard (q low high : Nat) : IR.Watch σ := fun place _ e c v =>
  v.store.pagesWithin q low high && match e with
    | .memorySize => v.store.isSize place c
    | _ => true

namespace HostProgram

/-- First looks at a memory, and stops if its pages are not within bounds. -/
def lookFirst (q low high : Nat) (p : HostProgram σ) : HostProgram σ :=
  .memory q .pages fun
    | .ok (.number n) =>
      if n.toInteger?.any fun k => (low : Int) ≤ k ∧ k ≤ high then p else .finish (.error .stuck)
    | _ => .finish (.error .stuck)

/-- Looks at a memory before each step. -/
def guarded (q low high : Nat) : HostProgram σ → HostProgram σ
  | .finish outcome => lookFirst q low high (.finish outcome)
  | .world change next => lookFirst q low high (.world change fun w => (next w).guarded q low high)
  | .memory place operation next =>
    lookFirst q low high (.memory place operation fun r => (next r).guarded q low high)
  | .call place name args next =>
    lookFirst q low high (.call place name args fun r => (next r).guarded q low high)

end HostProgram

/-- The machine that runs the script of a module for a host, both of them under a guard. -/
def Checked.guardedMachine (c : Checked) (host : Host σ) (turns q low high : Nat) : Machine σ :=
  IR.watchedMachine (IR.guard q low high) c.module c.functions.toArray
    (fun target args => (host target args).guarded q low high) c.options.maxPages turns

/-! ### Host functions -/

namespace Action

variable {s₀ : Store σ} {α : Type}

theorem same_attempt {a a' : Action σ α} (h : Same s₀ a a') : Same s₀ (attempt a) (attempt a') := by
  refine (agree_attempt h).mono (fun _ hs => hs) (fun r s hr => ?_) fun _ _ hs => hs.2
  cases r with
  | ok x => exact hr
  | error e => exact hr.2

theorem same_memoryCall (place : Nat) (call : MemoryCall) :
    Same s₀ (do requireMemory place; onMemory place call.perform)
      (do requireMemory place; onMemory place call.perform) := by
  have hthere : Same s₀ (requireMemory place) (requireMemory place) := by
    apply same_of_still
    intro s
    change after
      ((if s.memories.size ≤ place then throw .noMemory else pure () : Action σ Unit) s) = s
    split <;> rfl
  exact hthere.bind fun _ => same_onMemory fun _ => MemoryCall.keeps_perform call

theorem same_changeWorld (change : σ → σ) : Same s₀ (changeWorld change) (changeWorld change) :=
  same_of_growsTo fun s => .world s (change s.world)

/-- A host function does the same with two ways of calling exports that do. -/
theorem same_runHost {exports exports' : Exports σ}
    (h : ∀ place name args, Same s₀ (exports place name args) (exports' place name args))
    (p : HostProgram σ) :
    Same s₀ (runHost exports p) (runHost exports' p) := by
  induction p with
  | finish outcome =>
    cases outcome with
    | ok v => exact Agree.pure fun _ hs => hs
    | error e => exact Agree.throw fun _ hs => hs
  | world change next ih => exact (same_changeWorld change).bind ih
  | memory place call next ih => exact (same_attempt (same_memoryCall place call)).bind ih
  | call place name args next ih => exact (same_attempt (h place name args)).bind ih

/-- The guard of a host function passes it on. -/
theorem runHost_lookFirst {s : Store σ} {q low high : Nat} {m : LinearMemory}
    (hm : s.memories[q]? = some m) (hlow : low ≤ m.pages) (hhigh : m.pages ≤ high)
    (exports : Exports σ) (p : HostProgram σ) :
    runHost exports (p.lookFirst q low high) s = runHost exports p s := by
  have hlook : attempt (do requireMemory q; onMemory q MemoryCall.pages.perform) s
      = .ok (.ok (.number m.pagesNumber)) s := by
    have hcall := memoryCall_eq hm .pages
    change _ = EStateM.Result.ok _ { s with memories := s.memories.setIfInBounds q m } at hcall
    rw [Store.setMemory_self hm] at hcall
    change EStateM.bind (outcome _) _ s = _
    unfold EStateM.bind outcome
    rw [hcall]
    rfl
  have hpages : m.pagesNumber.toInteger? = some (m.pages : Int) :=
    (LinearMemory.represents_sizeNumber _ _).toInteger?
  unfold HostProgram.lookFirst
  rw [runHost]
  change EStateM.bind (attempt _) _ s = _
  rw [EStateM.bind, hlook]
  dsimp only
  rw [hpages, Option.any_some, if_pos (by simp [hlow, hhigh])]

/-- A host function does the same under a guard of a memory that is within its bounds. -/
theorem same_guarded {q low high : Nat}
    (hwithin : ∀ s, s₀.GrowsTo s → ∃ m, s.memories[q]? = some m ∧ low ≤ m.pages ∧ m.pages ≤ high)
    {exports : Exports σ}
    (h : ∀ place name args, Same s₀ (exports place name args) (exports place name args))
    (p : HostProgram σ) : Same s₀ (runHost exports p) (runHost exports (p.guarded q low high)) := by
  have hlook {x : Action σ HostValue} {p : HostProgram σ} (hp : Same s₀ x (runHost exports p)) :
      Same s₀ x (runHost exports (p.lookFirst q low high)) := by
    intro s hs
    obtain ⟨m, hm, hlow, hhigh⟩ := hwithin s hs
    rw [runHost_lookFirst hm hlow hhigh]
    exact hp s hs
  induction p with
  | finish outcome => exact hlook (same_runHost h _)
  | world change next ih => exact hlook ((same_changeWorld change).bind ih)
  | memory place call next ih => exact hlook ((same_attempt (same_memoryCall place call)).bind ih)
  | call place name args next ih => exact hlook ((same_attempt (h place name args)).bind ih)

end Action

/-! ### Machines that do the same -/

/-- Machines of one module that do the same, as long as those do that they call. -/
structure Machine.Equivalent (s₀ : Store σ) (M M' : Machine σ) : Prop where
  module : M'.module = M.module
  boundary : M'.boundary = M.boundary
  maxPages : M'.maxPages = M.maxPages
  wellFormed : M.module.WellFormed
  pages : M.maxPages ≤ LinearMemory.maxPages
  host : ∀ {exports exports' : Action.Exports σ},
    (∀ place name args, Same s₀ (exports place name args) (exports' place name args)) →
    ∀ target args,
      Same s₀ (Action.runHost exports (M.host target args))
        (Action.runHost exports' (M'.host target args))
  body : ∀ {call call' : Nat → List Cell → Action σ (List Cell)},
    (∀ function args, Same s₀ (call function args) (call' function args)) →
    ∀ place function args,
      Same s₀ (M.body place call function args) (M'.body place call' function args)

namespace Machine

open WasmScript.Action

variable {s₀ : Store σ} {M M' : Machine σ} {place : Nat}

/-- A script under a watch that never objects does what it does without. -/
theorem equivalent_of_watch {c : Checked} (hc : c.Accepted) {host host' : Host σ} {turns : Nat}
    {watch : IR.Watch σ}
    (hwatch : ∀ place f e c v, s₀.GrowsTo v.store → (e = .memorySize → v.store.ShowsSize place c) →
      watch place f e c v)
    (hhost : ∀ {exports exports' : Exports σ},
      (∀ place name args, Same s₀ (exports place name args) (exports' place name args)) →
      ∀ target args,
        Same s₀ (runHost exports (host target args)) (runHost exports' (host' target args))) :
    Equivalent s₀ (c.machine host turns)
      (IR.watchedMachine watch c.module c.functions.toArray host' c.options.maxPages turns) where
  module := rfl
  boundary := rfl
  maxPages := rfl
  wellFormed := hc.wellFormed
  pages := hc.pages
  host := hhost
  body := by
    intro call call' hcall place function args
    refine (same_ofOption c.functions.toArray[function - c.module.imports.size]?).bind fun f => ?_
    have hequivalent :
        IR.SameSurroundings s₀ ⟨place, call, turns, fun _ _ _ => true⟩
          ⟨place, call', turns, watch place f⟩ :=
      ⟨rfl, rfl, hcall, fun e c v hv hsize => ⟨rfl, hwatch place f e c v hv hsize⟩⟩
    exact f.same_run hequivalent args

theorem equivalent_self {c : Checked} (hc : c.Accepted) (host : Host σ) (turns : Nat) :
    Equivalent s₀ (c.machine host turns) (c.machine host turns) :=
  equivalent_of_watch hc (fun _ _ _ _ _ _ _ => rfl) fun h target args =>
    same_runHost h (host target args)

theorem Equivalent.callBound (h : Equivalent s₀ M M') {exports exports' : Exports σ}
    (hexports : ∀ place name args, Same s₀ (exports place name args) (exports' place name args))
    (target : Nat) (module field : String) (type : FunctionType) (args : List HostValue) :
    Same s₀ (Machine.callBound M.host M.boundary exports target module field type args)
      (Machine.callBound M'.host M'.boundary exports' target module field type args) := by
  rw [h.boundary]
  refine (same_ofExcept _).bind fun args => ?_
  exact (h.host hexports target args).bind fun _ => same_ofExcept _

theorem Equivalent.callImport (h : Equivalent s₀ M M') {exports exports' : Exports σ}
    (hexports : ∀ place name args, Same s₀ (exports place name args) (exports' place name args))
    (function : Nat) (entry : FunctionImport) (args : List HostValue) :
    Same s₀ (M.callImport exports place function entry args)
      (M'.callImport exports' place function entry args) := by
  unfold Machine.callImport
  rw [h.module]
  refine same_instanceAt.bind fun i => (same_ofOption _).bind fun target =>
    (same_ofOption _).bind fun type => ?_
  exact h.callBound hexports target entry.module entry.name type args

theorem Equivalent.callExported (h : Equivalent s₀ M M')
    {invoke invoke' : Nat → Nat → List Cell → Action σ (List Cell)}
    (hinvoke : ∀ place function args,
      Same s₀ (invoke place function args) (invoke' place function args))
    (place : Nat) (name : String) (args : List HostValue) :
    Same s₀ (M.callExported invoke place name args) (M'.callExported invoke' place name args) := by
  unfold Machine.callExported
  rw [h.module, h.boundary]
  refine same_requireInstance.bind fun _ => ?_
  split
  · refine (same_ofOption _).bind fun type => (same_ofExcept _).bind fun args => ?_
    exact (hinvoke place _ _).bind fun results => Agree.pure fun _ hs => hs
  · exact Agree.throw fun _ hs => hs

/-- Through linking memories only grow. -/
theorem Equivalent.link (h : Equivalent s₀ M M') (imports : HostValue) :
    Same s₀ (M.link imports) (M'.link imports) := by
  have hlink : M'.link imports = M.link imports := by
    unfold Machine.link Machine.linkMemory
    rw [h.module, h.maxPages]
  rw [hlink]
  apply same_of_growsTo
  intro s
  by_cases ht : ∃ t, Linked M.module M.maxPages imports s t
  · obtain ⟨t, ht⟩ := ht
    rw [link_of_linked ht]
    obtain ⟨places, memory, s', -, hhouses, rfl⟩ := ht
    refine Store.GrowsTo.trans ?_ (.addInstance s' _)
    cases hhouses with
    | none => exact .refl s
    | lent => exact .refl s
    | owned hmemory =>
      obtain ⟨hinitial, hmost⟩ := Limits.most_bounds (h.wellFormed.memory _ hmemory) h.pages
      exact .addMemory (LinearMemory.fits_create hinitial hmost)
  · push Not at ht
    obtain ⟨e, hfails, -⟩ := link_fails ht
    rw [hfails]
    exact .refl s

theorem same_writeData (place : Nat) (segments : List DataSegment) :
    Same s₀ (writeData place segments) (writeData place segments) := by
  induction segments with
  | nil => exact Agree.pure fun _ hs => hs
  | cons d rest ih =>
    exact (same_onOwnMemory fun _ => LinearMemory.keeps_write _ _).bind fun _ => ih

end Machine

/-! ### Networks -/

namespace Network

open WasmScript.Action

/-- Machines that do the same, place by place. -/
def Equivalent (s₀ : Store σ) (n n' : Network σ) :
    Prop := ∀ place, Machine.Equivalent s₀ (n place) (n' place)

variable {s₀ : Store σ} {n n' : Network σ}

theorem Equivalent.invoke (h : Equivalent s₀ n n') (depth : Nat) :
    ∀ place function args,
      Same s₀ (n.invoke depth place function args) (n'.invoke depth place function args) := by
  induction depth with
  | zero => exact fun _ _ _ => Agree.throw fun _ hs => hs
  | succ depth ih =>
    intro place function args
    rw [Network.invoke, Network.invoke, (h place).module]
    split
    · next entry _ =>
      refine Agree.bind ((h place).callImport (fun p name args => ?_) function entry _) fun vs => ?_
      · exact (h p).callExported ih p name args
      · exact Agree.pure fun _ hs => hs
    · exact (h place).body (ih place) place function args

theorem Equivalent.callExport (h : Equivalent s₀ n n') (depth place : Nat) (name : String)
    (args : List HostValue) :
    Same s₀ (n.callExport depth place name args) (n'.callExport depth place name args) :=
  (h place).callExported (h.invoke depth) place name args

theorem Equivalent.start (h : Equivalent s₀ n n') (depth place : Nat) :
    Same s₀ (n.start depth place) (n'.start depth place) := by
  unfold Network.start
  rw [(h place).module]
  refine (Machine.same_writeData place _).bind fun _ => ?_
  split
  · next function _ =>
      exact (h.invoke depth place function []).bind fun _ => Agree.pure fun _ hs => hs
  · exact Agree.pure fun _ hs => hs

theorem Equivalent.instantiate (h : Equivalent s₀ n n') (depth : Nat) (imports : HostValue) :
    Same s₀ (n.instantiate depth imports) (n'.instantiate depth imports) := by
  refine Agree.bind (Agree.get fun _ hs => hs) fun s => Agree.pre ?_ (P := s₀.GrowsTo) ?_
  · exact ((h s.instances.size).link imports).bind fun place => h.start depth place
  · rintro _ ⟨rfl, hs⟩
    exact hs

end Network

/-! ### What hosts do -/

namespace HostAction

open WasmScript.Action

variable {s₀ : Store σ} {n n' : Network σ}

def performIn (n : Network σ) (depth : Nat) : HostAction σ → Action σ Unit
  | .instantiate imports => (fun _ => ()) <$> n.instantiate depth imports
  | .call place name args => (fun _ => ()) <$> n.callExport depth place name args
  | other => other.perform (n 0) depth

/-- What is left after some actions, of which each may fail. -/
def performAllIn (n : Network σ) (depth : Nat) : List (HostAction σ) → Store σ → Store σ
  | [], s => s
  | action :: rest, s => performAllIn n depth rest (after (action.performIn n depth s))

/-- A network of one module is a machine. -/
theorem performIn_single (M : Machine σ) (depth : Nat) (action : HostAction σ) :
    action.performIn (fun _ => M) depth = action.perform M depth := by
  cases action with
  | instantiate imports =>
    rw [performIn, Network.instantiate_single]
    rfl
  | call place name args =>
    rw [performIn, Network.callExport, Network.invoke_single]
    rfl
  | _ => rfl

theorem same_performIn (h : Network.Equivalent s₀ n n') (depth : Nat) (action : HostAction σ) :
    Same s₀ (action.performIn n depth) (action.performIn n' depth) := by
  have forget {α : Type} {x y : Action σ α} (hxy : Same s₀ x y) :
      Same s₀ ((fun _ => ()) <$> x) ((fun _ => ()) <$> y) :=
    Agree.map (R := fun _ => s₀.GrowsTo) (fun _ => ()) hxy
  cases action with
  | world change => exact forget (same_changeWorld change)
  | newMemory initial maximum =>
    refine Agree.bind ((agree_ofExcept (LinearMemory.make initial maximum)).mono (fun _ hs => hs)
      (fun _ _ hs => hs) fun _ _ hs => hs.2) fun memory => Agree.of_fact fun hmake => ?_
    exact forget (same_of_growsTo fun s => .addMemory (LinearMemory.fits_make hmake))
  | onMemory place operation => exact forget (same_memoryCall place operation)
  | instantiate imports => exact forget (h.instantiate depth imports)
  | call place name args => exact forget (h.callExport depth place name args)

theorem performAllIn_append (n : Network σ) (depth : Nat) (actions later : List (HostAction σ)) :
    ∀ s, performAllIn n depth (actions ++ later) s =
      performAllIn n depth later (performAllIn n depth actions s) := by
  induction actions with
  | nil => exact fun _ => rfl
  | cons action rest ih => exact fun s => ih _

/-- Through actions of a host, one after another, memories only grow. -/
theorem growsTo_performAllIn (h : ∀ s₀ : Store σ, Network.Equivalent s₀ n n) (depth : Nat)
    (actions : List (HostAction σ)) :
    ∀ s : Store σ, s.GrowsTo (performAllIn n depth actions s) := by
  induction actions with
  | nil => exact Store.GrowsTo.refl
  | cons action rest ih => exact fun s => (same_performIn (h s) depth action).growsTo.trans (ih _)

end HostAction

/-! ### A memory and its guard -/

/-- A memory that is there and within its bounds stays within them. -/
theorem Store.GrowsTo.within {s t : Store σ} (h : s.GrowsTo t) {q : Nat} {m : LinearMemory}
    (hm : s.memories[q]? = some m) (hfits : m.Fits) :
    ∃ m', t.memories[q]? = some m' ∧ m.pages ≤ m'.pages ∧ m'.pages ≤ m.maximum := by
  obtain ⟨m', hm', hgrows⟩ := h.memories hm
  exact ⟨m', hm', hgrows.pages, hgrows.maximum ▸ (hgrows.fits hfits).pages⟩

/-- The guard of a memory is not alarmed. -/
theorem Machine.equivalent_guarded {s₀ : Store σ} {c : Checked} (hc : c.Accepted) (host : Host σ)
    (turns : Nat) {q low high : Nat}
    (hwithin : ∀ s, s₀.GrowsTo s → ∃ m, s.memories[q]? = some m ∧ low ≤ m.pages ∧ m.pages ≤ high) :
    Equivalent s₀ (c.machine host turns) (c.guardedMachine host turns q low high) := by
  refine equivalent_of_watch hc (fun place f e c v hv hsize => ?_)
    fun {exports exports'} h target args => ?_
  · obtain ⟨m, hm, hlow, hhigh⟩ := hwithin v.store hv
    have hpages : v.store.pagesWithin q low high = true := by
      rw [Store.pagesWithin, hm, Option.any_some]
      simp [hlow, hhigh]
    unfold IR.guard
    rw [hpages, Bool.true_and]
    split
    · obtain ⟨r, l, hr, hl, hc⟩ := hsize rfl
      rw [Store.isSize, hr, Option.bind_some, hl, Option.any_some, hc]
      simp
    · rfl
  · have hself (place : Nat) (name : String) (args : List HostValue) :
        Same s₀ (exports' place name args) (exports' place name args) :=
      (h place name args).symm.trans (h place name args)
    exact (Action.same_runHost h _).trans (Action.same_guarded hwithin hself _)

namespace Machine

/-- The memory of an instance that was just linked has its declared bounds. -/
theorem exists_memory_of_linked {m : Module} {maxPages : Nat} {imports : HostValue} {s t : Store σ}
    (h : Linked m maxPages imports s t) {limits : Limits} (hmemory : m.memory = some limits) :
    ∃ q memory, t.memoryAt? s.instances.size = some q ∧ t.memories[q]? = some memory ∧
      limits.initial ≤ memory.pages ∧ (∀ most ∈ limits.maximum, memory.maximum ≤ most) ∧
      (m.memoryImport = none → memory.maximum = limits.most maxPages) := by
  obtain ⟨places, q, s', -, hhouses, rfl⟩ := h
  have hat : Store.memoryAt? ({ s' with
      instances := s'.instances.push ⟨places.toArray, q, m.globals.map fun g => .plain g.init⟩ } :
        Store σ)
      s.instances.size = q := by
    rw [← instances_of_houses hhouses, Store.memoryAt?, Array.getElem?_push_size, Option.bind_some]
  cases hhouses with
  | none hnone => cases hmemory.symm.trans hnone
  | @lent limits' source q hlimits himport lends =>
    cases hmemory.symm.trans hlimits
    obtain ⟨memory, hm, hinitial, hmost⟩ := lends.usable
    refine ⟨q, memory, hat, hm, hinitial, hmost, fun hown => ?_⟩
    cases hown.symm.trans himport
  | owned hlimits hown =>
    cases hmemory.symm.trans hlimits
    refine ⟨_, _, hat, Array.getElem?_push_size, Nat.le_refl _, fun most hmost => ?_, fun _ => rfl⟩
    change limits.most maxPages ≤ most
    rw [Limits.most, hmost]
    exact Nat.le_refl _

end Machine

/-! ### Growing -/

/-- A memory with more pages of zeros. -/
def LinearMemory.grown (m : LinearMemory) (delta : Nat) : LinearMemory :=
  { m with bytes := addPages delta m.bytes, pages := m.pages + delta }

/-- An instance grows its memory as far as its maximum, or leaves everything as it was. -/
theorem Action.memoryGrow_eq {s : Store σ} {place q : Nat} {m : LinearMemory}
    (hq : s.memoryAt? place = some q) (hm : s.memories[q]? = some m) (hfits : m.Fits)
    (delta : Nat) :
    memoryGrow place delta s =
      if m.pages + delta ≤ m.maximum then
        .ok (.ofPages m m.pages) { s with memories := s.memories.setIfInBounds q (m.grown delta) }
      else .ok (.plain (.i32 (-1))) s := by
  obtain ⟨i, hi, hmemory⟩ := Option.bind_eq_some_iff.mp hq
  -- The memory itself either grows or tells that it does not.
  have hgrow :
      (do let before ← LinearMemory.grow delta; pure (Cell.ofPages (← get) before) :
        LinearMemory.Op Cell) m =
      if m.pages + delta ≤ m.maximum then .ok (.ofPages m m.pages) (m.grown delta)
      else .ok (.plain (.i32 (-1))) m := by
    change EStateM.bind (LinearMemory.grow delta) _ m = _
    rw [EStateM.bind, LinearMemory.grow_eq hfits]
    by_cases hle : m.pages + delta ≤ m.maximum
    · rw [if_pos hle, if_pos hle]
      rfl
    · rw [if_neg hle, if_neg hle]
      rfl
  rw [memoryGrow, onOwnMemory_of_instance hi hmemory hm, hgrow]
  by_cases hle : m.pages + delta ≤ m.maximum
  · rw [if_pos hle, if_pos hle]
  · rw [if_neg hle, if_neg hle]
    dsimp only
    rw [Store.setMemory_self hm]

/-- A host cannot grow a memory: it is told so, or what it passed is no number. -/
def LinearMemory.Refuses : EStateM.Result Failure LinearMemory HostValue → Prop
  | .ok v _ => v = .number (.ofInt (-1))
  | .error _ _ => True

/-- A memory that refuses to grow stays as it was. -/
theorem MemoryCall.after_grow_of_refuses {m : LinearMemory} (hfits : m.Fits) (delta : HostValue)
    (h : LinearMemory.Refuses ((MemoryCall.grow delta).perform m)) :
    after ((MemoryCall.grow delta).perform m) = m := by
  cases hdelta : delta.toOperand with
  | error e =>
    change after (EStateM.bind (accept delta.toOperand) _ m) = m
    rw [hdelta]
    rfl
  | ok pages =>
    have hgrow :
        (MemoryCall.grow delta).perform m = EStateM.bind (lift (LinearMemory.grow pages.toUInt32))
        (fun before m' => .ok (.number (LinearMemory.sizeNumber m'.negativePages before)) m')
          m := by
      change EStateM.bind (accept delta.toOperand) _ m = _
      rw [hdelta]
      rfl
    have hlift := LinearMemory.grow_eq hfits pages.toUInt32
    -- A memory that grew would have answered its old size, which is never -1.
    by_cases hle : m.pages + pages.toUInt32 ≤ m.maximum
    · rw [if_pos hle] at hlift
      rw [hgrow] at h
      simp only [EStateM.bind, lift, hlift] at h
      have hnumber : LinearMemory.sizeNumber m.negativePages m.pages = .ofInt (-1) :=
        HostValue.number.inj h
      have hinteger := (LinearMemory.represents_sizeNumber m.negativePages m.pages).toInteger?
      rw [hnumber, (Number.Represents.ofInt (-1)).toInteger?] at hinteger
      cases hinteger
    · rw [if_neg hle] at hlift
      rw [hgrow]
      simp only [EStateM.bind, lift, hlift, after]

/-- A memory with sizes in order is made. -/
theorem LinearMemory.make_of_le {initial most : Nat} (hinitial : initial ≤ most)
    (hmost : most ≤ maxPages) :
    make (.number (.ofInt initial)) (.number (.ofInt most)) = .ok (.create initial most) := by
  have hinteger (n : Nat) : (HostValue.number (.ofInt n)).integer? = some (n : Int) :=
    (Number.Represents.ofInt n).toInteger?
  unfold make
  simp only [hinteger]
  rw [if_neg (by exact_mod_cast Nat.not_lt_of_le hmost), if_pos (by omega)]
  rfl

/-! ### Bounds -/

def Network.ofOutputs (modules : Nat → Output) (host : Host σ) (turns : Nat) : Network σ :=
  fun place => (modules place).machine host turns

/-- The same, under a guard of the memory at a place. -/
def Network.guarded (modules : Nat → Output) (host : Host σ) (turns q low high : Nat) : Network σ :=
  fun place => (modules place).guardedMachine host turns q low high

/-- What is true of the memory of an instance in a network, between two actions of a host. -/
structure Network.Bounds (modules : Nat → Output) (host : Host σ)
    (turns depth place q low high : Nat) (s : Store σ) (m : LinearMemory) : Prop where
  shares : s.memoryAt? place = some q
  memory : s.memories[q]? = some m
  atLeast : low ≤ m.pages
  atMost : m.pages ≤ high
  /-- In whatever is done next there are at least as many pages as now. -/
  guarded : ∀ action : HostAction σ,
    action.performIn (guarded modules host turns q m.pages high) depth s =
      action.performIn (ofOutputs modules host turns) depth s
  /-- Each instance that shares the memory grows it within its maximum, or else leaves it as it
  is. -/
  grows : ∀ other delta, s.memoryAt? other = some q → Action.memoryGrow other delta s =
    if m.pages + delta ≤ m.maximum then
      .ok (.ofPages m m.pages) { s with memories := s.memories.setIfInBounds q (m.grown delta) }
    else .ok (.plain (.i32 (-1))) s
  /-- So does a host. -/
  refuses : ∀ delta, LinearMemory.Refuses ((MemoryCall.grow delta).perform m) →
    after ((MemoryCall.grow delta).perform m) = m

namespace Network

variable {modules : Nat → Output} {host : Host σ} {turns depth : Nat}

theorem equivalent_ofOutputs
    (hmodules : ∀ p, ∃ bytes options, transpile bytes options = .ok (modules p)) (s₀ : Store σ) :
    Equivalent s₀ (ofOutputs modules host turns) (ofOutputs modules host turns) := by
  intro place
  obtain ⟨bytes, options, h⟩ := hmodules place
  exact Machine.equivalent_self (accepted_of_transpile h) host turns

theorem equivalent_guarded
    (hmodules : ∀ p, ∃ bytes options, transpile bytes options = .ok (modules p)) {s₀ : Store σ}
    {q low : Nat} {m : LinearMemory} (hm : s₀.memories[q]? = some m) (hfits : m.Fits)
    (hlow : low ≤ m.pages) :
    Equivalent s₀ (ofOutputs modules host turns) (guarded modules host turns q low m.maximum) := by
  intro place
  obtain ⟨bytes, options, h⟩ := hmodules place
  refine Machine.equivalent_guarded (accepted_of_transpile h) host turns fun s hs => ?_
  obtain ⟨m', hm', hpages, hhigh⟩ := hs.within hm hfits
  exact ⟨m', hm', Nat.le_trans hlow hpages, hhigh⟩

/-- A memory that fits is within bounds from its declared size to its maximum. -/
theorem bounds_of_fits (hmodules : ∀ p, ∃ bytes options, transpile bytes options = .ok (modules p))
    {s : Store σ} {place q low : Nat} {m : LinearMemory} (hplace : s.memoryAt? place = some q)
    (hm : s.memories[q]? = some m) (hfits : m.Fits) (hlow : low ≤ m.pages) :
    Bounds modules host turns depth place q low m.maximum s m where
  shares := hplace
  memory := hm
  atLeast := hlow
  atMost := hfits.pages
  guarded action := by
    have hequivalent :
        Equivalent s (ofOutputs modules host turns)
          (guarded modules host turns q m.pages m.maximum) :=
      equivalent_guarded hmodules hm hfits (Nat.le_refl _)
    exact (HostAction.same_performIn hequivalent depth action s (.refl s)).1.symm
  grows other delta hother := Action.memoryGrow_eq hother hm hfits delta
  refuses delta h := MemoryCall.after_grow_of_refuses hfits delta h

/-- An instance starts at its own place. -/
theorem place_of_start {n : Network σ} {place p : Nat} {s t : Store σ}
    (h : n.start depth place s = .ok p t) :
    p = place := by
  change EStateM.bind (Machine.writeData place (n place).module.data) _ s = _ at h
  unfold EStateM.bind at h
  split at h
  · split at h
    · next function _ =>
      change EStateM.bind (n.invoke depth place function []) _ _ = _ at h
      unfold EStateM.bind at h
      split at h
      · cases h
        rfl
      · cases h
    · cases h
      rfl
  · cases h

/-- What is instantiated was linked, and then started. -/
theorem linked_of_instantiate {n : Network σ} {imports : HostValue} {place : Nat} {s t : Store σ}
    (h : n.instantiate depth imports s = .ok place t) :
    place = s.instances.size ∧ ∃ t₁, n.start depth place t₁ = .ok place t ∧
      Machine.Linked (n place).module (n place).maxPages imports s t₁ := by
  change EStateM.bind ((n s.instances.size).link imports) (n.start depth) s = _ at h
  by_cases hlinked :
    ∃ t₁, Machine.Linked (n s.instances.size).module (n s.instances.size).maxPages imports s t₁
  · obtain ⟨t₁, hlinked⟩ := hlinked
    rw [EStateM.bind, Machine.link_of_linked hlinked] at h
    obtain rfl := place_of_start h
    exact ⟨rfl, t₁, h, hlinked⟩
  · push Not at hlinked
    obtain ⟨e, hfails, -⟩ := Machine.link_fails hlinked
    rw [EStateM.bind, hfails] at h
    cases h

end Network

/-- The memory of an instance grows and never shrinks, from its declared size to at most its
declared maximum, or to what the options allow if it is a new one without a maximum; instances are
told its size as it is, and what cannot grow stays as it is.  That holds through whatever a host
does to instances of any modules, before, during and after its own instantiation.  A new memory can
always be made. -/
theorem memory_grows_within_bounds {bytes : ByteArray} {options : TranspileOptions} {out : Output}
    (h : transpile bytes options = .ok out) {limits : Limits}
    (hmemory : out.module.memory = some limits) :
    (out.module.memoryImport = none →
      let most := limits.most out.options.maxPages
      LinearMemory.make (.number (.ofInt limits.initial)) (.number (.ofInt most)) =
        .ok (.create limits.initial most)) ∧
    ∀ (modules : Nat → Output), (∀ p, ∃ bytes options, transpile bytes options = .ok (modules p)) →
      ∀ (host : Host σ) (turns depth : Nat) (world : σ) (before : List (HostAction σ))
          (imports : HostValue) (place : Nat)
        (t : Store σ),
        let n := Network.ofOutputs modules host turns
        let s := HostAction.performAllIn n depth before { world }
        modules s.instances.size = out → n.instantiate depth imports s = .ok place t →
        ∃ q high, (∀ most ∈ limits.maximum, high ≤ most) ∧
          (out.module.memoryImport = none → high = limits.most out.options.maxPages) ∧
          (Network.guarded modules host turns q limits.initial high).instantiate depth imports s =
            .ok place t ∧
          ∀ actions, ∃ m, Network.Bounds modules host turns depth place q limits.initial high
              (HostAction.performAllIn n depth actions t) m ∧
            ∀ later, ∃ m', Network.Bounds modules host turns depth place q m.pages high
              (HostAction.performAllIn n depth (actions ++ later) t) m' := by
  obtain ⟨hinitial, hmost⟩ :=
    Limits.most_bounds ((accepted_of_transpile h).wellFormed.memory limits hmemory)
      (accepted_of_transpile h).pages
  refine ⟨fun _ => LinearMemory.make_of_le hinitial hmost, ?_⟩
  intro modules hmodules host turns depth world before imports place t n s hout hrun
  have hequivalent (s₀ : Store σ) : Network.Equivalent s₀ n n :=
    Network.equivalent_ofOutputs hmodules s₀
  -- Instantiating links the module, which binds its memory, and then runs its data and start.
  obtain ⟨hplace, t₁, hstart, hlinked⟩ := Network.linked_of_instantiate hrun
  have hmodule : (n place).module = out.module := by rw [hplace, ← hout]; rfl
  have hpages : (n place).maxPages = out.options.maxPages := by rw [hplace, ← hout]; rfl
  rw [hmodule, hpages] at hlinked
  obtain ⟨q, m₁, hq, hm₁, hlow, hhigh, hown⟩ := Machine.exists_memory_of_linked hlinked hmemory
  rw [← hplace] at hq
  have hempty : ∀ m ∈ ({ world } : Store σ).memories, m.Fits :=
    fun m hm => absurd hm (Array.not_mem_empty m)
  have hs : ∀ m ∈ s.memories, m.Fits :=
    (HostAction.growsTo_performAllIn hequivalent depth before _).fits hempty
  have hlink : (n place).link imports s = .ok s.instances.size t₁ :=
    Machine.link_of_linked (by rwa [hmodule, hpages])
  -- Linking and starting may call other modules, which share memories but shrink none.
  have hst : s.GrowsTo t₁ := by
    have hgrows := ((hequivalent s place).link imports).growsTo
    rwa [hlink] at hgrows
  have hfits : m₁.Fits := hst.fits hs m₁ (Array.mem_of_getElem? hm₁)
  have htt : t₁.GrowsTo t := by
    have hgrows := ((hequivalent t₁).start depth place).growsTo
    rwa [hstart] at hgrows
  -- From here on the memory has only grown, within the maximum that it had when it was linked.
  have hbounds {u : Store σ} (hu : t₁.GrowsTo u) {low : Nat}
      (hle : ∀ m', u.memories[q]? = some m' → low ≤ m'.pages) :
      ∃ m, Network.Bounds modules host turns depth place q low m₁.maximum u m := by
    obtain ⟨m, hm, hgrows⟩ := hu.memories hm₁
    exact ⟨m, hgrows.maximum ▸ Network.bounds_of_fits hmodules (hu.memoryAt? hq) hm
      (hgrows.fits hfits) (hle m hm)⟩
  refine ⟨q, m₁.maximum, hhigh, hown, ?_, fun actions => ?_⟩
  -- During the start the guards never refuse, as the memory has its first pages already.
  · have hguarded :
        Network.Equivalent t₁ n (Network.guarded modules host turns q limits.initial m₁.maximum) :=
      Network.equivalent_guarded hmodules hm₁ hfits hlow
    change EStateM.bind ((n s.instances.size).link imports) (Network.start _ depth) s = _
    rw [EStateM.bind, ← hplace, hlink, ← hplace]
    exact (hguarded.start depth place t₁ (.refl t₁)).1.symm.trans hstart
  · have hu := htt.trans (HostAction.growsTo_performAllIn hequivalent depth actions t)
    obtain ⟨m, hm⟩ := hbounds hu fun m' hm' => by
      obtain ⟨m'', hm'', hgrows⟩ := hu.memories hm₁
      rw [← Option.some.inj (hm''.symm.trans hm')]
      exact Nat.le_trans hlow hgrows.pages
    refine ⟨m, hm, fun later => ?_⟩
    -- Later actions only add pages, so the bound below moves up with what was seen.
    have hlater :=
      HostAction.growsTo_performAllIn hequivalent depth later
        (HostAction.performAllIn n depth actions t)
    rw [← HostAction.performAllIn_append] at hlater
    refine hbounds
      (htt.trans (HostAction.growsTo_performAllIn hequivalent depth (actions ++ later) t))
      fun m' hm' => ?_
    obtain ⟨m'', hm'', hgrows⟩ := hlater.memories hm.memory
    rw [← Option.some.inj (hm''.symm.trans hm')]
    exact hgrows.pages

/-- A module that exports a memory of no pages, which may grow to two. -/
def growingBytes : ByteArray :=
  ⟨#[0x00, 0x61, 0x73, 0x6d, 0x01, 0x00, 0x00, 0x00,
     0x05, 0x04, 0x01, 0x01, 0x00, 0x02,
     0x07, 0x05, 0x01, 0x01, 0x6d, 0x02, 0x00]⟩

/-- However a host grows that memory, there are no more than two pages. -/
theorem memory_grows_within_bounds_two :
    ∃ out t, transpile growingBytes {} = .ok out ∧
      (Network.ofOutputs (fun _ => out) idleHost 1).instantiate 2 .undefined
      { world := () } = .ok 0 t ∧
      ∃ q, ∀ deltas : List HostValue, ∃ m,
        (HostAction.performAllIn (Network.ofOutputs (fun _ => out) idleHost 1) 2
          (deltas.map fun delta => .onMemory q (.grow delta)) t).memories[q]? = some m ∧
            m.pages ≤ 2 := by
  have hfacts : (check growingBytes {}).toOption.map (fun c => c.module)
      = some { memory := some ⟨0, some 2⟩, exports := [⟨"m", .memory, 0⟩] } := by decide +kernel
  cases hcheck : check growingBytes {} with
  | error e =>
    rw [hcheck] at hfacts
    cases hfacts
  | ok c =>
    rw [hcheck] at hfacts
    have hmodule := Option.some.inj hfacts
    obtain ⟨out, hout, rfl⟩ := exists_transpile hcheck
    dsimp only at hmodule
    have himports : out.module.imports.toList = [] := by rw [hmodule]
    have hmemory : out.module.memory = some ⟨0, some 2⟩ := by rw [hmodule]
    have hown : out.module.memoryImport = none := by rw [hmodule]
    have hlinked :
        Machine.Linked out.module out.options.maxPages .undefined
          ({ world := () } : Store Unit) _ :=
      ⟨[], _, _, himports ▸ .nil, .owned hmemory hown, rfl⟩
    have hrun :=
      Machine.instantiate_of_linked (M := out.machine idleHost 1)
        (accepted_of_transpile hout).wellFormed
        hlinked 2
    have hsame : (out.machine idleHost 1).module = out.module := rfl
    rw [hsame, hmodule, ← Network.instantiate_single] at hrun
    obtain ⟨-, hbounds⟩ := memory_grows_within_bounds (σ := Unit) hout hmemory
    obtain ⟨q, high, hmost, -, -, hactions⟩ :=
      hbounds (fun _ => out) (fun _ => ⟨_, _, hout⟩) idleHost 1 2 () []
        .undefined 0 _ rfl hrun
    refine ⟨out, _, hout, hrun, q, fun deltas => ?_⟩
    obtain ⟨m, hm, -⟩ := hactions (deltas.map fun delta => .onMemory q (.grow delta))
    exact ⟨m, hm.memory, Nat.le_trans hm.atMost (hmost 2 rfl)⟩

end WasmScript
