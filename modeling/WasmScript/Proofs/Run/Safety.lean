/-
  WasmScript/Proofs/Run/Safety.lean
  =================================
  **Runs of accepted modules** — that nothing goes wrong in them, whatever a host does.

  A host makes memories, makes instances and calls what they export, one after another, and
  its own functions do what they like while they are called.  Through all of that stores fit
  the module.  An audit that looks at each value and at all variables, wherever an
  expression gives something, finds no fault, so the audited machine does what the plain one
  does; and a call gives as many results as are declared, of their types, or fails in one of
  the ways that are to be expected.
-/
import WasmScript.Proofs.Accepted
import WasmScript.Proofs.Run.Linking
import WasmScript.Proofs.Run.Operands

namespace WasmScript

variable {σ : Type}

/-! ### An audit -/

instance (v : Value) : Decidable v.Canonical :=
  match v with
  | .i32 n => inferInstanceAs (Decidable (-0x80000000 ≤ n ∧ n < 0x80000000))
  | .i64 n => inferInstanceAs (Decidable (-0x8000000000000000 ≤ n ∧ n < 0x8000000000000000))

instance (type : ValueType) (c : Cell) : Decidable (c.Fits type) :=
  inferInstanceAs (Decidable (c.toValue.type = type ∧ c.toValue.Canonical))

theorem fitEach_iff {cells : Array Cell} {types : Array ValueType} :
    FitEach cells types ↔
      cells.size = types.size ∧ ∀ i : Fin types.size, ∀ c ∈ cells[i]?, c.Fits types[i] := by
  constructor
  · exact fun h => ⟨h.size, fun i c hc => h.fits i types[i] c (Array.getElem?_eq_getElem i.isLt) hc⟩
  · rintro ⟨hsize, hfits⟩
    refine ⟨hsize, fun i type c htype hc => ?_⟩
    obtain ⟨hlt, rfl⟩ := Array.getElem?_eq_some_iff.mp htype
    exact hfits ⟨i, hlt⟩ c hc

instance (cells : Array Cell) (types : Array ValueType) : Decidable (FitEach cells types) :=
  decidable_of_iff' _ fitEach_iff

namespace IR

theorem tempsFit_iff {temps : Array Temp} {held : Array (Option Cell)} :
    TempsFit temps held ↔ ∀ id : Fin temps.size, ∀ c ∈ held[id]?.join, c.Fits temps[id].type := by
  constructor
  · exact fun h id => h id temps[id] (Array.getElem?_eq_getElem id.isLt)
  · intro h id t ht
    obtain ⟨hlt, rfl⟩ := Array.getElem?_eq_some_iff.mp ht
    exact h ⟨id, hlt⟩

instance (temps : Array Temp) (held : Array (Option Cell)) : Decidable (TempsFit temps held) :=
  decidable_of_iff' _ tempsFit_iff

instance (e : Expression) (c : Cell) : Decidable (e.ResultFits c) := by
  unfold Expression.ResultFits
  split <;> infer_instance

theorem sound_iff {Γ : Scope} {place : Nat} {e : Expression} {c : Cell} {v : Variables σ} :
    Sound Γ place e c v ↔ e.ResultFits c ∧ FitEach v.locals Γ.locals ∧ TempsFit Γ.temps v.temps
      ∧ ∀ i ∈ v.store.instances[place]?, FitEach i.globals Γ.module.globalTypes :=
  ⟨fun ⟨hvalue, hlocals, htemps, hglobals⟩ => ⟨hvalue, hlocals, htemps, hglobals⟩,
    fun ⟨hvalue, hlocals, htemps, hglobals⟩ => ⟨hvalue, hlocals, htemps, hglobals⟩⟩

instance (Γ : Scope) (place : Nat) (e : Expression) (c : Cell) (v : Variables σ) :
    Decidable (Sound Γ place e c v) :=
  decidable_of_iff' _ sound_iff

def audit (m : Module) : Watch σ := fun place f e c v => decide (Sound (f.scope m) place e c v)

end IR

namespace Checked

/-- The machine that runs the script of a module. -/
def machine (c : Checked) (host : Host σ) (turns : Nat) : Machine σ :=
  IR.machine c.module c.functions.toArray host c.options.maxPages turns

/-- The same, under an audit. -/
def auditedMachine (c : Checked) (host : Host σ) (turns : Nat) : Machine σ :=
  IR.watchedMachine (IR.audit c.module) c.module c.functions.toArray host c.options.maxPages turns

end Checked

/-- A way of running bodies that does what the plain one does wherever calls do what they should. -/
theorem Checked.Accepted.bodiesAgree_of_runs {c : Checked} (h : c.Accepted) (host : Host σ)
    (turns : Nat) {body : Nat → (Nat → List Cell → Action σ (List Cell)) → Nat → List Cell →
      Action σ (List Cell)}
    (hbody : ∀ {count place function : Nat} {f : IR.Function}
      {call : Nat → List Cell → Action σ (List Cell)} {args : List Cell},
      IR.buildFunction c.module function = .ok f →
      c.functions.toArray[function - c.module.imports.size]? = some f →
      IR.Run.Unwatched (f.scope c.module) count (Expected host)
        ⟨place, call, turns, fun _ _ _ => true⟩ →
      FitAll args f.params → ∀ s, s.Fits c.module count →
        body place call function args s = f.run ⟨place, call, turns, fun _ _ _ => true⟩ args s) :
    (c.machine host turns).BodiesAgree body where
  wellFormed := h.wellFormed
  boundary := rfl
  maxPages := h.pages
  body := by
    intro count place call call' hplace hcalls function type args himport htype hargs s hs
    obtain ⟨f, hf, hbuild⟩ := h.exists_function himport htype
    have hproper := IR.Function.proper_of_build hbuild
    obtain rfl : type = ⟨f.params, f.results⟩ :=
      Option.some.inj (htype.symm.trans (IR.Function.type_of_build hbuild))
    let around : IR.Surroundings σ := ⟨place, call, turns, fun _ _ _ => true⟩
    let around' : IR.Surroundings σ := ⟨place, call', turns, fun _ _ _ => true⟩
    have hagree : IR.SurroundingsAgree (f.scope c.module) count (Expected host) around around' :=
      { place := rfl, turns := rfl, inside := hplace, watch := fun _ _ _ _ => ⟨rfl, rfl⟩,
        call := hcalls, traps := .trap, tooLong := .tooLong }
    -- The calls of the second run agree with themselves, as they agree with those of the first.
    have hown : IR.Run.Unwatched (f.scope c.module) count (Expected host) around' :=
      { place := rfl, turns := rfl, inside := hplace, watch := fun _ _ _ _ => ⟨rfl, rfl⟩,
        call := fun function type args htype hargs =>
          (hcalls function type args htype hargs).symm.trans (hcalls function type args htype hargs)
        traps := .trap, tooLong := .tooLong, silent := fun _ _ _ => rfl }
    obtain ⟨hsame, hmeets⟩ := hproper.agree_run hagree hargs s hs
    have hplain : (c.machine host turns).body place call function args s = f.run around args s := by
      change (Action.ofOption c.functions.toArray[function - c.module.imports.size]? >>= fun f =>
        f.run around args) s = _
      rw [hf]
      rfl
    rw [hplain, hbody hbuild hf hown hargs s hs]
    exact ⟨hsame, hmeets⟩

/-- An audit finds no fault with an accepted module. -/
theorem Checked.Accepted.bodiesAgree_audited {c : Checked} (h : c.Accepted) (host : Host σ)
    (turns : Nat) :
    (c.machine host turns).BodiesAgree (c.auditedMachine host turns).body := by
  refine h.bodiesAgree_of_runs host turns ?_
  intro count place function f call args hbuild hf ha hargs s hs
  have hagree : IR.SurroundingsAgree (f.scope c.module) count (Expected host)
      ⟨place, call, turns, fun _ _ _ => true⟩ ⟨place, call, turns, IR.audit c.module place f⟩ :=
    { ha.toSurroundingsAgree with watch := fun _ _ _ hv => ⟨rfl, decide_eq_true hv⟩ }
  change (Action.ofOption c.functions.toArray[function - c.module.imports.size]? >>= fun f =>
    f.run ⟨place, call, turns, IR.audit c.module place f⟩ args) s = _
  rw [hf]
  exact ((IR.Function.proper_of_build hbuild).agree_run hagree hargs s hs).1.symm

/-! ### What hosts do -/

/-- What a host does from outside, which may fail. -/
inductive HostAction (σ : Type) where
  | world (change : σ → σ)
  | newMemory (initial maximum : HostValue)
  | onMemory (place : Nat) (operation : MemoryCall)
  | instantiate (imports : HostValue)
  | call (place : Nat) (name : String) (args : List HostValue)

namespace HostAction

open WasmScript.Action

def perform (M : Machine σ) (depth : Nat) : HostAction σ → Action σ Unit
  | .world change => (fun _ => ()) <$> changeWorld change
  | .newMemory initial maximum => do
    let memory ← ofExcept id (LinearMemory.make initial maximum)
    (fun _ => ()) <$> addMemory memory
  | .onMemory place operation => (fun _ => ()) <$> do
    requireMemory place
    Action.onMemory place operation.perform
  | .instantiate imports => (fun _ => ()) <$> M.instantiate depth imports
  | .call place name args => (fun _ => ()) <$> M.callExport depth place name args

/-- What is left after some actions, of which each may fail. -/
def performAll (M : Machine σ) (depth : Nat) : List (HostAction σ) → Store σ → Store σ
  | [], s => s
  | action :: rest, s => performAll M depth rest (after (action.perform M depth s))

end HostAction

/-- A store that fits a module, with however many instances. -/
def Store.Sound (m : Module) (s : Store σ) : Prop := s.Fits m s.instances.size

theorem Store.Fits.sound {m : Module} {count : Nat} {s : Store σ} (h : s.Fits m count) :
    s.Sound m := by
  have hsize := h.size
  subst hsize
  exact h

theorem Store.sound_empty (m : Module) (world : σ) : ({ world } : Store σ).Sound m where
  size := rfl
  instances i hi := absurd hi (Array.not_mem_empty i)
  memories memory hmem := absurd hmem (Array.not_mem_empty memory)

/-- A memory that a host makes is in its bounds. -/
theorem LinearMemory.fits_make {initial maximum : HostValue} {memory : LinearMemory}
    (h : make initial maximum = .ok memory) : memory.Fits := by
  have hnever (r : Except Failure String) (flaw : String → Failure) :
      (do throw (flaw (← r)) : Except Failure LinearMemory) ≠ .ok memory := by
    cases r <;> rintro ⟨⟩
  unfold make at h
  extract_lets most at h
  split at h
  · exact (hnever _ _ h).elim
  · next most _ =>
    split at h
    · cases h
    · split at h
      · next n _ =>
        split at h
        · cases h
          have hcreate : (create n.toNat most.toNat).Fits := fits_create (by omega) (by omega)
          exact hcreate.of_eq rfl rfl rfl
        · cases h
      · exact (hnever _ _ h).elim

namespace HostAction

open WasmScript.Action

variable {M : Machine σ}
variable {body : Nat → (Nat → List Cell → Action σ (List Cell)) → Nat → List Cell →
    Action σ (List Cell)}

/-- Each action does the same to machines whose bodies agree, and keeps stores sound. -/
theorem agree_perform (h : M.BodiesAgree body) (depth count : Nat) (action : HostAction σ) :
    Agree (Store.Fits M.module count) (action.perform M depth)
      (action.perform { M with body } depth)
      (fun _ s => s.Sound M.module) (fun _ s => s.Sound M.module) := by
  let Sound (s : Store σ) : Prop := s.Sound M.module
  -- A host action gives nothing back, so what it returns does not matter.
  have forget {α : Type} {x y : Action σ α}
      (hxy : Agree (Store.Fits M.module count) x y (fun _ => Sound) fun _ => Sound) :
      Agree (Store.Fits M.module count) ((fun _ => ()) <$> x) ((fun _ => ()) <$> y) (fun _ => Sound)
        fun _ => Sound :=
    Agree.map (R := fun _ => Sound) (fun _ => ()) hxy
  cases action with
  | world change => exact forget fun s hs => ⟨rfl, (hs.world (change s.world)).sound⟩
  | newMemory initial maximum =>
    refine Agree.bind ((agree_ofExcept (LinearMemory.make initial maximum)).mono (fun _ h => h)
      (fun _ _ h => h) fun _ _ h => Store.Fits.sound h.2) fun memory =>
        Agree.of_fact fun hmake => ?_
    exact forget fun s hs => ⟨rfl, (hs.addMemory (LinearMemory.fits_make hmake)).sound⟩
  | onMemory place call =>
    exact forget ((agree_memoryCall place call).mono (fun _ h => h) (fun _ _ h => h.2.sound)
      fun _ _ h => h.2.sound)
  | instantiate imports =>
    refine forget
      ((Machine.agree_instantiate h depth).mono (fun _ h => h) (fun _ _ h => h.2.sound) ?_)
    -- An instance may fail to be linked, or fail once it is there.
    rintro e s (⟨-, -, hs⟩ | ⟨-, hs⟩)
    · exact hs.sound
    · exact hs.sound
  | call place name args =>
    exact forget ((Machine.agree_callExported h.wellFormed h.boundary (Machine.agree_invoke h depth)
      place name args).mono (fun _ h => h) (fun _ _ h => h.sound) fun _ _ h => h.2.sound)

/-- So do all actions of a host, one after another. -/
theorem performAll_eq (h : M.BodiesAgree body) (depth : Nat) (actions : List (HostAction σ))
    {s : Store σ} (hs : s.Sound M.module) :
    performAll { M with body } depth actions s = performAll M depth actions s
      ∧ (performAll M depth actions s).Sound M.module := by
  -- The induction is on the actions, after each of which the store is sound, also if it fails.
  induction actions generalizing s with
  | nil => exact ⟨rfl, hs⟩
  | cons action rest ih =>
    obtain ⟨hsame, hmeets⟩ := agree_perform h depth _ action s hs
    have hafter : (after (action.perform M depth s)).Sound M.module := by
      rw [hsame]
      cases hrun : action.perform { M with body } depth s with
      | ok a s' =>
        rw [hrun] at hmeets
        exact hmeets
      | error e s' =>
        rw [hrun] at hmeets
        exact hmeets
    unfold performAll
    rw [← hsame]
    exact ih hafter

end HostAction

/-- Running code is never stuck, unless a host function says that it is. -/
theorem Expected.raised_of_stuck {host : Host σ} (h : Expected host .stuck) :
    ∃ function args, Raised host (host function args) .stuck := by
  generalize he : Failure.stuck = e at h
  cases h with
  | trap kind => cases he
  | tooDeep => cases he
  | tooLong => cases he
  | @coerced type v e fails =>
    unfold Boundary.coerced at fails
    cases hv : HostValue.coerce type v with
    | ok r =>
      rw [hv] at fails
      cases fails
    | error e' =>
      rw [hv] at fails
      cases he
      cases fails
  | @items module field count v e fails =>
    subst he
    unfold Boundary.arrayItems at fails
    split at fails
    · split at fails <;> cases fails
    · cases fails
  | @raised function args e raises => exact ⟨function, args, he ▸ raises⟩

/-- Whatever a host does with an accepted module, an audit of all values and variables finds no
fault, stores stay sound, and each call gives what its function declares or fails as expected. -/
theorem transpiled_runs_sound {bytes : ByteArray} {options : TranspileOptions} {out : Output}
    (h : transpile bytes options = .ok out) (host : Host σ) (turns depth : Nat) (world : σ)
    (actions : List (HostAction σ)) :
    let M := out.machine host turns
    let audited := out.auditedMachine host turns
    let s := HostAction.performAll M depth actions { world }
    HostAction.performAll audited depth actions { world } = s ∧ s.Sound out.module ∧
      (∀ imports, audited.instantiate depth imports s = M.instantiate depth imports s ∧
        Meets (fun place s' => place = s.instances.size ∧ s'.Sound out.module)
          (Machine.InstantiateFails M imports s.instances.size) (M.instantiate depth imports s)) ∧
      ∀ place name type args, place < s.instances.size →
        Machine.exportedFunction? out.module name = some type →
        audited.callExport depth place name args s = M.callExport depth place name args s ∧
        Meets (fun v s' =>
            (∃ cells, v = .ofResults (cells.map Cell.toHost) ∧ FitAll cells type.results)
            ∧ s'.Sound out.module)
          (fun e s' => Expected host e ∧ s'.Sound out.module)
            (M.callExport depth place name args s) ∧
        ((∀ function args, ¬ Raised host (host function args) .stuck) →
          ∀ s', M.callExport depth place name args s ≠ .error .stuck s') := by
  intro M audited s
  have hagree : M.BodiesAgree audited.body :=
    (accepted_of_transpile h).bodiesAgree_audited host turns
  obtain ⟨hsame, hsound⟩ :=
    HostAction.performAll_eq hagree depth actions (Store.sound_empty out.module world)
  refine ⟨hsame, hsound, fun imports => ?_, fun place name type args hplace hname => ?_⟩
  · obtain ⟨hinst, hmeets⟩ := (Machine.agree_instantiate hagree depth).post
      (fun place s' hs' => And.imp_right Store.Fits.sound hs') s hsound
    exact ⟨hinst.symm, hinst ▸ hmeets⟩
  -- The audit changes the bodies only, and these agree on every store that fits.
  · have hinvoke : CallsAgree host out.module s.instances.size (M.invoke depth place)
        (audited.invoke depth place) := Machine.agree_invoke hagree depth place hplace
    obtain ⟨hcall, hmeets⟩ :=
      (Machine.agree_callFunction hagree.boundary hinvoke hplace hname args).mono
        (fun _ hs => hs) (fun _ _ hs => And.imp_right Store.Fits.sound hs)
        (fun _ _ hs => And.imp_right Store.Fits.sound hs) s hsound
    rw [← hcall] at hmeets
    refine ⟨hcall.symm, hmeets, fun hhost s' hstuck => ?_⟩
    -- What is stuck is among the expected failures only if the host raised it.
    have hfails : M.callExported (M.invoke depth) place name args s = .error .stuck s' := hstuck
    rw [hfails] at hmeets
    obtain ⟨function, args, hraised⟩ := hmeets.1.raised_of_stuck
    exact hhost function args hraised

/-- A module that exports a division of the successor of a number by that number. -/
def divisionBytes : ByteArray :=
  ⟨#[0x00, 0x61, 0x73, 0x6d, 0x01, 0x00, 0x00, 0x00,
     0x01, 0x06, 0x01, 0x60, 0x01, 0x7f, 0x01, 0x7f,
     0x03, 0x02, 0x01, 0x00,
     0x07, 0x05, 0x01, 0x01, 0x66, 0x00, 0x00,
     0x0a, 0x0c, 0x01, 0x0a, 0x00, 0x20, 0x00, 0x41, 0x01, 0x6a, 0x20, 0x00, 0x6d, 0x0b]⟩

/-- A host whose functions do nothing. -/
def idleHost : Host Unit := fun _ _ => .finish (.ok .undefined)

def returned? : EStateM.Result Failure (Store σ) HostValue → Option Int
  | .ok (.number n) _ => n.toInteger?
  | _ => none

/-- A call that divides by zero leaves the instance sound, and the successor of the largest number
wraps before it is divided. -/
theorem transpiled_runs_sound_division :
    ∃ out, transpile divisionBytes {} = .ok out ∧
      let M := out.machine idleHost 10
      let s := HostAction.performAll M 3 [.instantiate .undefined, .call 0 "f" [.ofNat 0]]
        { world := () }
      0 < s.instances.size ∧ Machine.exportedFunction? out.module "f" = some ⟨[.i32], [.i32]⟩ ∧
        returned? (M.callExport 3 0 "f" [.ofNat 0x7fffffff] s) = some (-1) ∧
        Meets (fun v s' => (∃ cells, v = .ofResults (cells.map Cell.toHost) ∧ FitAll cells [.i32])
            ∧ s'.Sound out.module)
          (fun e s' => Expected idleHost e ∧ s'.Sound out.module)
          (M.callExport 3 0 "f" [.ofNat 0x7fffffff] s) := by
  have hfacts : ((check divisionBytes {}).toOption.map fun c =>
      let M := c.machine idleHost 10
      let s := HostAction.performAll M 3 [.instantiate .undefined, .call 0 "f" [.ofNat 0]]
        { world := () }
      (s.instances.size, Machine.exportedFunction? c.module "f",
        returned? (M.callExport 3 0 "f" [.ofNat 0x7fffffff] s)))
          = some (1, some ⟨[.i32], [.i32]⟩, some (-1)) := by decide +kernel
  cases hcheck : check divisionBytes {} with
  | error e =>
    rw [hcheck] at hfacts
    cases hfacts
  | ok c =>
    rw [hcheck] at hfacts
    obtain ⟨hsize, hrest⟩ := Prod.mk.inj (Option.some.inj hfacts)
    obtain ⟨hname, hresult⟩ := Prod.mk.inj hrest
    obtain ⟨out, hout, rfl⟩ := exists_transpile hcheck
    have hplace := Nat.lt_of_lt_of_eq Nat.zero_lt_one hsize.symm
    obtain ⟨-, -, -, hcalls⟩ := transpiled_runs_sound hout idleHost 10 3 ()
      [.instantiate .undefined, .call 0 "f" [.ofNat 0]]
    obtain ⟨-, hmeets, -⟩ := hcalls 0 "f" _ [.ofNat 0x7fffffff] hplace hname
    exact ⟨out, hout, hplace, hname, hresult, hmeets⟩

end WasmScript
