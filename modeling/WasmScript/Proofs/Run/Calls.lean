/-
  WasmScript/Proofs/Run/Calls.lean
  ================================
  **Machines that differ in their bodies** — what follows for calls and instances if two
  ways of running the bodies of a module agree.

  Bodies call functions, and host functions call exports, so the agreement of bodies is only
  asked for where calls from them agree.  The bound on the depth of calls counts down with
  each of them; by induction on it whole calls agree, also those that go through the host.
  A call gives as many results as its type says, each of its type, or it fails as expected.

  Linking makes an instance that fits the module, if the host lends or the module owns a
  memory in its bounds; so stores keep fitting through all that a host may do.
-/
import WasmScript.Proofs.Module.WellFormed
import WasmScript.Proofs.Run.Hosts
import WasmScript.Proofs.Run.Results
import WasmScript.Run.Machine

namespace WasmScript

variable {σ : Type} {host : Host σ} {m : Module} {count : Nat}

/-! ### Values from a host -/

namespace Boundary

theorem fits_coerced {type : ValueType} {v : HostValue} {r : Value} (h : coerced type v = .ok r) :
    r.Fits type := by
  -- A word of the width is of the type, whatever number it comes from.
  have hsigned (type : ValueType) (n : Int) :
      (Value.ofInt type (Bits.signed type.width n)).Fits type := by
    rw [Bits.signed_eq_toInt]
    exact Value.fits_word type _
  unfold coerced HostValue.coerce at h
  cases type with
  | i32 =>
    cases v with
    | number n =>
      cases h
      exact hsigned .i32 _
    | bigint n =>
      cases h
      exact hsigned .i32 n
    | _ => cases h
  | i64 =>
    cases v with
    | bigint n =>
      cases h
      exact hsigned .i64 n
    | number n =>
      simp only [HostValue.toI64] at h
      -- A number is taken for a long integer only where it is exact.
      cases hn : n.toSafeInteger? with
      | none =>
        rw [hn] at h
        cases h
      | some k =>
        rw [hn] at h
        cases h
        exact hsigned .i64 k
    | _ => cases h

/-- Values that fit types, or a failure to be expected. -/
def Accepted (host : Host σ) (types : List ValueType) : Except Failure (List Value) → Prop
  | .ok vs => FitAll (vs.map .plain) types
  | .error e => Expected host e

theorem accepted_acceptAll (types : List ValueType) :
    ∀ vs : List HostValue, Accepted host types (script.acceptAll types vs) := by
  induction types with
  | nil => exact fun vs => .nil
  | cons type types ih =>
    intro vs
    have hrest := ih vs.tail
    unfold acceptAll
    cases hv : script.accept type (vs.headD .undefined) with
    | error e => exact .coerced hv
    | ok v =>
      cases hvs : script.acceptAll types vs.tail with
      | error e =>
        rw [hvs] at hrest
        exact hrest
      | ok rest =>
        rw [hvs] at hrest
        exact .cons (fits_coerced hv) hrest

theorem accepted_results (module field : String) (types : List ValueType) (v : HostValue) :
    Accepted host types (script.results module field types v) := by
  unfold results
  split
  · exact .nil
  · next type =>
    cases hv : script.accept type v with
    | error e => exact .coerced hv
    | ok r => exact .cons (fits_coerced hv) .nil
  · cases hitems : script.items module field types.length v with
    | error e => exact .items hitems
    | ok items => exact accepted_acceptAll types items

theorem expected_pass (types : List ValueType) (args : List HostValue) :
    ∀ e, script.pass types args = .error e → Expected host e := by
  change ∀ e, coercedAll types args = .error e → Expected host e
  induction args generalizing types with
  | nil => rintro e ⟨⟩
  | cons v vs ih =>
    intro e he
    unfold coercedAll at he
    cases hv : coerced (types.headD .i64) v with
    | error e' =>
      rw [hv] at he
      cases he
      exact .coerced hv
    | ok arg =>
      rw [hv] at he
      cases hvs : coercedAll types.tail vs with
      | error e' =>
        rw [hvs] at he
        cases he
        exact ih _ e hvs
      | ok rest =>
        rw [hvs] at he
        cases he

end Boundary

/-! ### Calls -/

/-- Two ways of calling the functions of an instance that have the same outcomes: results of the
types of the function, or a failure that is expected. -/
def CallsAgree (host : Host σ) (m : Module) (count : Nat)
    (call call' : Nat → List Cell → Action σ (List Cell)) : Prop :=
  ∀ function type args, m.functionType? function = some type → FitAll args type.params →
    Agree (Store.Fits m count) (call function args) (call' function args)
      (fun cells s => FitAll cells type.results ∧ s.Fits m count) (CallFails host m count)

/-- Another way of running the bodies of a machine, with the same outcomes as long as calls from the
bodies have. -/
structure Machine.BodiesAgree (M : Machine σ)
    (body : Nat → (Nat → List Cell → Action σ (List Cell)) → Nat → List Cell →
      Action σ (List Cell)) :
    Prop where
  wellFormed : M.module.WellFormed
  boundary : M.boundary = .script
  maxPages : M.maxPages ≤ LinearMemory.maxPages
  body : ∀ {count place : Nat} {call call' : Nat → List Cell → Action σ (List Cell)},
      place < count →
    CallsAgree M.host M.module count call call' →
    ∀ function type args, M.module.imports[function]? = none →
      M.module.functionType? function = some type → FitAll args type.params →
      Agree (Store.Fits M.module count) (M.body place call function args)
          (body place call' function args)
        (fun cells s => FitAll cells type.results ∧ s.Fits M.module count)
        (CallFails M.host M.module count)

namespace Action

variable {P : Store σ → Prop}

theorem agree_ofExcept {α : Type} (r : Except Failure α) :
    Agree P (ofExcept id r) (ofExcept id r) (fun a s => r = .ok a ∧ P s)
      (fun e s => r = .error e ∧ P s) := by
  cases r with
  | ok a => exact Agree.pure fun s hs => ⟨rfl, hs⟩
  | error e => exact Agree.throw fun s hs => ⟨rfl, hs⟩

end Action

namespace Machine

open WasmScript.Action

variable {M : Machine σ} {place : Nat}
variable {body : Nat → (Nat → List Cell → Action σ (List Cell)) → Nat → List Cell →
    Action σ (List Cell)}

/-- Whether something is called by the host under a name, and what it is. -/
def exportedFunction? (m : Module) (name : String) : Option FunctionType :=
  match m.exports.find? fun e => e.name == name with
  | some ⟨_, .function, index⟩ => m.functionType? index
  | _ => none

theorem agree_callBound {exports exports' : Exports σ}
    (h : ∀ place name args,
      Agree (Store.Fits m count) (exports place name args) (exports' place name args)
      (fun _ s => s.Fits m count) (ExportFails host m count))
    (target : Nat) (module field : String) (type : FunctionType) (args : List HostValue) :
    Agree (Store.Fits m count) (callBound host .script exports target module field type args)
      (callBound host .script exports' target module field type args)
      (fun vs s => FitAll (vs.map .plain) type.results ∧ s.Fits m count)
      (CallFails host m count) := by
  unfold callBound
  refine Agree.bind (Q := fun _ s => s.Fits m count)
    ((agree_ofExcept _).mono (fun _ h => h) (fun _ _ h => h.2) ?_) fun args => ?_
  · exact fun e s he => ⟨Boundary.expected_pass _ _ e he.1, he.2⟩
  refine (agree_runHost h (host target args) fun e he => .raised he).bind fun returned => ?_
  have haccepted : Boundary.Accepted host type.results _ :=
    Boundary.accepted_results module field type.results returned
  refine (agree_ofExcept _).mono (fun _ h => h) ?_ ?_
  · rintro vs s ⟨hvs, hs⟩
    rw [hvs] at haccepted
    exact ⟨haccepted, hs⟩
  · rintro e s ⟨he, hs⟩
    rw [he] at haccepted
    exact ⟨haccepted, hs⟩

/-- A call of a function that there is gives its results. -/
theorem agree_callFunction (hboundary : M.boundary = .script)
    {invoke invoke' : Nat → Nat → List Cell → Action σ (List Cell)}
    (h : CallsAgree M.host M.module count (invoke place) (invoke' place)) (hplace : place < count)
    {name : String} {type : FunctionType} (hname : exportedFunction? M.module name = some type)
    (args : List HostValue) :
    Agree (Store.Fits M.module count) (M.callExported invoke place name args)
      ({ M with body }.callExported invoke' place name args)
      (fun v s => (∃ cells, v = .ofResults (cells.map Cell.toHost) ∧ FitAll cells type.results)
        ∧ s.Fits M.module count)
      (CallFails M.host M.module count) := by
  have hthere :
      Agree (Store.Fits (σ := σ) M.module count) (requireInstance place) (requireInstance place)
      (fun _ s => s.Fits M.module count) (CallFails M.host M.module count) := by
    intro s hs
    rw [requireInstance_eq hs hplace]
    exact ⟨rfl, hs⟩
  unfold exportedFunction? at hname
  unfold callExported
  refine hthere.bind fun _ => ?_
  split at hname
  · next index hfind =>
    dsimp only
    rw [hfind]
    dsimp only
    rw [hname, hboundary]
    change Agree _ (ofExcept id (Boundary.script.acceptAll type.params args) >>= _)
      (ofExcept id (Boundary.script.acceptAll type.params args) >>= _) _ _
    have haccepted : Boundary.Accepted M.host type.params _ :=
      Boundary.accepted_acceptAll type.params args
    -- Arguments that are accepted fit, so that the call is one of those that agree.
    refine Agree.bind (Q := fun vs s => FitAll (vs.map .plain) type.params ∧ s.Fits M.module count)
      ((agree_ofExcept _).mono (fun _ h => h) ?_ ?_) fun vs => Agree.of_fact fun hvs => ?_
    · rintro vs s ⟨hvs, hs⟩
      rw [hvs] at haccepted
      exact ⟨haccepted, hs⟩
    · rintro e s ⟨he, hs⟩
      rw [he] at haccepted
      exact ⟨haccepted, hs⟩
    · refine (h index type _ hname hvs).bind fun cells => Agree.of_fact fun hcells => ?_
      exact Agree.pure fun s hs => ⟨⟨cells, rfl, hcells⟩, hs⟩
  · cases hname

/-- A host may call any export, also one that does not exist. -/
theorem agree_callExported (hwell : M.module.WellFormed) (hboundary : M.boundary = .script)
    {invoke invoke' : Nat → Nat → List Cell → Action σ (List Cell)}
    (h : ∀ place < count, CallsAgree M.host M.module count (invoke place) (invoke' place))
    (place : Nat) (name : String) (args : List HostValue) :
    Agree (Store.Fits M.module count) (M.callExported invoke place name args)
      ({ M with body }.callExported invoke' place name args) (fun _ s => s.Fits M.module count)
      (ExportFails M.host M.module count) := by
  by_cases hplace : place < count
  · cases hname : exportedFunction? M.module name with
    | some type =>
      exact (agree_callFunction hboundary (h place hplace) hplace hname args).mono (fun _ h => h)
        (fun _ _ h => h.2) fun _ _ h => ⟨.inl h.1, h.2⟩
    | none =>
      intro s hs
      -- Without the function the call fails before it runs anything.
      have hmissing (invoke : Nat → Nat → List Cell → Action σ (List Cell)) :
          M.callExported invoke place name args s = .error .noFunction s := by
        unfold exportedFunction? at hname
        change EStateM.bind (requireInstance place) _ s = _
        rw [EStateM.bind, requireInstance_eq hs hplace]
        dsimp only
        split at hname
        · next index hfind =>
          have hmem := List.mem_of_find?_eq_some hfind
          obtain ⟨type, htype⟩ := hwell.exists_functionType (hwell.exports _ hmem)
          cases hname.symm.trans htype
        · next hother =>
          cases hfind : M.module.exports.find? fun e => e.name == name with
          | none => rfl
          | some e =>
            obtain ⟨n, kind, index⟩ := e
            cases kind with
            | function => exact (hother _ _ hfind).elim
            | _ => rfl
      have hsame : ({ M with body }.callExported invoke' place name args) s =
          .error .noFunction s :=
        hmissing invoke'
      rw [hmissing, hsame]
      exact ⟨rfl, .inr (.inr rfl), hs⟩
  · intro s hs
    have hmissing (M : Machine σ) (invoke : Nat → Nat → List Cell → Action σ (List Cell)) :
        M.callExported invoke place name args s = .error .noInstance s := by
      change EStateM.bind (requireInstance place) _ s = _
      rw [EStateM.bind, requireInstance_fails hs (Nat.le_of_not_lt hplace)]
    rw [hmissing, hmissing]
    exact ⟨rfl, .inr (.inl rfl), hs⟩

/-- Calls agree, however deep they are nested. -/
theorem agree_invoke (h : M.BodiesAgree body) (depth : Nat) :
    ∀ place < count,
      CallsAgree M.host M.module count (M.invoke depth place)
        ({ M with body }.invoke depth place) := by
  -- The induction is on the depth, as every call goes one further down.
  induction depth with
  | zero =>
    intro place _ function type args _ _
    exact Agree.throw fun s hs => ⟨.tooDeep, hs⟩
  | succ depth ih =>
    intro place hplace function type args htype hargs
    unfold invoke
    dsimp only
    cases himport : M.module.imports[function]? with
    | none => exact h.body hplace (ih place hplace) function type args himport htype hargs
    | some entry =>
      have hentry : M.module.types[entry.typeIndex]? = some type := by
        rwa [Module.functionType?, himport] at htype
      have hcall : Agree (Store.Fits M.module count)
          (M.callImport (M.callExported (M.invoke depth)) place function entry
            (args.map Cell.toHost))
          (M.callImport ({ M with body }.callExported ({ M with body }.invoke depth)) place
              function entry
            (args.map Cell.toHost))
          (fun vs s => FitAll (vs.map .plain) type.results ∧ s.Fits M.module count)
          (CallFails M.host M.module count) := by
        intro s hs
        obtain ⟨i, -, hi, hfits⟩ := instanceAt_eq hs hplace
        have hlt : function < i.imports.size :=
          hfits.imports ▸ (Array.getElem?_eq_some_iff.mp himport).1
        have hbound (exports : Exports σ) :
            M.callImport exports place function entry (args.map Cell.toHost) s
              = callBound M.host .script exports i.imports[function] entry.module entry.name type
                  (args.map Cell.toHost) s := by
          change EStateM.bind (instanceAt place) _ s = _
          simp only [EStateM.bind, hi, bind, hentry, Array.getElem?_eq_getElem hlt, h.boundary]
          rfl
        rw [hbound, hbound]
        refine agree_callBound ?_ _ _ _ _ _ s hs
        exact fun place name args => agree_callExported h.wellFormed h.boundary ih place name args
      refine Agree.bind hcall fun vs => Agree.of_fact fun hvs => ?_
      exact Agree.pure fun s hs => ⟨hvs, hs⟩

end Machine

end WasmScript
