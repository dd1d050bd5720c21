/-
  WasmScript/Proofs/Run/Refinement.lean
  =====================================
  **Structured bodies refine the stack machine** — a module that was built does what its
  instructions say.

  A function that is built starts with its arguments and declared locals, as its code does on
  the stack machine, with nothing on the stack.  Its body simulates the code up to where that
  ends, leaves or branches out of the function; then the results are on the stack.  Calls go
  through the same machine on both sides, so whole modules do the same, whatever the host
  functions do that they call.
-/
import WasmScript.Proofs.Memory
import WasmScript.Proofs.Run.Safety
import WasmScript.Proofs.Run.Simulation

namespace WasmScript

open IR (Variables Surroundings Expression Statement Frame Layer Draft Context Temp Function)
open IR.Build (Made)
open IR.Run
open Stack (RunOutcome outcome runOver)

variable {σ : Type}

/-! ### Functions -/

namespace Stack

def RunOutcome.returned : RunOutcome σ (List Cell) → EStateM.Result Failure (Store σ) (List Cell)
  | .ok (results, s) => .ok results s.store
  | .error (e, store) => .error e store

/-- However its code ends, a function returns what is topmost on the stack. -/
theorem runCode_eq (around : Surroundings σ) (type : FunctionType) (declared : Array ValueType)
    (code : List Code) (args : List Cell) (store : Store σ) :
    runCode around type declared code args store
      = ((outcome
        (Run.executeAll around code ⟨[], args.toArray ++ declared.map Cell.zero, store⟩)).bind
          fun _ => Run.popMany type.results.length).returned := by
  rw [← outcome_bind]
  unfold runCode
  dsimp only
  split
  · next heq =>
    change _ =
      (outcome ((do let _ ← Run.executeAll around code; Run.popMany type.results.length)
        _)).returned
    rw [heq]
    rfl
  · next heq =>
    change _ =
      (outcome ((do let _ ← Run.executeAll around code; Run.popMany type.results.length)
        _)).returned
    rw [heq]
    rfl

theorem RunOutcome.returned_of_length {cells : List Cell} {count : Nat} (h : cells.length = count)
    (ending : Ending) (below : List Cell) (locals : Array Cell) (store : Store σ) :
    (RunOutcome.bind (.ok (ending, ⟨cells.reverse ++ below, locals, store⟩)) fun _ =>
      Run.popMany count).returned
      = .ok cells store := by
  change RunOutcome.returned (outcome (Run.popMany count ⟨cells.reverse ++ below, locals, store⟩)) =
    _
  rw [Run.popMany_of_length h below locals store]
  rfl

end Stack

namespace IR

/-- What a function returns or fails with once its body has run. -/
def Function.returned (f : Function) :
    EStateM.Result Failure (Variables σ) Ending → EStateM.Result Failure (Store σ) (List Cell)
  | .ok ending after =>
    match f.results? ending with
    | some values => .ok values after.store
    | none => .error .stuck after.store
  | .error e after => .error e after.store

/-- A function returns what its code leaves on the stack. -/
theorem returned_finished {ctx : Context} {final : Array Temp} {count : Nat} {F : Failure → Prop}
    {around : Surroundings σ} (ha : Unwatched (ctx.scope final) count F around) {f : Frame}
    {pend : List Expression} {label : Nat} (hof : Draft.Of ctx final ⟨[⟨f, pend⟩], final, label⟩)
    (types : f.unreachable = false → pend.map Expression.type = ctx.type.results) {fn : Function}
    (hresults : fn.results = ctx.type.results) {v : Variables σ} {o : RunOutcome σ Stack.Ending}
    (hv : ∀ w, executeAll around f.body.toList v = .ok .next w →
      w.Fits (ctx.scope final) count (Draft.place final ⟨[⟨f, pend⟩], final, label⟩).known)
    (h : Arrives (Layer.aims (Build.Draft.start ctx.type).layers) ctx.type.results.length 0
      (GoesOn around [] (f.unreachable = false) pend) v (executeAll around f.body.toList v) o) :
    fn.returned (executeAll around (Build.finishedBody f pend) v)
      = (o.bind fun _ => Stack.Run.popMany ctx.type.results.length).returned := by
  obtain ⟨ts, hts⟩ : ∃ ts, Build.finishedBody f pend = f.body.toList ++ ts := by
    unfold Build.finishedBody
    split
    · exact ⟨[], (List.append_nil _).symm⟩
    · exact ⟨_, rfl⟩
  generalize hrun : executeAll around f.body.toList v = r at h
  cases h with
  | failed =>
    rw [hts, executeAll_of_error hrun]
    rfl
  | @next w o kept next =>
    obtain ⟨hlive, rfl⟩ := next
    have htypes := types hlive
    have hnot : ¬ f.unreachable = true := by rw [hlive]; exact Bool.false_ne_true
    -- Without results there is no `leave` at the end of the body.
    by_cases hpend : pend = []
    · subst hpend
      have hnone : ctx.type.results = [] := htypes.symm
      rw [Build.finishedBody, if_pos (.inr rfl), hrun, Function.returned, Function.results?,
        hresults, hnone]
      rfl
    · rw [Build.finishedBody, if_neg (not_or.mpr ⟨hnot, hpend⟩), executeAll_of_next hrun,
        executeAll_single, execute]
      cases heval : evaluateAll around pend w with
      | error e u =>
        rw [bind_at_error heval, Stack.runOver_of_error heval]
        rfl
      | ok cells u =>
        have hcells := (fits_of_ok ha hof.pending.typed hof.pending.uses (hv w hrun) heval).1
        rw [htypes] at hcells
        rw [bind_at_ok heval, Stack.runOver_of_ok heval]
        exact (Stack.RunOutcome.returned_of_length hcells.length_eq .next [] u.locals u.store).symm
  | @branch depth aim cells below w found arity holds kept =>
    -- The only block around the code is the function, so that a branch out of the code returns.
    cases depth with
    | zero =>
      cases found
      have hlength : cells.length = ctx.type.results.length := arity
      rw [hts, executeAll_of_ending (by rintro ⟨⟩) hrun,
        Stack.RunOutcome.returned_of_length hlength]
      rfl
    | succ depth => cases found
  | @leave cells below w arity =>
    rw [hts, executeAll_of_ending (by rintro ⟨⟩) hrun, Stack.RunOutcome.returned_of_length arity]
    rfl

/-- A function that is built returns what its code returns, fails where that does, and leaves the
same store. -/
theorem exists_code_of_build {m : Module} (hwell : ∀ b ∈ m.bodies, b.WellFormed m.functionCount)
    {index : Nat} {fn : Function} (hbuild : buildFunction m index = .ok fn) :
    ∃ (type : FunctionType) (body : Body) (code : List Code),
      m.functionType? index = some type ∧ m.bodies[index - m.imports.size]? = some body ∧
      Code.ofBody? body = some code ∧
      ∀ {count : Nat} {F : Failure → Prop} {around : Surroundings σ},
        Unwatched (fn.scope m) count F around →
        ∀ {args : List Cell} {store : Store σ}, FitAll args type.params → store.Fits m count →
          fn.run around args store =
            Stack.runCode (around.onStack m) type body.locals code args store := by
  obtain ⟨type, body, code, f, pend, temps, label, htype, hbody, hcode, hmade, hkind, types, hfn⟩ :=
    exists_made_of_build hwell hbuild
  refine ⟨type, body, code, htype, hbody, hcode,
    fun {count F around} ha {args store} hargs hstore => ?_⟩
  have hparams : fn.params = type.params := by rw [hfn]
  have hresults : fn.results = type.results := by rw [hfn]
  have hlocals : fn.locals = body.locals.toList := by rw [hfn]
  have htemps : fn.temps = temps.toList := by rw [hfn]
  have hfinished : fn.body = Build.finishedBody f pend := by rw [hfn]
  let ctx : Context := ⟨m, index, fn.name, type, type.params.toArray ++ body.locals⟩
  have hscope : fn.scope m = ctx.scope temps := by
    rw [Function.scope, hparams, hresults, hlocals, htemps]
    simp [Context.scope, ctx]
  rw [hscope] at ha
  -- The temporaries of the finished function stand for those of every draft on the way to it.
  have hd : (Build.Draft.start type).Sound ctx := .start type rfl
  have hsound := hd.made hmade
  have hof : Draft.Of ctx temps ⟨[⟨f, pend⟩], temps, label⟩ :=
    ⟨hsound, ⟨[], Array.append_empty.symm⟩, hsound.typed.temps⟩
  have hftypes : f.results = type.results :=
    (hsound.typed.layers _ List.mem_cons_self).frame.results hkind
  obtain ⟨ss, hgrown, hsim⟩ := exists_simulates ha hmade (List.cons_ne_nil _ _) hd hof
  have hss : f.body.toList = ss := by
    have hbody : f.body = #[] ++ ss.toArray := (congrArg Frame.body hgrown.frame :)
    rw [hbody]
    exact congrArg Array.toList (Array.empty_append ..)
  have hstart := (Function.proper_of_build hbuild).fits_start (hparams ▸ hargs) hstore
  rw [hscope, hlocals, htemps] at hstart
  have hknown : (Draft.place temps (Build.Draft.start type)).known = Temp.ids .slot temps.toList :=
    List.append_nil _
  have hrun := hsim (fun hdead => Bool.false_ne_true (hdead _ rfl)) _ (hknown ▸ hstart)
  have hdeclared : args.toArray ++ body.locals.map Cell.zero
      = (args ++ body.locals.toList.map Cell.zero).toArray := by simp
  have hreturned :
      fn.run around args store = fn.returned (executeAll around (Build.finishedBody f pend)
      ⟨(args ++ body.locals.toList.map Cell.zero).toArray, (temps.toList.map Temp.initial).toArray,
        store⟩) := by
    rw [← hfinished, ← hlocals, ← htemps]
    rfl
  rw [hreturned, Stack.runCode_eq, hdeclared]
  subst hss
  refine returned_finished ha hof (fun hlive => (types hlive).trans hftypes) hresults
    (fun w hw => ?_) (hrun.mono le_rfl fun w o _ _ hnext => ⟨?_, hnext.2⟩)
  · exact (hof.next hd hgrown ha (hknown ▸ hstart) hw).2
  · refine Bool.eq_false_iff.mpr fun hdead => hnext.1 ?_
    rintro _ ⟨⟩
    exact hdead

end IR

/-! ### Modules -/

/-- The stack machine runs an accepted module as the structured bodies do. -/
theorem Checked.Accepted.bodiesAgree_stack {c : Checked} (h : c.Accepted) (host : Host σ)
    (turns : Nat) :
    (c.machine host turns).BodiesAgree
      (Stack.machine c.module host .script .wrapped c.options.maxPages turns).body := by
  refine h.bodiesAgree_of_runs host turns ?_
  intro count place function f call args hbuild hf ha hargs s hs
  obtain ⟨type, body, code, htype, hbody, hcode, hruns⟩ :=
    IR.exists_code_of_build h.wellFormed.bodies hbuild (σ := σ)
  obtain rfl : type = ⟨f.params, f.results⟩ :=
    Option.some.inj (htype.symm.trans (IR.Function.type_of_build hbuild))
  have hcodes : (c.module.bodies.map Code.ofBody?)[function - c.module.imports.size]?.join
      = some code := by
    rw [Array.getElem?_map, hbody, Option.map_some, Option.join_some, hcode]
  let around : Surroundings σ := ⟨place, call, turns, fun _ _ _ => true⟩
  change (Action.ofOption c.module.bodies[function - c.module.imports.size]? >>= fun b =>
      Action.ofOption (c.module.bodies.map Code.ofBody?)[function - c.module.imports.size]?.join >>=
      fun code => Action.ofOption (c.module.functionType? function) >>= fun type =>
      Stack.runCode (around.onStack c.module) type b.locals code args) s = _
  rw [hbody, hcodes, htype]
  exact (hruns ha hargs hs).symm

/-- A module without findings is accepted, whatever its options. -/
theorem accepted_of_build {bytes : ByteArray} {m : Module} (hdecode : Module.decode bytes = .ok m)
    {r : IR.BuildResult} (hbuild : IR.buildModule m = .ok r) (hnone : r.diagnostics = []) :
    Checked.Accepted ⟨m, r.functions, {}⟩ where
  wellFormed := Module.wellFormed_of_decode hdecode
  pages := by
    change 256 ≤ LinearMemory.maxPages
    decide
  built := IR.builtFrom_buildAll hbuild hnone

/-- How many pages new memories may have does not matter to calls. -/
theorem Machine.invoke_withPages (M : Machine σ) (maxPages depth : Nat) :
    ({ M with maxPages } : Machine σ).invoke depth = M.invoke depth := by
  induction depth with
  | zero => rfl
  | succ depth ih =>
    funext place function args
    unfold invoke
    rw [ih]
    rfl

/-! ### Calls that come to an end -/

/-- A bounded run of a call, by how deep calls may be nested and how often loops may turn. -/
abbrev Bounded (σ : Type) := (depth turns : Nat) → EStateM.Result Failure (Store σ) (List Cell)

/-- Whether a call ends in some way, if calls may be nested and loops may turn as often as they
want. -/
def Bounded.Ends (run : Bounded σ) (outcome : EStateM.Result Failure (Store σ) (List Cell)) :
    Prop :=
  (∀ s, outcome ≠ .error .tooDeep s ∧ outcome ≠ .error .tooLong s) ∧
    ∃ bound, ∀ depth ≥ bound, ∀ turns ≥ bound, run depth turns = outcome

/-! ### Calls of the host -/

/-- The calls that reach a host: which function is called, and with which arguments. -/
abbrev HostCalls := List (Nat × List HostValue)

/-- The same steps beside a list of calls. -/
def HostProgram.beside : HostProgram σ → HostProgram (HostCalls × σ)
  | .finish outcome => .finish outcome
  | .world change next => .world (fun w => (w.1, change w.2)) fun w => (next w.2).beside
  | .memory place operation next => .memory place operation fun result => (next result).beside
  | .call place name args next => .call place name args fun result => (next result).beside

/-- A host that writes down each call before it does what another one does. -/
def Host.logged (host : Host σ) : Host (HostCalls × σ) := fun function args =>
  .world (fun w => (w.1 ++ [(function, args)], w.2)) fun _ => (host function args).beside

/-- A store in which no call has been written down yet. -/
def Store.unlogged (s : Store σ) : Store (HostCalls × σ) := ⟨s.memories, s.instances, ([], s.world)⟩

/-- The calls that a run has written down. -/
def hostCalls {α : Type} (r : EStateM.Result Failure (Store (HostCalls × σ)) α) : HostCalls :=
  (after r).world.1

theorem Checked.Accepted.invoke_eq {c : Checked} (h : c.Accepted) (host : Host σ)
    (maxPages depth turns : Nat) {s : Store σ} (hs : s.Sound c.module) {place function : Nat}
    (hplace : place < s.instances.size) {type : FunctionType}
    (htype : c.module.functionType? function = some type) {args : List Cell}
    (hargs : FitAll args type.params) :
    (IR.machine c.module c.functions.toArray host maxPages turns).invoke depth place function args s
      = (Stack.machine c.module host .script .wrapped maxPages turns).invoke depth place function
        args s := by
  have hagree :=
    Machine.agree_invoke (h.bodiesAgree_stack host turns) depth place hplace function type args
      htype hargs
  have hpages := Machine.invoke_withPages (c.machine host turns) maxPages depth
  have hpages' := Machine.invoke_withPages
    (Stack.machine c.module host .script .wrapped c.options.maxPages turns) maxPages depth
  exact (congrFun (congrFun (congrFun (congrFun hpages place) function) args) s).trans
    ((hagree s hs).1.trans
      (congrFun (congrFun (congrFun (congrFun hpages' place) function) args) s).symm)

/-- The functions that are built of a module without findings do what its instructions do on the
stack machine: a call of one gives the same results or fails in the same way with the same store,
whatever the host does, it comes to an end in a way just if the instructions do, and the same calls
reach the host. -/
theorem built_runs_as_stack_machine {bytes : ByteArray} {m : Module}
    (hdecode : Module.decode bytes = .ok m) {r : IR.BuildResult} (hbuild : IR.buildModule m = .ok r)
    (hnone : r.diagnostics = []) (host : Host σ) (maxPages : Nat) {s : Store σ} (hs : s.Sound m)
    {place function : Nat} (hplace : place < s.instances.size) {type : FunctionType}
    (htype : m.functionType? function = some type) {args : List Cell}
    (hargs : FitAll args type.params) :
    let built {τ : Type} (host : Host τ) (s : Store τ) : Bounded τ := fun depth turns =>
      (IR.machine m r.functions.toArray host maxPages turns).invoke depth place function args s
    let stack {τ : Type} (host : Host τ) (s : Store τ) : Bounded τ := fun depth turns =>
      (Stack.machine m host .script .wrapped maxPages turns).invoke depth place function args s
    (∀ depth turns, built host s depth turns = stack host s depth turns) ∧
      (∀ outcome, (built host s).Ends outcome ↔ (stack host s).Ends outcome) ∧
      ∀ depth turns, hostCalls (built host.logged s.unlogged depth turns)
        = hostCalls (stack host.logged s.unlogged depth turns) := by
  intro built stack
  have haccepted := accepted_of_build hdecode hbuild hnone
  have hsame (depth turns : Nat) : built host s depth turns = stack host s depth turns :=
    haccepted.invoke_eq host maxPages depth turns hs hplace htype hargs
  refine ⟨hsame, fun outcome => ?_, fun depth turns => ?_⟩
  · rw [funext fun depth => funext (hsame depth)]
  · have hlogged : s.unlogged.Sound m := ⟨hs.size, hs.instances, hs.memories⟩
    exact congrArg hostCalls
      (haccepted.invoke_eq host.logged maxPages depth turns hlogged hplace htype hargs)

/-- A module that calls its host in a loop, each time with what the host gave it last, until that is
not less than ten. -/
def climbingBytes : ByteArray :=
  ⟨#[0x00, 0x61, 0x73, 0x6d, 0x01, 0x00, 0x00, 0x00,
     0x01, 0x06, 0x01, 0x60, 0x01, 0x7f, 0x01, 0x7f,
     0x02, 0x07, 0x01, 0x01, 0x68, 0x01, 0x66, 0x00, 0x00,
     0x03, 0x02, 0x01, 0x00,
     0x07, 0x05, 0x01, 0x01, 0x67, 0x00, 0x01,
     0x0a, 0x14, 0x01, 0x12, 0x00,
     0x03, 0x7f, 0x20, 0x00, 0x10, 0x00, 0x22, 0x00, 0x20, 0x00, 0x41, 0x0a, 0x48, 0x0d, 0x00,
       0x0b, 0x0b]⟩

/-- A host that gives five times the number of the calls before. -/
def climbingHost :
    Host Nat := fun _ _ => .world (· + 1) fun calls => .finish (.ok (.ofNat (5 * calls)))

def returnedValues? : EStateM.Result Failure (Store σ) (List Cell) → Option (List Value)
  | .ok cells _ => some (cells.map Cell.toValue)
  | .error .. => none

def HostCalls.integers (calls : HostCalls) : List (List Int) :=
  calls.map fun call => call.2.filterMap fun
    | .number n => n.toInteger?
    | _ => none

/-- A call of the module climbs from nought to five and ten, with the structured body as on the
stack machine. -/
theorem built_runs_as_stack_machine_climbing :
    ∃ (m : Module) (r : IR.BuildResult), Module.decode climbingBytes = .ok m ∧
      IR.buildModule m = .ok r ∧
      r.diagnostics = [] ∧
      let s : Store Nat := { instances := #[⟨#[0], none, #[]⟩], world := 0 }
      let built := IR.machine m r.functions.toArray climbingHost 256 5
      let stack := Stack.machine m climbingHost .script .wrapped 256 5
      let logged := Stack.machine m climbingHost.logged .script .wrapped 256 5
      s.Sound m ∧ m.functionType? 1 = some ⟨[.i32], [.i32]⟩ ∧
        built.invoke 3 0 1 [.plain (.i32 2)] s = stack.invoke 3 0 1 [.plain (.i32 2)] s ∧
        returnedValues? (built.invoke 3 0 1 [.plain (.i32 2)] s) = some [.i32 10] ∧
        (hostCalls (logged.invoke 3 0 1 [.plain (.i32 2)] s.unlogged)).integers =
          [[2], [0], [5]] := by
  let s : Store Nat := { instances := #[⟨#[0], none, #[]⟩], world := 0 }
  have hshape : ((Module.decode climbingBytes).toOption.map fun m =>
      (m.imports.size, m.memory.isSome, m.globals.size, m.functionType? 1))
      = some (1, false, 0, some ⟨[.i32], [.i32]⟩) := by decide +kernel
  have hruns :
      ((Module.decode climbingBytes).toOption.bind fun m => (IR.buildModule m).toOption.map fun r =>
      (r.diagnostics.isEmpty,
        returnedValues?
          ((IR.machine m r.functions.toArray climbingHost 256 5).invoke 3 0 1 [.plain (.i32 2)] s),
        (hostCalls
            ((IR.machine m r.functions.toArray climbingHost.logged 256 5).invoke 3 0 1
            [.plain (.i32 2)]
          s.unlogged)).integers))
      = some (true, some [.i32 10], [[2], [0], [5]]) := by decide +kernel
  cases hdecode : Module.decode climbingBytes with
  | error e =>
    rw [hdecode] at hshape
    cases hshape
  | ok m =>
    simp only [hdecode, Except.toOption, Option.map_some, Option.bind_some, Option.some.injEq,
        Prod.mk.injEq]
      at hshape hruns
    obtain ⟨himports, hmemory, hglobals, htype⟩ := hshape
    cases hbuild : IR.buildModule m with
    | error e =>
      rw [hbuild] at hruns
      cases hruns
    | ok r =>
      simp only [hbuild, Option.map_some, Option.some.injEq, Prod.mk.injEq] at hruns
      obtain ⟨hnone, hreturned, hcalls⟩ := hruns
      have hsound : s.Sound m := by
        refine ⟨rfl, fun i hi => ?_, fun memory hmem => absurd hmem (Array.not_mem_empty memory)⟩
        obtain rfl : i = ⟨#[0], none, #[]⟩ := by simpa [s] using hi
        refine ⟨himports.symm, hmemory.symm, by rintro p ⟨⟩, ?_⟩
        rw [Module.globalTypes, Array.size_eq_zero_iff.mp hglobals, Array.map_empty]
        exact fitEach_iff.mpr ⟨rfl, fun i => i.elim0⟩
      have hargs : FitAll [.plain (.i32 2)] [.i32] := .cons ⟨rfl, by decide⟩ .nil
      obtain ⟨hsame, -, hlogged⟩ :=
        built_runs_as_stack_machine hdecode hbuild (List.isEmpty_iff.mp hnone)
          climbingHost 256 hsound Nat.zero_lt_one htype hargs
      refine ⟨m, r, rfl, hbuild, List.isEmpty_iff.mp hnone, hsound, htype, hsame 3 5, hreturned, ?_⟩
      exact (congrArg HostCalls.integers (hlogged 3 5)).symm.trans hcalls

end WasmScript
