/-
  WasmScript/Proofs/Run/Hosts.lean
  ================================
  **What host functions do to a run** — the failures that may come of calls, and programs of
  a host that are run with two ways of calling exports.

  `Expected` are the failures that a call of an exported function may end with: a trap, a
  bound on calls or on loops, a host value that is no value of a type, and whatever a host
  function raises.  A host function may raise what it was told by a call that it made, so
  `Raised` goes along with it: it follows a program of the host through all the answers that
  it may get.

  A host cannot reach a failure that ends everything by operating on a memory, whatever
  values it passes.
-/
import WasmScript.Proofs.Run.Agreement
import WasmScript.Proofs.Run.Fits

namespace WasmScript

open WasmScript.Action (isFinal)

/-! ### Conversions of host values -/

/-- A result that is no failure which ends everything. -/
def Mild {α : Type} (r : Except Failure α) : Prop := ∀ e, r = .error e → isFinal e = false

namespace Mild

variable {α β : Type} {r : Except Failure α} {k : α → Except Failure β}

theorem ok (a : α) : Mild (.ok a) := by rintro e ⟨⟩

theorem error {e : Failure} (h : isFinal e = false) : Mild (.error e : Except Failure α) := by
  rintro _ ⟨⟩
  exact h

theorem bind (hr : Mild r) (hk : ∀ a, Mild (k a)) : Mild (r >>= k) := by
  intro e he
  cases r with
  | ok a => exact hk a e he
  | error e' =>
    cases he
    exact hr _ rfl

theorem map (f : α → β) (hr : Mild r) : Mild (f <$> r) := by
  rw [map_eq_pure_bind]
  exact hr.bind fun a => ok _

theorem mapError_type (r : Except TypeCause α) : Mild (r.mapError .type) := by
  cases r with
  | ok a => exact ok a
  | error e => exact error rfl

end Mild

namespace HostValue

theorem mild_ofReply (r : Reply HostValue) : Mild (Failure.ofReply r) := by
  cases r with
  | returns v => exact .ok v
  | traps kind =>
    refine .error ?_
    unfold Failure.ofTrap
    split
    · cases TrapKind.ofName? _ <;> rfl
    · rfl
  | _ => exact .error rfl

theorem mild_simplified (fields : List (String × HostValue)) (names : List String) :
    Mild (simplified fields names) := by
  induction names with
  | nil => exact .error rfl
  | cons name names ih =>
    unfold simplified
    split
    · refine (mild_ofReply _).bind fun v => ?_
      split
      · exact ih
      · exact .ok _
    · exact ih
    · split
      · exact .ok _
      · exact ih

mutual
theorem mild_toText (v : HostValue) : Mild v.toText := by
  cases v with
  | array items =>
    unfold toText
    exact (mild_toItemTexts items).bind fun _ => .ok _
  | record fields =>
    unfold toText
    exact (mild_simplified fields _).map _
  | _ =>
    unfold toText
    exact .ok _

theorem mild_toItemTexts (items : List HostValue) : Mild (toItemTexts items) := by
  cases items with
  | nil =>
    unfold toItemTexts
    exact .ok _
  | cons item rest =>
    unfold toItemTexts
    have hrest (first : String) : Mild (do
        let texts ← toItemTexts rest
        pure (first :: texts)) := (mild_toItemTexts rest).bind fun _ => .ok _
    dsimp only
    split
    · exact (Mild.ok _).bind hrest
    · exact (Mild.ok _).bind hrest
    · exact (mild_toText item).bind hrest
end

theorem mild_primitive (v : HostValue) : Mild v.primitive := by
  unfold primitive
  split
  · exact mild_simplified _ _
  · split
    · exact (mild_toText v).map _
    · exact .ok _

theorem mild_toScalar (v : HostValue) : Mild v.toScalar := by
  refine (mild_primitive v).bind fun p => ?_
  split <;> exact .ok _

theorem mild_toNumber (v : HostValue) : Mild v.toNumber := by
  refine (mild_toScalar v).bind fun s => ?_
  split
  · exact .ok _
  · exact .error rfl

theorem mild_toOperand (v : HostValue) : Mild v.toOperand := by
  refine (mild_toScalar v).bind fun s => ?_
  split
  · exact .ok _
  · exact .error rfl

theorem mild_toBigInt (v : HostValue) : Mild v.toBigInt := by
  refine (mild_primitive v).bind fun p => ?_
  split
  · exact .ok _
  · exact .ok _
  · split
    · exact .ok _
    · exact .error rfl
  · exact .error rfl

theorem mild_plus (a b : HostValue) : Mild (a.plus b) := by
  refine (mild_primitive a).bind fun p => (mild_primitive b).bind fun q => ?_
  split
  · exact .ok _
  · exact .ok _
  · refine (mild_toScalar p).bind fun x => (mild_toScalar q).bind fun y => ?_
    split
    · exact .ok _
    · exact .ok _
    · exact .error rfl

end HostValue

namespace MemoryCall

variable {α β : Type}

/-- An operation on a memory that cannot end everything. -/
def MildAct (act : Act α) : Prop :=
  Agree (fun _ => True) act act (fun _ _ => True) fun e _ => isFinal e = false

theorem MildAct.bind {act : Act α} {k : α → Act β} (h : MildAct act) (hk : ∀ a, MildAct (k a)) :
    MildAct (act >>= k) := Agree.bind h hk

theorem MildAct.pure (a : α) : MildAct (pure a : Act α) := Agree.pure fun _ _ => trivial

theorem MildAct.throw {e : Failure} (h : isFinal e = false) : MildAct (throw e : Act α) :=
  Agree.throw fun _ _ => h

theorem mild_get : MildAct (get : Act LinearMemory) := fun _ _ => ⟨rfl, trivial⟩

theorem mild_lift (op : LinearMemory.Op α) : MildAct (lift op) := by
  intro m _
  refine ⟨rfl, ?_⟩
  unfold lift
  cases op m with
  | ok a m' => trivial
  | error kind m' => exact rfl

theorem mild_accept {r : Except Failure α} (h : Mild r) : MildAct (accept r) := by
  cases r with
  | ok a => exact .pure a
  | error e => exact .throw (h e rfl)

theorem mild_toAddress (v : HostValue) : MildAct (toAddress v) := by
  unfold toAddress
  split
  · exact .pure _
  · exact mild_lift _

theorem mild_toEnd (address : Nat) (length : HostValue) : MildAct (toEnd address length) := by
  refine (mild_accept (HostValue.mild_plus _ _)).bind fun sum => ?_
  refine (mild_accept (HostValue.mild_toNumber _)).bind fun stop => mild_get.bind fun m => ?_
  dsimp only
  split
  · exact (mild_lift _).bind fun _ => by split <;> exact .pure _
  · split <;> exact .pure _

theorem mild_toLength (address : Nat) (length : HostValue) : MildAct (toLength address length) :=
  (mild_toEnd address length).bind fun _ => .pure _

theorem mild_stored (a : Accessor) (v : HostValue) : MildAct (stored a v) := by
  unfold stored
  split
  · exact (mild_accept (HostValue.mild_toNumber v)).bind fun _ => .pure _
  · exact mild_accept (HostValue.mild_toBigInt v)

theorem mild_writeItems (data : HostValue) (address count : Nat) :
    ∀ index, MildAct (writeItems data address count index) := by
  induction count with
  | zero => exact fun index => .pure _
  | succ count ih =>
    intro index
    refine (mild_accept (Mild.mapError_type _)).bind fun item => ?_
    refine (mild_accept ((HostValue.mild_toNumber item).map _)).bind fun byte => ?_
    exact (mild_lift _).bind fun _ => ih (index + 1)

theorem mild_writeAll (address : Nat) (data length : HostValue) :
    MildAct (writeAll address data length) := by
  unfold writeAll
  split
  · exact mild_lift _
  · refine (mild_accept (HostValue.mild_toNumber length)).bind fun n => ?_
    split
    · exact .throw rfl
    · refine mild_get.bind fun m => ?_
      split
      · exact MildAct.bind (.throw rfl) fun _ => mild_writeItems _ _ _ _
      · exact mild_writeItems _ _ _ _

theorem mild_perform (call : MemoryCall) : MildAct call.perform := by
  cases call with
  | pages => exact mild_get.bind fun _ => .pure _
  | size => exact mild_get.bind fun _ => .pure _
  | maximum => exact mild_get.bind fun _ => .pure _
  | grow delta =>
    refine (mild_accept (HostValue.mild_toOperand delta)).bind fun _ =>
      (mild_lift _).bind fun _ => ?_
    exact mild_get.bind fun _ => .pure _
  | load a address =>
    exact (mild_toAddress address).bind fun _ => (mild_lift _).bind fun _ => .pure _
  | store a address value =>
    refine (mild_toAddress address).bind fun _ => (mild_lift _).bind fun _ => ?_
    exact (mild_stored a value).bind fun _ => (mild_lift _).bind fun _ => .pure _
  -- The ranges are checked in the order in which the memory takes its arguments.
  | copy destination source length =>
    refine (mild_toAddress destination).bind fun _ => (mild_toEnd _ length).bind fun _ => ?_
    refine (mild_toAddress source).bind fun _ => (mild_toLength _ length).bind fun _ => ?_
    exact (mild_lift _).bind fun _ => .pure _
  | fill destination value length =>
    refine (mild_toAddress destination).bind fun _ => (mild_toLength _ length).bind fun _ => ?_
    exact (mild_accept (HostValue.mild_toOperand value)).bind fun _ =>
      (mild_lift _).bind fun _ => .pure _
  | write address data =>
    refine (mild_accept (Mild.mapError_type _)).bind fun _ =>
      (mild_toAddress address).bind fun _ => ?_
    exact (mild_toEnd _ _).bind fun _ => (mild_writeAll _ data _).bind fun _ => .pure _
  | read address length =>
    refine (mild_toAddress address).bind fun _ => (mild_toLength _ length).bind fun _ => ?_
    exact (mild_lift _).bind fun _ => .pure _

/-- What a host may be told about an operation on a memory, of which there may be none. -/
inductive Answers (call : MemoryCall) : Except Failure HostValue → Prop
  | returned {v : HostValue} {before after : LinearMemory}
      (performed : call.perform before = .ok v after) : Answers call (.ok v)
  | failed {e : Failure} {before after : LinearMemory}
      (performed : call.perform before = .error e after) : Answers call (.error e)
  | missing : Answers call (.error .noMemory)

end MemoryCall

/-! ### Failures of calls -/

mutual
/-- The failures that a call of an exported function may end with. -/
inductive Expected {σ : Type} (host : Host σ) : Failure → Prop
  | trap (kind : TrapKind) : Expected host (.trap kind)
  /-- The call stack is exhausted. -/
  | tooDeep : Expected host .tooDeep
  /-- A loop makes more turns than a run is given. -/
  | tooLong : Expected host .tooLong
  /-- A host value is no value of a type. -/
  | coerced {type : ValueType} {v : HostValue} {e : Failure}
      (fails : Boundary.coerced type v = .error e) : Expected host e
  /-- A host value does not hold the results of a function. -/
  | items {module field : String} {count : Nat} {v : HostValue} {e : Failure}
      (fails : Boundary.arrayItems module field count v = .error e) : Expected host e
  /-- A host function raises a failure. -/
  | raised {function : Nat} {args : List HostValue} {e : Failure}
      (raises : Raised host (host function args) e) : Expected host e

/-- The failures that a program of a host may raise, whatever it is told. -/
inductive Raised {σ : Type} (host : Host σ) : HostProgram σ → Failure → Prop
  | finish {e : Failure} : Raised host (.finish (.error e)) e
  | world {change : σ → σ} {next : σ → HostProgram σ} {before : σ} {e : Failure}
      (raises : Raised host (next before) e) : Raised host (.world change next) e
  | memory {place : Nat} {call : MemoryCall} {next : Except Failure HostValue → HostProgram σ}
      {answer : Except Failure HostValue} {e : Failure} (answers : call.Answers answer)
      (raises : Raised host (next answer) e) : Raised host (.memory place call next) e
  | returned {place : Nat} {name : String} {args : List HostValue}
      {next : Except Failure HostValue → HostProgram σ} {v : HostValue} {e : Failure}
      (raises : Raised host (next (.ok v)) e) : Raised host (.call place name args next) e
  | failed {place : Nat} {name : String} {args : List HostValue}
      {next : Except Failure HostValue → HostProgram σ} {cause e : Failure}
      (expected : Expected host cause) (seen : Action.isFinal cause = false)
      (raises : Raised host (next (.error cause)) e) : Raised host (.call place name args next) e
  | missing {place : Nat} {name : String} {args : List HostValue}
      {next : Except Failure HostValue → HostProgram σ} {cause e : Failure}
      (missing : cause = .noInstance ∨ cause = .noFunction)
      (raises : Raised host (next (.error cause)) e) : Raised host (.call place name args next) e
end

variable {σ : Type} {host : Host σ} {m : Module} {count : Nat}

/-- A store that fits, after a failure that a call may end with. -/
def CallFails (host : Host σ) (m : Module) (count : Nat) (e : Failure) (s : Store σ) : Prop :=
  Expected host e ∧ s.Fits m count

/-- As `CallFails`, where the export that is called may not exist. -/
def ExportFails (host : Host σ) (m : Module) (count : Nat) (e : Failure) (s : Store σ) : Prop :=
  (Expected host e ∨ e = .noInstance ∨ e = .noFunction) ∧ s.Fits m count

namespace Action

variable {α : Type} {P : Store σ → Prop} {Q : α → Store σ → Prop} {E : Failure → Store σ → Prop}

/-- What is attempted fails only by a failure that ends everything, and else tells its failure. -/
theorem agree_attempt {a a' : Action σ α} (h : Agree P a a' Q E) :
    Agree P (attempt a) (attempt a')
      (fun r s => match r with
        | .ok x => Q x s
        | .error e => isFinal e = false ∧ E e s)
      (fun e s => isFinal e = true ∧ E e s) := by
  intro s hs
  obtain ⟨hsame, hmeets⟩ := h s hs
  change EStateM.bind (outcome a) _ s = EStateM.bind (outcome a') _ s
    ∧ Meets _ _ (EStateM.bind (outcome a') _ s)
  unfold EStateM.bind outcome
  rw [hsame]
  refine ⟨rfl, ?_⟩
  cases ha : a' s with
  | ok x s' =>
    rw [ha] at hmeets
    exact hmeets
  | error e s' =>
    rw [ha] at hmeets
    dsimp only
    cases hfinal : isFinal e with
    | true => exact ⟨hfinal, hmeets⟩
    | false => exact ⟨hfinal, hmeets⟩

/-- A host operates on a memory that there is. -/
theorem memoryCall_eq {s : Store σ} {place : Nat} {memory : LinearMemory}
    (hmemory : s.memories[place]? = some memory) (call : MemoryCall) :
    (do requireMemory place; onMemory place call.perform : Action σ HostValue) s =
      match call.perform memory with
      | .ok v memory => .ok v { s with memories := s.memories.setIfInBounds place memory }
      | .error e memory =>
        .error e { s with memories := s.memories.setIfInBounds place memory } := by
  change EStateM.bind (requireMemory place) _ s = _
  rw [EStateM.bind, requireMemory_eq (Array.getElem?_eq_some_iff.mp hmemory).1]
  dsimp only
  rw [onMemory_eq hmemory]
  cases call.perform memory <;> rfl

theorem memoryCall_missing {s : Store σ} {place : Nat} (hplace : s.memories.size ≤ place)
    (call : MemoryCall) :
    (do requireMemory place; onMemory place call.perform : Action σ HostValue) s =
      .error .noMemory s := by
  change EStateM.bind (requireMemory place) _ s = _
  rw [EStateM.bind, requireMemory_fails hplace]

/-- A host operates on a memory that there may not be. -/
theorem agree_memoryCall (place : Nat) (call : MemoryCall) :
    Agree (Store.Fits (σ := σ) m count) (do requireMemory place; onMemory place call.perform)
      (do requireMemory place; onMemory place call.perform)
      (fun v s => call.Answers (.ok v) ∧ s.Fits m count)
      (fun e s => (isFinal e = false ∧ call.Answers (.error e)) ∧ s.Fits m count) := by
  intro s hs
  refine ⟨rfl, ?_⟩
  by_cases hplace : s.memories.size ≤ place
  · rw [memoryCall_missing hplace]
    exact ⟨⟨rfl, .missing⟩, hs⟩
  · have hlt : place < s.memories.size := Nat.lt_of_not_le hplace
    have hmem := hs.memories _ (Array.getElem_mem hlt)
    have hafter := Keeps.fits (fun _ => MemoryCall.keeps_perform call) s.memories[place] hmem
    obtain ⟨-, hmild⟩ := MemoryCall.mild_perform call s.memories[place] trivial
    rw [memoryCall_eq (Array.getElem?_eq_getElem hlt)]
    cases hperform : call.perform s.memories[place] with
    | ok v memory =>
      rw [hperform] at hafter
      exact ⟨.returned hperform, hs.setMemory hafter⟩
    | error e memory =>
      rw [hperform] at hafter hmild
      exact ⟨⟨hmild, .failed hperform⟩, hs.setMemory hafter⟩

/-- A program of a host does the same with two ways of calling exports that have the same
outcomes. -/
theorem agree_runHost {exports exports' : Exports σ}
    (h : ∀ place name args,
      Agree (Store.Fits m count) (exports place name args) (exports' place name args)
      (fun _ s => s.Fits m count) (ExportFails host m count))
    (p : HostProgram σ) (hp : ∀ e, Raised host p e → Expected host e) :
    Agree (Store.Fits m count) (runHost exports p) (runHost exports' p) (fun _ s => s.Fits m count)
      (CallFails host m count) := by
  -- The induction is on the program of the host, which goes on with each answer that it gets.
  induction p with
  | finish outcome =>
    cases outcome with
    | ok v => exact Agree.pure fun s hs => hs
    | error e => exact Agree.throw fun s hs => ⟨hp e .finish, hs⟩
  | world change next ih =>
    have hchange : Agree (Store.Fits (σ := σ) m count) (changeWorld change) (changeWorld change)
        (fun _ s => s.Fits m count) (CallFails host m count) := fun s hs => ⟨rfl, hs.world _⟩
    exact hchange.bind fun before => ih before fun e he => hp e (.world he)
  | memory place call next ih =>
    refine Agree.bind (Q := fun r s => call.Answers r ∧ s.Fits m count)
      ((agree_attempt (agree_memoryCall place call)).mono (fun _ h => h) ?_ ?_) fun r =>
        Agree.of_fact fun hr => ?_
    · intro r s hr
      cases r with
      | ok v => exact hr
      | error e => exact ⟨hr.2.1.2, hr.2.2⟩
    · rintro e s ⟨hfinal, ⟨hmild, -⟩, -⟩
      cases hfinal.symm.trans hmild
    · exact ih r fun e he => hp e (.memory hr he)
  | call place name args next ih =>
    refine Agree.bind (Q := fun r s => (∀ cause, r = .error cause → isFinal cause = false ∧
      (Expected host cause ∨ cause = .noInstance ∨ cause = .noFunction)) ∧ s.Fits m count)
      ((agree_attempt (h place name args)).mono (fun _ h => h) ?_ ?_) fun r =>
        Agree.of_fact fun hr => ?_
    · intro r s hr
      cases r with
      | ok v => exact ⟨by rintro cause ⟨⟩, hr⟩
      | error e =>
        refine ⟨?_, hr.2.2⟩
        rintro _ ⟨⟩
        exact ⟨hr.1, hr.2.1⟩
    · rintro e s ⟨hfinal, hcause | rfl | rfl, hs⟩
      · exact ⟨hcause, hs⟩
      · cases hfinal
      · cases hfinal
    · refine ih r fun e he => hp e ?_
      cases r with
      | ok v => exact .returned he
      | error cause =>
        obtain ⟨hseen, hcause | hcause⟩ := hr cause rfl
        · exact .failed hcause hseen he
        · exact .missing hcause he

end Action

end WasmScript
