/-
  WasmScript/Proofs/Run/Arrivals.lean
  ===================================
  **Where two runs arrive** — how a structured body and the stack machine end alike.

  A statement that ends in a branch has written the slots of its target, where the machine
  has the same values on top of its stack.  `Arrives` says so for each way to end, and leaves
  open what holds where both go on.  Temporaries from before a piece of code are as they were
  when it ends, but for the slots of the block that it branches to.
-/
import WasmScript.Proofs.Run.Operands
import WasmScript.Proofs.IR.PlacedStatements

namespace WasmScript

open IR (Variables Expression Statement Scope SurroundingsAgree Frame FrameKind Role)
open IR.Expression (usesAll usesAll_subset)
open IR.Run
open Stack (RunOutcome outcome runOver)

variable {σ : Type}

/-- The machine that calls as a structured body does. -/
def IR.Surroundings.onStack (around : IR.Surroundings σ) (m : Module) : Stack.Surroundings σ :=
  ⟨m, around.place, around.call, .wrapped, around.turns⟩

/-! ### Targets of branches -/

/-- What a branch to an open block has to know of it. -/
structure Aim where
  kind : FrameKind
  label : Int
  slots : List Nat
  arity : Nat

/-- What a branch has to know of an open block. -/
def IR.Frame.aim (f : Frame) : Aim where
  kind := f.kind
  label := f.label
  slots := match f.kind with
    | .function => []
    | .loop => f.paramSlots
    | _ => f.resultSlots
  arity := f.labelTypes.length

/-- How a statement ends that branches to a block with some values. -/
def Aim.ending (aim : Aim) (cells : List Cell) : IR.Ending :=
  match aim.kind with
  | .function => .leave cells
  | .loop => .restart aim.label
  | _ => .exit aim.label

/-- Whether some temporaries hold certain values, one by one. -/
def Holds (v : Variables σ) (ids : List Nat) (cells : List Cell) : Prop :=
  List.Forall₂ (fun id c => v.temps[id]? = some (some c)) ids cells

/-- Whether temporaries numbered below some one are as before, but for certain ones. -/
def Kept (first : Nat) (ids : List Nat) (v w : Variables σ) : Prop :=
  ∀ id < first, id ∉ ids → w.temps[id]? = v.temps[id]?

namespace Kept

variable {first : Nat} {ids : List Nat} {u v w : Variables σ}

theorem of_temps (h : w.temps = v.temps) : Kept first ids v w := fun id _ _ => by rw [h]

theorem trans (h : Kept first [] u v) (h' : Kept first ids v w) : Kept first ids u w :=
  fun id hid hne =>
    (h' id hid hne).trans (h id hid List.not_mem_nil)

theorem below {next : Nat} (h : Kept next ids v w) (hle : first ≤ next) : Kept first ids v w :=
  fun id hid hne => h id (hid.trans_le hle) hne

end Kept

/-! ### Arrivals -/

/-- How a statement and a piece of code on the stack machine end alike.  `aims` are the blocks that
they may branch to. -/
inductive Arrives (aims : Nat → Option Aim) (results first : Nat)
    (Next : Variables σ → RunOutcome σ Stack.Ending → Prop) (v : Variables σ) :
    EStateM.Result Failure (Variables σ) IR.Ending → RunOutcome σ Stack.Ending → Prop
  | failed {e : Failure} {w : Variables σ} :
  Arrives aims results first Next v (.error e w) (.error (e, w.store))
  | next {w : Variables σ} {o : RunOutcome σ Stack.Ending} (kept : Kept first [] v w)
      (next : Next w o) :
      Arrives aims results first Next v (.ok .next w) o
  | branch {depth : Nat} {aim : Aim} {cells below : List Cell} {w : Variables σ}
      (found : aims depth = some aim) (arity : cells.length = aim.arity)
      (holds : aim.kind ≠ .function → Holds w aim.slots cells) (kept : Kept first aim.slots v w) :
      Arrives aims results first Next v (.ok (aim.ending cells) w)
        (.ok (.branch depth, ⟨cells.reverse ++ below, w.locals, w.store⟩))
  | leave {cells below : List Cell} {w : Variables σ} (arity : cells.length = results) :
      Arrives aims results first Next v (.ok (.leave cells) w)
        (.ok (.leave, ⟨cells.reverse ++ below, w.locals, w.store⟩))

namespace Arrives

variable {aims : Nat → Option Aim} {results first : Nat}
    {Next Next' : Variables σ → RunOutcome σ Stack.Ending → Prop}
variable {u v : Variables σ} {r : EStateM.Result Failure (Variables σ) IR.Ending}
    {o : RunOutcome σ Stack.Ending}

/-- What was there earlier matters only by what is kept. -/
theorem since (h : Arrives aims results first Next v r o) (hkept : Kept first [] u v) :
    Arrives aims results first Next u r o := by
  cases h with
  | failed => exact .failed
  | next kept next => exact .next (hkept.trans kept) next
  | branch found arity holds kept => exact .branch found arity holds (hkept.trans kept)
  | leave arity => exact .leave arity

theorem mono (h : Arrives aims results first Next v r o) {before : Nat} (hle : before ≤ first)
    (hnext : ∀ w o, r = .ok .next w → Kept first [] v w → Next w o → Next' w o) :
    Arrives aims results before Next' v r o := by
  cases h with
  | failed => exact .failed
  | next kept next => exact .next (kept.below hle) (hnext _ _ rfl kept next)
  | branch found arity holds kept => exact .branch found arity holds (kept.below hle)
  | leave arity => exact .leave arity

end Arrives

/-! ### Writing temporaries -/

namespace IR.Run

variable {around : IR.Surroundings σ}

/-- Temporaries that are there may be written at once. -/
theorem exists_setTemps {ids : List Nat} {cells : List Cell} (hlength : ids.length = cells.length)
    (hnodup : ids.Nodup) : ∀ {v : Variables σ}, (∀ id ∈ ids, id < v.temps.size) →
      ∃ w, setTemps ids cells v = .ok () w ∧ w.locals = v.locals ∧ w.store = v.store ∧
        Holds w ids cells
        ∧ ∀ id ∉ ids, w.temps[id]? = v.temps[id]? := by
  induction ids generalizing cells with
  | nil =>
    intro v _
    obtain rfl := List.length_eq_zero_iff.mp hlength.symm
    exact ⟨v, rfl, rfl, rfl, .nil, fun _ _ => rfl⟩
  | cons id ids ih =>
    intro v hsize
    cases cells with
    | nil => cases hlength
    | cons c cells =>
      obtain ⟨hid, hids⟩ := List.forall_mem_cons.mp hsize
      obtain ⟨hnot, hnodup⟩ := List.nodup_cons.mp hnodup
      have hone :
          setTemp id c v = .ok () { v with temps := v.temps.setIfInBounds id (some c) } := by
        unfold setTemp
        dsimp only
        rw [if_pos hid]
      obtain ⟨w, hw, hlocals, hstore, hholds, hkept⟩ := ih (Nat.succ.inj hlength) hnodup
        (v := { v with temps := v.temps.setIfInBounds id (some c) }) fun i hi => by
          rw [Array.size_setIfInBounds]
          exact hids i hi
      refine ⟨w, (bind_at_ok hone).trans hw, hlocals, hstore, .cons ?_ hholds, fun i hi => ?_⟩
      -- The slots differ, so this one is not written again.
      · rw [hkept id hnot]
        exact Array.getElem?_setIfInBounds_self_of_lt hid
      · obtain ⟨hne, hi⟩ := not_or.mp (List.mem_cons.not.mp hi)
        rw [hkept i hi]
        exact Array.getElem?_setIfInBounds_ne (Ne.symm hne)

/-- Slots that hold values give them. -/
theorem held_refs (hwatch : ∀ e c v, around.watch e c v = true) {ids : List Nat} {cells : List Cell}
    {v : Variables σ} (h : Holds v ids cells) {types : List ValueType}
    (hlength : ids.length = types.length) :
    Held around (IR.Build.refs ids types) cells v := by
  induction h generalizing types with
  | nil => exact .nil
  | @cons id c ids cells hc _ ih =>
    cases types with
    | nil => cases hlength
    | cons type types =>
      refine .cons ?_ (ih (Nat.succ.inj hlength))
      rw [evaluate, watched_eq hwatch]
      change (present v.temps[id]?.join : Run σ Cell) v = .ok c v
      rw [hc]
      rfl

end IR.Run

/-! ### Operands that are bound or dropped first -/

section Pending

variable {around : IR.Surroundings σ} {Γ : IR.Scope} {count : Nat} {known : List Nat}
    {F : Failure → Prop}
variable {aims : Nat → Option Aim} {results first : Nat}
    {Next : Variables σ → RunOutcome σ Stack.Ending → Prop}
variable {rest es : List Expression} {below : List Cell} {run : Stack.Run σ Stack.Ending}
    {v : Variables σ}
variable {ss : List Statement}

/-- What comes after operands that are bound goes on with their values. -/
theorem arrives_settled (ha : Unwatched Γ count F around)
    (hpend : Pending Γ known first (rest ++ es))
    (hss : ∀ s ∈ (IR.Build.settling first rest).statements, s.Typed Γ) (hv : v.Fits Γ count known)
    (h : ∀ cells w, executeAll around (IR.Build.settling first rest).statements v = .ok .next w →
      w.Fits Γ count known → Held around (IR.Build.settling first rest).operands cells w →
      Arrives aims results first Next w (executeAll around ss w)
        (runOver around (cells.reverse ++ below) es run w)) :
    Arrives aims results first Next v
      (executeAll around ((IR.Build.settling first rest).statements ++ ss) v)
      (runOver around below (rest ++ es) run v) := by
  have hsettles := settles ha hpend.left hss hv
  cases heval : evaluateAll around rest v with
  | error e v' =>
    rw [heval] at hsettles
    -- The statements that bind the operands fail where the operands do.
    obtain ⟨w, hw, hstore⟩ := hsettles
    rw [executeAll_of_error hw, Stack.runOver_append_of_error heval, ← hstore]
    exact .failed
  | ok cells v' =>
    rw [heval] at hsettles
    obtain ⟨w, hw, hsettled, hfits⟩ := hsettles
    -- Evaluating binds nothing, so only the new temporaries differ afterwards.
    have htemps := (dependsOn_evaluateAll ha.silent rest).temps_eq heval
    rw [executeAll_of_next hw,
      Stack.runOver_append_of_ok heval, ← Stack.runOver_congr ha.silent hsettled.locals
      hsettled.store fun id hid => hsettled.temps id (hpend.right.low id hid)]
    refine (h cells w hw hfits hsettled.held).since fun id hid _ => ?_
    rw [hsettled.temps id hid, htemps]

/-- What comes after operands that are dropped goes on without them. -/
theorem arrives_effects (ha : Unwatched Γ count F around) (hpend : Pending Γ known first rest)
    (hv : v.Fits Γ count known)
    (h : ∀ (cells : List Cell) w, w.Fits Γ count known →
      Arrives aims results first Next w (executeAll around ss w)
        (runOver around (cells.reverse ++ below) es run w)) :
    Arrives aims results first Next v (executeAll around (IR.Build.effects rest ++ ss) v)
      (runOver around below (rest ++ es) run v) := by
  rw [executeAll_effects ha hpend ss hv]
  cases heval : evaluateAll around rest v with
  | error e v' =>
    rw [bind_at_error heval, Stack.runOver_append_of_error heval]
    exact .failed
  | ok cells v' =>
    rw [bind_at_ok heval, Stack.runOver_append_of_ok heval]
    have hfits := (fits_of_ok ha hpend.typed hpend.uses hv heval).2
    exact (h cells v' hfits).since
      (.of_temps ((dependsOn_evaluateAll ha.silent rest).temps_eq heval))

/-- What branches do, in terms of their targets. -/
theorem takeBranch_eq (f : Frame) (depth : Nat) :
    takeBranch around (IR.Build.branchTo depth f es) = (do
      let cells ← evaluateAll around es
      if f.kind = .function then pure () else setTemps f.aim.slots cells
      pure (f.aim.ending cells)) := by
  unfold takeBranch IR.Build.branchTo IR.Frame.aim Aim.ending
  cases f.kind <;> simp

/-- Branches to a block in which all parts fit together find its slots. -/
theorem length_slots {f : Frame} (hf : f.Typed Γ) (hkind : f.kind ≠ .function) :
    f.aim.slots.length = f.aim.arity ∧ ∀ id ∈ f.aim.slots, id < Γ.temps.size := by
  have hdeclares {ids : List Nat} {types : List ValueType} (h : Γ.Declares .slot ids types) :
      ids.length = types.length ∧ ∀ id ∈ ids, id < Γ.temps.size := ⟨h.length_eq, h.lt_size⟩
  unfold IR.Frame.aim IR.Frame.labelTypes
  cases hk : f.kind with
  | function => exact (hkind hk).elim
  | loop => exact hdeclares (hf.paramSlots hk)
  | block | conditional => exact hdeclares (hf.resultSlots hkind)

/-- A branch carries values that are found to where it goes. -/
theorem arrives_takeBranch_of_ok {f : Frame} (hf : f.Typed Γ) (hnodup : f.aim.slots.Nodup)
    {cells : List Cell} (harity : cells.length = f.aim.arity) {depth : Nat}
    (found : aims depth = some f.aim) {w : Variables σ}
    (heval : evaluateAll around es v = .ok cells w) (htemps : w.temps = v.temps)
    (hsize : w.temps.size = Γ.temps.size) :
    Arrives aims results first Next v (takeBranch around (IR.Build.branchTo depth f es) v)
      (.ok (.branch depth, ⟨cells.reverse ++ below, w.locals, w.store⟩)) := by
  rw [takeBranch_eq, bind_at_ok heval]
  by_cases hkind : f.kind = .function
  · rw [if_pos hkind]
    exact .branch found harity (fun hne => (hne hkind).elim) (.of_temps htemps)
  · rw [if_neg hkind]
    obtain ⟨hlength, hslots⟩ := length_slots hf hkind
    obtain ⟨w', hset, hlocals, hstore, hholds, hkept⟩ :=
      exists_setTemps (hlength.trans harity.symm) hnodup (v := w) fun id hid =>
        hsize ▸ hslots id hid
    rw [bind_at_ok hset, ← hlocals, ← hstore]
    refine .branch found harity (fun _ => hholds) fun id _ hne => ?_
    rw [hkept id hne, htemps]

/-- A branch carries its values to where it goes. -/
theorem arrives_takeBranch (ha : Unwatched Γ count F around) (hpend : Pending Γ known first es)
    (hv : v.Fits Γ count known) {f : Frame} {depth : Nat} (hf : f.Typed Γ)
    (hnodup : f.aim.slots.Nodup) (htypes : f.labelTypes = es.map Expression.type)
    (found : aims depth = some f.aim) :
    Arrives aims results first Next v (takeBranch around (IR.Build.branchTo depth f es) v)
      (runOver around below es (pure (.branch depth)) v) := by
  cases heval : evaluateAll around es v with
  | error e w =>
    rw [takeBranch_eq, bind_at_error heval, Stack.runOver_of_error heval]
    exact .failed
  | ok cells w =>
    obtain ⟨hcells, hw⟩ := fits_of_ok ha hpend.typed hpend.uses hv heval
    have harity : cells.length = f.aim.arity := by
      rw [hcells.length_eq, ← htypes]
      rfl
    rw [Stack.runOver_of_ok heval]
    exact arrives_takeBranch_of_ok hf hnodup harity found heval
      ((dependsOn_evaluateAll ha.silent es).temps_eq heval) hw.size

end Pending

end WasmScript
