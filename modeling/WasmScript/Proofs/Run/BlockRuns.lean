/-
  WasmScript/Proofs/Run/BlockRuns.lean
  ====================================
  **Blocks, loops and choices** — what their runs make of the runs of their bodies.

  The body of a block writes its results to slots, where the machine leaves them on the stack
  of the block; so does a branch to the block, which the end of the block stops.  What a body
  binds is forgotten, but slots are not, and neither is anything from before the body.  A loop
  starts its body again with parameters in slots of their own, as often as the machine does.
-/
import WasmScript.Proofs.Run.StraightSteps

namespace WasmScript

open IR (Variables Surroundings Expression Statement Frame Fresh)
open IR.Run
open Stack (RunOutcome outcome runOver)

variable {σ : Type}

/-! ### The stack machine -/

namespace Stack.Run

/-- What the end of a block does, and so does a branch to the block. -/
def close (arity : Nat) (below : List Cell) : Ending → Run σ Ending
  | .next | .branch 0 => do
    let results ← popMany arity
    let _ ← exchange (results.reverse ++ below)
    pure .next
  | .branch (depth + 1) => pure (.branch depth)
  | .leave => pure .leave

/-- A block takes its parameters from the stack, and starts with them on a stack of its own. -/
theorem enclose_eq {type : BlockType} {args : List Cell} (h : args.length = type.params.length)
    (body : Run σ Ending) (below : List Cell) (locals : Array Cell) (store : Store σ) :
    outcome (enclose type body ⟨args.reverse ++ below, locals, store⟩)
      = (outcome (body ⟨args.reverse, locals, store⟩)).bind (close type.results.length below) := by
  unfold enclose
  rw [bind_at_ok (popMany_of_length h below locals store), ← outcome_bind]
  change outcome ((body >>= fun ending => _) ⟨args.reverse, locals, store⟩) = _
  congr 3

theorem close_next {cells : List Cell} {arity : Nat} (h : cells.length = arity)
    (below rest : List Cell) (locals : Array Cell) (store : Store σ) :
    outcome (close arity below .next ⟨cells.reverse ++ rest, locals, store⟩)
      = .ok (.next, ⟨cells.reverse ++ below, locals, store⟩) := by
  change outcome ((popMany arity >>= fun results => exchange (results.reverse ++ below) >>= fun _ =>
    pure Ending.next) ⟨cells.reverse ++ rest, locals, store⟩) = _
  rw [bind_at_ok (popMany_of_length h rest locals store)]
  rfl

end Stack.Run

/-! ### The ends of bodies -/

namespace IR.Run

variable {around : Surroundings σ}

theorem executeAll_of_ending {ss : List Statement} {ending : IR.Ending} (hne : ending ≠ .next)
    {v w : Variables σ} (h : executeAll around ss v = .ok ending w) (ts : List Statement) :
    executeAll around (ss ++ ts) v = .ok ending w := by
  rw [executeAll_append, h]
  cases ending with
  | next => exact (hne rfl).elim
  | _ => rfl

/-- A loop whose body does not start it again ends as that does. -/
theorem repeatBody_of_ok {label : Int} {body : IR.Run σ IR.Ending} {turns : Nat}
    {ending : IR.Ending} {v w : Variables σ} (hne : ending ≠ .restart label)
    (h : body v = .ok ending w) :
    repeatBody label body (turns + 1) v = .ok ending w := by
  rw [repeatBody, bind_at_ok h]
  cases ending with
  | restart l =>
    dsimp only
    rw [if_neg fun heq => hne (congrArg IR.Ending.restart heq)]
    rfl
  | _ => rfl

end IR.Run

theorem Aim.ending_ne_next (aim : Aim) (cells : List Cell) : aim.ending cells ≠ .next := by
  unfold Aim.ending
  split <;> rintro ⟨⟩

theorem Stack.RunOutcome.bind_pure (o : RunOutcome σ Stack.Ending) : o.bind pure = o := by
  cases o <;> rfl

theorem Holds.congr {ids : List Nat} {cells : List Cell} {v w : Variables σ} (h : Holds v ids cells)
    (hsame : ∀ id ∈ ids, w.temps[id]? = v.temps[id]?) : Holds w ids cells := by
  induction h with
  | nil => exact .nil
  | cons hc _ ih =>
    obtain ⟨hid, hids⟩ := List.forall_mem_cons.mp hsame
    exact .cons (hid.trans hc) (ih hids)

/-- Whether some slots hold what the machine has on its stack, on top of other values. -/
def Delivers (below : List Cell) (slots : List Nat) (w : Variables σ)
    (o : RunOutcome σ Stack.Ending) : Prop :=
  ∃ cells, Holds w slots cells ∧ o = .ok (.next, ⟨cells.reverse ++ below, w.locals, w.store⟩)

section Bodies

variable {around : Surroundings σ} {Γ : IR.Scope} {count : Nat} {known : List Nat}
    {F : Failure → Prop}
variable {aims : Nat → Option Aim} {results first bar : Nat} {slots : List Nat}
    {ss : List Statement}
variable {v : Variables σ} {o : RunOutcome σ Stack.Ending} {below : List Cell}
    {pend : List Expression}

/-- Values of operands are written to slots. -/
theorem exists_assignments {types : List ValueType} (hslots : Γ.Declares .slot slots types)
    (hnodup : slots.Nodup) (htypes : pend.map Expression.type = types) {cells : List Cell}
    {w : Variables σ} (heval : evaluateAll around pend v = .ok cells w)
    (hlength : cells.length = pend.length) (hsize : w.temps.size = Γ.temps.size) :
    ∃ u, executeAll around (IR.Build.assignments slots pend) v = .ok .next u ∧ u.locals = w.locals
      ∧ u.store = w.store ∧ Holds u slots cells ∧ ∀ id ∉ slots, u.temps[id]? = w.temps[id]? := by
  have htyped : slots.length = cells.length := by
    rw [hslots.length_eq, hlength, ← htypes, List.length_map]
  obtain ⟨u, hset, hlocals, hstore, hholds, hkept⟩ :=
    exists_setTemps htyped hnodup (v := w) fun id hid => hsize ▸ hslots.lt_size id hid
  refine ⟨u, ?_, hlocals, hstore, hholds, hkept⟩
  unfold IR.Build.assignments
  split
  · next hempty =>
    subst hempty
    cases htypes
    cases hslots
    cases heval
    cases hset
    rfl
  · rw [executeAll_single, execute, bind_at_ok heval, bind_at_ok hset]
    rfl

/-- A body whose end is reached writes what is pending to the slots of its block. -/
theorem arrives_assignments (ha : Unwatched Γ count F around)
    (htyped : ∀ e ∈ pend, e.Typed Γ .value) (huses : IR.Expression.usesAll pend ⊆ known)
    {types : List ValueType} (hslots : Γ.Declares .slot slots types) (hnodup : slots.Nodup)
    (htypes : pend.map Expression.type = types) (hfirst : ∀ id ∈ slots, first ≤ id)
    (hv : v.Fits Γ count known) :
    Arrives aims results first (Delivers below slots) v
      (executeAll around (IR.Build.assignments slots pend) v)
      (runOver around below pend (pure .next) v) := by
  cases heval : evaluateAll around pend v with
  | error e w =>
    -- Something was evaluated, so there is an assignment that fails as well.
    have hne : pend ≠ [] := by
      rintro rfl
      cases heval
    rw [IR.Build.assignments, if_neg hne, executeAll_single, execute, bind_at_error heval,
      Stack.runOver_of_error heval]
    exact .failed
  | ok cells w =>
    obtain ⟨hcells, hw⟩ := fits_of_ok ha htyped huses hv heval
    have hlength : cells.length = pend.length := hcells.length_eq.trans (List.length_map _)
    obtain ⟨u, hrun, hlocals, hstore, hholds, hkept⟩ :=
      exists_assignments hslots hnodup htypes heval hlength hw.size
    rw [hrun, Stack.runOver_of_ok heval]
    refine .next (fun id hid _ => ?_) ⟨cells, hholds, ?_⟩
    · rw [hkept id fun hmem => absurd (hfirst id hmem) (Nat.not_le_of_lt hid),
        (dependsOn_evaluateAll ha.silent pend).temps_eq heval]
    · rw [hlocals, hstore]
      rfl

/-- What comes after some statements goes on where they do, and so does the machine. -/
theorem Arrives.append {Next Next' : Variables σ → RunOutcome σ Stack.Ending → Prop}
    {ts : List Statement} {k : Stack.Ending → Stack.Run σ Stack.Ending}
    (hbranch : ∀ depth, k (.branch depth) = pure (.branch depth)) (hleave : k .leave = pure .leave)
      (h : Arrives aims results first Next v (executeAll around ss v) o)
    (hnext : ∀ w o, executeAll around ss v = .ok .next w → Next w o →
      Arrives aims results first Next' w (executeAll around ts w) (o.bind k)) :
    Arrives aims results first Next' v (executeAll around (ss ++ ts) v) (o.bind k) := by
  generalize hrun : executeAll around ss v = r at h
  cases h with
  | failed =>
    rw [executeAll_of_error hrun]
    exact .failed
  | next kept next =>
    rw [executeAll_of_next hrun]
    exact (hnext _ _ hrun next).since kept
  | @branch depth aim cells rest w found arity holds kept =>
    rw [executeAll_of_ending (Aim.ending_ne_next _ _) hrun]
    change Arrives
      _ _ _ _ _ _ (outcome (k (.branch depth) ⟨cells.reverse ++ rest, w.locals, w.store⟩))
    rw [hbranch]
    exact .branch found arity holds kept
  | @leave cells rest w arity =>
    rw [executeAll_of_ending (by rintro ⟨⟩) hrun]
    change Arrives _ _ _ _ _ _ (outcome (k .leave ⟨cells.reverse ++ rest, w.locals, w.store⟩))
    rw [hleave]
    exact .leave arity

/-- What a body binds may be forgotten at its end. -/
theorem arrives_inScope {run : IR.Run σ IR.Ending} (hle : first ≤ bar)
    (hbound : ∀ id ∈ IR.bound ss, bar ≤ id)
    (haims : ∀ depth aim, aims depth = some aim → ∀ id ∈ aim.slots, id < bar)
    (hslots : ∀ id ∈ slots, id < bar)
    (h : Arrives aims results first (Delivers below slots) v (run v) o) :
    Arrives aims results first (Delivers below slots) v (inScope ss run v) o := by
  generalize hrun : run v = r at h
  -- What is cleared was bound inside, and the slots of the blocks around come before that.
  have hclear (w : Variables σ) {id : Nat} (hid : id < bar) :
      ((IR.bound ss).foldl (fun temps id => temps.setIfInBounds id none) w.temps)[id]? =
        w.temps[id]? :=
    getElem?_cleared_of_not_mem (fun hmem => absurd (hbound id hmem) (Nat.not_le_of_lt hid)) w.temps
  have hholds {w : Variables σ} {ids : List Nat} {cells : List Cell} (hids : ∀ id ∈ ids, id < bar)
      (h : Holds w ids cells) :
      Holds ⟨w.locals, (IR.bound ss).foldl (fun temps id => temps.setIfInBounds id none) w.temps,
          w.store⟩
        ids cells :=
    h.congr fun id hid => hclear w (hids id hid)
  cases h with
  | failed =>
    rw [inScope, bind_at_error hrun]
    exact .failed
  | @next w o kept next =>
    obtain ⟨cells, hcells, rfl⟩ := next
    rw [inScope, bind_at_ok hrun]
    refine .next (fun id hid hne => (hclear w (hid.trans_le hle)).trans (kept id hid hne)) ?_
    exact ⟨cells, hholds hslots hcells, rfl⟩
  | @branch depth aim cells _ w found arity holds kept =>
    rw [inScope, bind_at_ok hrun]
    refine .branch found arity (fun hkind => hholds (haims depth aim found) (holds hkind))
      fun id hid hne => ?_
    exact (hclear w (hid.trans_le hle)).trans (kept id hid hne)
  | leave arity =>
    rw [inScope, bind_at_ok hrun]
    exact .leave arity

/-! ### The ends of blocks -/

/-- The blocks that a branch may go to from inside a block, or from a loop that is not started
again. -/
def innermost (inner : Option Aim) (aims : Nat → Option Aim) : Nat → Option Aim
  | 0 => inner
  | depth + 1 => aims depth

/-- The end of a block stops what leads there, and lets through what leads further out. -/
theorem arrives_close {run : IR.Run σ IR.Ending} {inner : Option Aim} {arity : Nat}
    {pass : IR.Ending → IR.Ending} (hnext : pass .next = .next)
    (hleave : ∀ cells, pass (.leave cells) = .leave cells)
      (houter : ∀ depth aim cells, aims depth = some aim → pass (aim.ending cells) =
        aim.ending cells)
    (hinner : ∀ aim ∈ inner, aim.kind ≠ .function ∧ aim.slots = slots ∧ ∀ cells,
      pass (aim.ending cells) = .next)
    (harity : slots.length = arity) (hfirst : ∀ id ∈ slots, first ≤ id)
    (h : Arrives (innermost inner aims) results first (Delivers [] slots) v (run v) o) :
    Arrives aims results first (Delivers below slots) v ((do pure (pass (← run))) v)
      (o.bind (Stack.Run.close arity below)) := by
  have hkept {w : Variables σ} (h : Kept first slots v w) : Kept first [] v w := fun id hid _ =>
    h id hid fun hmem => absurd (hfirst id hmem) (Nat.not_le_of_lt hid)
  generalize hrun : run v = r at h
  cases h with
  | failed =>
    rw [bind_at_error hrun]
    exact .failed
  | @next w o kept next =>
    obtain ⟨cells, hcells, rfl⟩ := next
    rw [bind_at_ok hrun, hnext]
    refine .next kept ⟨cells, hcells, ?_⟩
    exact Stack.Run.close_next (hcells.length_eq.symm.trans harity) below [] w.locals w.store
  | @branch depth aim cells rest w found harity' holds kept =>
    rw [bind_at_ok hrun]
    -- A branch to this block ends here, and one to a block further out goes on.
    cases depth with
    | zero =>
      obtain ⟨hkind, hslots, hpass⟩ := hinner aim found
      rw [hslots] at holds kept
      rw [hpass]
      have hcells := holds hkind
      refine .next (hkept kept) ⟨cells, hcells, ?_⟩
      exact Stack.Run.close_next (hcells.length_eq.symm.trans harity) below rest w.locals w.store
    | succ depth =>
      rw [houter depth aim cells found]
      exact .branch found harity' holds kept
  | leave harity' =>
    rw [bind_at_ok hrun, hleave]
    exact .leave harity'

/-! ### Loops -/

/-- A loop starts its body again with the same parameters as the machine does. -/
theorem arrives_repeatBody {aim : Aim} (hkind : aim.kind = .loop) {type : BlockType}
    (harity : aim.arity = type.params.length) (hfirst : ∀ id ∈ aim.slots, first ≤ id)
    (houter : ∀ depth other cells, aims depth = some other → other.ending cells ≠
      .restart aim.label)
    {body : IR.Run σ IR.Ending} {code : Stack.Run σ Stack.Ending} {P : Variables σ → Prop}
    (hbody : ∀ v cells, P v → Holds v aim.slots cells →
      Arrives (innermost (some aim) aims) results first (Delivers [] slots) v (body v)
        (outcome (code ⟨cells.reverse, v.locals, v.store⟩)))
    (hagain : ∀ v w, P v → body v = .ok (.restart aim.label) w → P w) (turns : Nat) :
    ∀ v cells, P v → Holds v aim.slots cells →
      Arrives (innermost none aims) results first (Delivers [] slots) v
        (repeatBody aim.label body turns v)
        (outcome (Stack.Run.repeatBody type code turns ⟨cells.reverse, v.locals, v.store⟩)) := by
  induction turns with
  | zero =>
    intro v cells _ _
    exact .failed
  | succ turns ih =>
    intro v cells hv hcells
    have hturn := hbody v cells hv hcells
    rw [Stack.Run.repeatBody, Stack.outcome_bind]
    generalize hrun : body v = r at hturn
    generalize outcome (code ⟨cells.reverse, v.locals, v.store⟩) = o at hturn
    -- Only a branch to the loop itself makes another turn, and it has left the parameters in their
    -- slots.
    cases hturn with
    | failed =>
      rw [repeatBody, bind_at_error hrun]
      exact .failed
    | @next w o kept next =>
      obtain ⟨rs, hrs, rfl⟩ := next
      rw [repeatBody_of_ok (by rintro ⟨⟩) hrun]
      exact .next kept ⟨rs, hrs, rfl⟩
    | @branch depth other rs rest w found arity holds kept =>
      cases depth with
      | zero =>
        obtain rfl : aim = other := Option.some.inj found
        have hending : aim.ending rs = .restart aim.label := by rw [Aim.ending, hkind]
        rw [hending] at hrun
        rw [repeatBody, bind_at_ok hrun]
        have hrs := holds (by rw [hkind]; rintro ⟨⟩)
        have hkept : Kept first [] v w := fun id hid _ =>
          kept id hid fun hmem => absurd (hfirst id hmem) (Nat.not_le_of_lt hid)
        dsimp only
        rw [if_pos rfl]
        change Arrives _ _ _ _ _ _ (outcome ((Stack.Run.popMany type.params.length >>= fun args =>
          Stack.Run.exchange args.reverse >>= fun _ => Stack.Run.repeatBody type code turns)
            ⟨rs.reverse ++ rest, w.locals, w.store⟩))
        rw [bind_at_ok (Stack.Run.popMany_of_length (arity.trans harity) rest w.locals w.store)]
        exact (ih w rs (hagain v w hv hrun) hrs).since hkept
      | succ depth =>
        rw [repeatBody_of_ok (houter depth other rs found) hrun]
        exact .branch found arity holds kept
    | leave arity =>
      rw [repeatBody_of_ok (by rintro ⟨⟩) hrun]
      exact .leave arity

end Bodies

end WasmScript
