/-
  WasmScript/Proofs/Run/Entries.lean
  ==================================
  **Blocks that are opened** — what a block finds when it starts and leaves when it ends.

  Before a block starts, all that is pending has been bound; the topmost of it are the
  parameters, and the rest waits until the block has ended.  An arm of the block does what
  its code does and writes the results to slots.  So does the block, whatever the machine
  has below its parameters: one lemma for each kind of block says so of its arms.
-/
import WasmScript.Proofs.Run.BlockRuns
import WasmScript.Proofs.Run.Drafts

namespace WasmScript

open IR (Variables Surroundings Expression Statement Frame FrameKind Layer Draft Context
  Temp Belongs)
open IR.Build (Step Opens Opening)
open IR.Run
open IR.Statement
open Stack (outcome runOver)

variable {σ : Type}

namespace IR

/-- The operands that are pending in the innermost block. -/
def Draft.own (d : Draft) : List Expression := (d.layers.head?.map Layer.pend).getD []

namespace Build.Opens

variable {kind : FrameKind} {type type' : BlockType} {condition : Option Expression}

theorem of_block (h : Opens (.block type) kind type' condition) :
    kind = .block ∧ type' = type ∧ condition = none := by
  cases h
  exact ⟨rfl, rfl, rfl⟩

theorem of_loop (h : Opens (.loop type) kind type' condition) :
    kind = .loop ∧ type' = type ∧ condition = none := by
  cases h
  exact ⟨rfl, rfl, rfl⟩

theorem of_ifBlock (h : Opens (.ifBlock type) kind type' condition) :
    kind = .conditional ∧ type' = type ∧ ∃ e, condition = some e ∧ e.type = .i32 := by
  cases h with
  | ifBlock _ isI32 => exact ⟨rfl, rfl, _, rfl, isI32⟩

end Build.Opens

namespace Frame

variable {f : Frame}

theorem toStatement_block (h : f.kind = .block) :
    f.toStatement = .block f.label f.targeted f.body.toList := by
  rw [toStatement, h]

theorem toStatement_loop (h : f.kind = .loop) :
    f.toStatement = .loop f.label f.targeted f.body.toList := by
  rw [toStatement, h]

theorem toStatement_choice (h : f.kind = .conditional) {condition : Expression}
    (hcondition : f.condition = some condition) (hfirst : f.firstArm = none) :
    f.toStatement = .conditional f.label f.targeted condition f.body.toList [] := by
  rw [toStatement, h, hcondition, hfirst]
  rfl

theorem toStatement_conditional (h : f.kind = .conditional) {condition : Expression}
    (hcondition : f.condition = some condition) {yes : List Statement}
    (hfirst : f.firstArm = some yes) :
    f.toStatement = .conditional f.label f.targeted condition yes f.body.toList := by
  rw [toStatement, h, hcondition, hfirst]
  rfl

end Frame

theorem Build.bound_assignments (slots : List Nat) (values : List Expression) :
    bound (Build.assignments slots values) = [] := by
  unfold Build.assignments
  split <;> rfl

/-! ### What open blocks are numbered with -/

namespace Draft.Sound

variable {ctx : Context} {d : Draft} {depth : Nat} {aim : Aim}

/-- The slots of open blocks have been made. -/
theorem slots_lt (h : d.Sound ctx) (found : Layer.aims d.layers depth = some aim) :
    ∀ id ∈ aim.slots, id < d.temps.size := by
  rw [Layer.aims, List.getElem?_map] at found
  obtain ⟨l, hl, rfl⟩ := Option.map_eq_some_iff.mp found
  by_cases hkind : l.frame.kind = .function
  · have hnone : l.frame.aim.slots = [] := by
      unfold Frame.aim
      rw [hkind]
    rw [hnone]
    exact fun id hid => absurd hid List.not_mem_nil
  · exact (length_slots (h.typed.layers l (List.mem_of_getElem? hl)).frame hkind).2

/-- The labels of open blocks have been given. -/
theorem label_lt (h : d.Sound ctx) (found : Layer.aims d.layers depth = some aim) :
    aim.label < d.label := by
  rw [Layer.aims, List.getElem?_map] at found
  obtain ⟨l, hl, rfl⟩ := Option.map_eq_some_iff.mp found
  exact h.names.fresh l.frame.label
    (List.mem_append_right _ (List.mem_map.mpr ⟨l, List.mem_of_getElem? hl, rfl⟩))

end Draft.Sound

/-! ### Entries -/

/-- A block that is opened over pending operands, which have to be settled before. -/
structure Entry where
  kind : FrameKind
  type : BlockType
  condition : Option Expression
  /-- The block around. -/
  outer : Frame
  /-- What is pending there, without the condition. -/
  pend : List Expression
  /-- What is pending there still while the block is open. -/
  rest : List Expression
  params : List Expression
  around : List Layer
  temps : Array Temp
  label : Nat
  operands : (Build.settling temps.size pend).operands = rest ++ params
  types : params.map Expression.type = type.params

namespace Entry

variable (e : Entry)

def settling : Build.Settling := Build.settling e.temps.size e.pend

def opening : Opening :=
  Build.opening e.kind e.type e.condition e.params
      (Layer.stack (⟨e.outer, e.rest⟩ :: e.around)).length e.label
    (e.temps ++ e.settling.temps.toArray)

def before : Draft := ⟨⟨e.outer, e.pend ++ e.condition.toList⟩ :: e.around, e.temps, e.label⟩

def inside : Draft := e.opening.draft (e.outer.add e.settling.statements) e.rest e.around e.label

/-- The number of the first slot of the block. -/
def first : Nat := e.temps.size + e.settling.temps.length

/-- An instruction that opens a block makes an entry. -/
theorem exists_of_step {ctx : Context} {i : Instruction} {d d' : Draft} (hopens : i.opensBlock)
    (h : Step ctx i d d') :
    ∃ e : Entry, Opens i e.kind e.type e.condition ∧ d = e.before ∧ d' = e.inside := by
  obtain ⟨kind, type, condition, f, pend, rest, params, ls, temps, label, hopened, -, operands,
      types, rfl, rfl⟩ :=
    Build.exists_enter hopens h
  exact ⟨⟨kind, type, condition, f, pend, rest, params, ls, temps, label, operands, types⟩,
    hopened, rfl, rfl⟩

variable {e}

theorem before_opening_eq : e.opening.before
    = Build.assignments e.opening.frame.paramSlots (if e.kind = .loop then e.params else []) := rfl

theorem before_opening (hkind : e.kind ≠ .loop) : e.opening.before = [] := by
  rw [before_opening_eq, if_neg hkind]
  rfl

theorem before_opening_loop (hkind : e.kind = .loop) :
    e.opening.before = Build.assignments e.opening.frame.paramSlots e.params := by
  rw [before_opening_eq, if_pos hkind]

theorem operands_opening (hkind : e.kind ≠ .loop) : e.opening.operands = e.params := if_neg hkind

theorem operands_opening_loop (hkind : e.kind = .loop) :
    e.opening.operands = Build.refs e.opening.frame.paramSlots e.type.params := if_pos hkind

theorem aim_opening (hkind : e.kind = .block ∨ e.kind = .conditional) :
    e.opening.frame.aim =
      ⟨e.kind, e.label, e.opening.frame.resultSlots, e.type.results.length⟩ := by
  have hsame : e.opening.frame.kind = e.kind := rfl
  unfold Frame.aim Frame.labelTypes
  rcases hkind with hkind | hkind <;> (rw [hsame, hkind]; rfl)

theorem aim_opening_loop (hkind : e.kind = .loop) :
    e.opening.frame.aim = ⟨.loop, e.label, e.opening.frame.paramSlots, e.type.params.length⟩ := by
  have hsame : e.opening.frame.kind = e.kind := rfl
  unfold Frame.aim Frame.labelTypes
  rw [hsame, hkind]
  rfl

theorem size_temps : (e.temps ++ e.settling.temps.toArray).size = e.first := by
  simp [first]

theorem first_le : e.first ≤ e.inside.temps.size := by
  obtain ⟨ts, hts⟩ := Build.exists_temps_opening e.kind e.type e.condition e.params
    (Layer.stack (⟨e.outer, e.rest⟩ :: e.around)).length e.label
      (e.temps ++ e.settling.temps.toArray)
  change _ ≤ e.opening.temps.size
  rw [opening, hts, Array.size_append, size_temps]
  exact Nat.le_add_right _ _

theorem first_le_resultSlots : ∀ id ∈ e.opening.frame.resultSlots, e.first ≤ id := by
  intro id (hid : id ∈ List.range' (e.temps ++ e.settling.temps.toArray).size _)
  rw [size_temps] at hid
  exact (List.mem_range'_1.mp hid).1

theorem first_le_paramSlots : ∀ id ∈ e.opening.frame.paramSlots, e.first ≤ id := by
  intro id (hid : id ∈ List.range' ((e.temps ++ e.settling.temps.toArray) ++ _).size _)
  rw [Array.size_append, size_temps] at hid
  exact (Nat.le_add_right _ _).trans (List.mem_range'_1.mp hid).1

/-- Inside the block, a branch may go to the block or further out. -/
theorem aims_inside : Layer.aims e.inside.layers
    = innermost (some e.opening.frame.aim) (Layer.aims e.before.layers) := by
  funext depth
  rcases depth with _ | _ | depth <;> rfl

/-- The block starts where what is pending has been settled. -/
theorem known_inside (final : Array Temp) : (Draft.place final e.inside).known
    = ((Draft.place final e.before).learn (bound e.settling.statements)).known := by
  have hnone : bound e.opening.before = [] := Build.bound_assignments _ _
  have hplace : Draft.place final e.inside
      = ((Layer.place (Temp.ids .slot final.toList)
          (⟨(e.outer.add e.settling.statements).add e.opening.before, e.rest⟩ :: e.around)).inside
            e.opening.frame).learn [] := rfl
  rw [hplace, Place.learn_nil, Place.known_inside, Frame.add_add,
    Layer.place_add _ _ _ (e.pend ++ e.condition.toList), bound_append, hnone, List.append_nil]
  rfl

/-- Whether an open block is the one that was opened, whatever it has been filled with. -/
def Opened (e : Entry) (f : Frame) : Prop :=
  { f.bare with firstArm := none, firstFallsThrough := false, body := #[] } = e.opening.frame

namespace Opened

variable {f g : Frame}

theorem kind (h : e.Opened f) : f.kind = e.kind := (congrArg Frame.kind h :)

theorem label (h : e.Opened f) : f.label = e.label := (congrArg Frame.label h :)

theorem params (h : e.Opened f) : f.params = e.type.params := (congrArg Frame.params h :)

theorem results (h : e.Opened f) : f.results = e.type.results := (congrArg Frame.results h :)

theorem resultSlots (h : e.Opened f) : f.resultSlots = e.opening.frame.resultSlots :=
  (congrArg Frame.resultSlots h :)

theorem condition (h : e.Opened f) : f.condition = e.condition := (congrArg Frame.condition h :)

theorem paramValues (h : e.Opened f) : f.paramValues = e.params := (congrArg Frame.paramValues h :)

theorem aim (h : e.Opened f) : f.aim = e.opening.frame.aim := (congrArg Frame.aim h :)

theorem grown (h : e.Opened f) {pend gpend : List Expression} {ls ls' : List Layer}
    {temps temps' : Array Temp} {label label' : Nat} {ss : List Statement}
    (hgrown : Grown ⟨⟨f, pend⟩ :: ls, temps, label⟩ ss ⟨⟨g, gpend⟩ :: ls', temps', label'⟩) :
    e.Opened g := by
  have hframe :=
    congrArg (fun f : Frame => { f with firstArm := none, firstFallsThrough := false, body := #[] })
      hgrown.frame
  exact hframe.trans h

theorem finished (h : e.Opened f) (pend : List Expression) : e.Opened (Build.finished f pend) := by
  obtain ⟨ss, hss⟩ := Build.exists_finished f pend
  rw [hss]
  exact h

end Opened

theorem opened_inside : e.Opened e.opening.frame := rfl

/-- A draft in which an arm of the block starts, the only one or the second. -/
inductive Starts (e : Entry) : Draft → Prop
  | mk {f : Frame} {ls : List Layer} {temps : Array Temp} {label : Nat} (opened : e.Opened f)
    (empty : f.body = #[])
      (around : ls.map Layer.bare = e.inside.layers.tail.map Layer.bare)
      (size : e.inside.temps.size ≤ temps.size) :
        e.Starts ⟨⟨f, e.opening.operands⟩ :: ls, temps, label⟩

theorem starts_inside : e.Starts e.inside := .mk opened_inside rfl rfl le_rfl

/-- The second arm starts where the first one did. -/
theorem starts_second {ctx : Context} {ss : List Statement} {d d' : Draft} (hkind : e.kind ≠ .loop)
    (hgrown : Grown e.inside ss d) (turns : Step ctx .elseMark d d') : e.Starts d' := by
  obtain ⟨g, gpend, ls, temps, label, rfl, rfl, -⟩ := Build.exists_second turns
  have hopened : e.Opened g := opened_inside.grown hgrown
  obtain ⟨around, ts, (hts : temps = _)⟩ := hgrown.inside
  have hsize : e.inside.temps.size ≤ temps.size := by
    rw [hts, Array.size_append]
    exact Nat.le_add_right _ _
  rw [hopened.paramValues, ← operands_opening hkind]
  exact .mk (hopened.finished gpend) rfl around hsize

namespace Starts

variable {d : Draft}

theorem aims_eq (h : e.Starts d) : Layer.aims d.layers
    = innermost (some e.opening.frame.aim) (Layer.aims e.before.layers) := by
  rw [← aims_inside]
  cases h with
  | mk opened empty around size =>
    have haround := Layer.aims_congr around
    funext depth
    cases depth with
    | zero => exact congrArg some opened.aim
    | succ depth => exact congrFun haround depth

theorem known_eq (h : e.Starts d) (final : Array Temp) :
    (Draft.place final d).known = (Draft.place final e.inside).known := by
  cases h with
  | @mk f ls temps label opened empty around size =>
    have hplace : Draft.place final ⟨⟨f, e.opening.operands⟩ :: ls, temps, label⟩
      = ((Layer.place (Temp.ids .slot final.toList) ls).inside f).learn (bound f.body.toList) := rfl
    have hinside : Draft.place final e.inside
      = ((Layer.place (Temp.ids .slot final.toList) e.inside.layers.tail).inside
        e.opening.frame).learn [] := rfl
    rw [hplace, hinside, empty, Layer.place_congr around]
    simp only [Place.learn, Place.known_inside]
    rfl

end Starts

end Entry

/-! ### Arms -/

/-- Whether some statements do what some code of the machine does, where a draft goes on as another
one. -/
def Simulates (ctx : Context) (final : Array Temp) (count : Nat) (around : Surroundings σ)
    (d d' : Draft) (ss : List Statement) (code : Stack.Run σ Stack.Ending) : Prop :=
  ∀ v : Variables σ, v.Fits (ctx.scope final) count (Draft.place final d).known →
    Arrives (Layer.aims d.layers) ctx.type.results.length d.temps.size
        (GoesOn around [] (¬ d'.Dead) d'.own) v
      (executeAll around ss v) (runOver around [] d.own code v)

namespace Entry

/-- Whether some statements do what some code does as an arm of a block, whose results they write to
slots. -/
def Runs (e : Entry) (ctx : Context) (final : Array Temp) (count : Nat) (around : Surroundings σ)
    (ss : List Statement) (code : Stack.Run σ Stack.Ending) : Prop :=
  ∀ v : Variables σ, v.Fits (ctx.scope final) count (Draft.place final e.inside).known →
    Arrives (innermost (some e.opening.frame.aim) (Layer.aims e.before.layers))
        ctx.type.results.length e.first
      (Delivers [] e.opening.frame.resultSlots) v (inScope ss (executeAll around ss) v)
      (runOver around [] e.opening.operands code v)

variable {e : Entry} {ctx : Context} {final : Array Temp} {count : Nat} {F : Failure → Prop}
variable {around : Surroundings σ} {ss : List Statement} {code : Stack.Run σ Stack.Ending}

/-- An arm that has ended does what its code does. -/
theorem runs_of_simulates (ha : Unwatched (ctx.scope final) count F around) {d : Draft}
    (hstarts : e.Starts d) (hd : d.Sound ctx) (hkind : e.kind ≠ .function) {g : Frame}
    {gpend : List Expression} {ls : List Layer} {temps : Array Temp} {label : Nat}
    (hof : Draft.Of ctx final ⟨⟨g, gpend⟩ :: ls, temps, label⟩)
    (hgrown : Grown d ss ⟨⟨g, gpend⟩ :: ls, temps, label⟩)
    (types : g.unreachable = false → gpend.map Expression.type = g.results)
    (h : Simulates ctx final count around d ⟨⟨g, gpend⟩ :: ls, temps, label⟩ ss code) :
    e.Runs ctx final count around (Build.finished g gpend).body.toList code := by
  have haims := hstarts.aims_eq
  have hknown := hstarts.known_eq final
  obtain ⟨hown, hsize, hlow, hopened, hbody⟩ : d.own = e.opening.operands ∧ e.first ≤ d.temps.size ∧
      (∀ id ∈ e.opening.frame.resultSlots, id < d.temps.size) ∧ e.Opened g ∧
        g.body.toList = ss := by
    cases hstarts with
    | @mk f ls₀ temps₀ label₀ opened empty _ size =>
      have hdeclares :=
        (hd.typed.layers _ List.mem_cons_self).frame.resultSlots (by rw [opened.kind]; exact hkind)
      have hfilled : g.body = f.body ++ ss.toArray := (congrArg Frame.body hgrown.frame :)
      refine ⟨rfl, first_le.trans size, opened.resultSlots ▸ hdeclares.lt_size,
        opened.grown hgrown, ?_⟩
      rw [hfilled, empty]
      exact congrArg Array.toList (Array.empty_append ..)
  have hslots := hopened.resultSlots
  intro v hv
  have hrun := (h v (hknown ▸ hv)).mono hsize fun _ _ _ _ h => h
  rw [haims, hown] at hrun
  have hwrites :
      Arrives (innermost (some e.opening.frame.aim) (Layer.aims e.before.layers))
        ctx.type.results.length
      e.first (Delivers [] e.opening.frame.resultSlots) v
      (executeAll around (Build.finished g gpend).body.toList v)
        (runOver around [] e.opening.operands code v) := by
    -- An arm whose end is not reached writes no results, and control does not go on after it.
    unfold Build.finished
    split
    · next hdead =>
      rw [hbody]
      refine hrun.mono le_rfl fun w o _ _ hnext => ?_
      exact (hnext.1 (by rintro _ ⟨⟩; exact hdead)).elim
    · next hlive =>
      rw [Frame.toList_body_add, hbody, ← Stack.RunOutcome.bind_pure (runOver ..)]
      refine hrun.append (fun _ => rfl) rfl fun w o hend hnext => ?_
      rw [Stack.RunOutcome.bind_pure, hnext.2, hslots]
      have hw := (hof.next hd hgrown ha (hknown ▸ hv) hend).2
      have hdeclares :=
        (hof.typed_layer List.mem_cons_self).frame.resultSlots (by rw [hopened.kind]; exact hkind)
      rw [hslots] at hdeclares
      exact arrives_assignments ha hof.pending.typed hof.pending.uses hdeclares List.nodup_range'
        (types (Bool.eq_false_iff.mpr hlive)) first_le_resultSlots hw
  refine arrives_inScope hsize (fun id hid => ?_)
    (fun depth aim found => hd.slots_lt (haims ▸ found)) hlow hwrites
  refine hof.le_of_bound hd hgrown (bound_subset_bindsIn ss ?_)
  unfold Build.finished at hid
  split at hid
  · rwa [hbody] at hid
  · rwa [Frame.toList_body_add, hbody, bound_append, Build.bound_assignments,
      List.append_nil] at hid

/-- An arm without code, of a block without parameters and results. -/
theorem runs_nil (hkind : e.kind ≠ .loop) (hparams : e.type.params = [])
    (hresults : e.type.results = []) :
    e.Runs ctx final count around [] (pure .next) := by
  intro v hv
  have hoperands : e.opening.operands = [] := by
    rw [operands_opening hkind]
    exact List.map_eq_nil_iff.mp (e.types.trans hparams)
  have hslots : e.opening.frame.resultSlots = [] := by
    change List.range' _ e.type.results.length = []
    rw [hresults]
    rfl
  rw [hoperands, hslots]
  exact .next (.of_temps rfl) ⟨[], .nil, rfl⟩

/-! ### Blocks -/

/-- Whether a statement does what some code does as the whole of a block, over other values. -/
def Does (e : Entry) (ctx : Context) (final : Array Temp) (count : Nat) (around : Surroundings σ)
    (s : Statement) (code : Stack.Run σ Stack.Ending) : Prop :=
  ∀ (v : Variables σ) (cells below : List Cell),
      v.Fits (ctx.scope final) count (Draft.place final e.inside).known →
    Held around e.params cells v →
    Arrives (Layer.aims e.before.layers) ctx.type.results.length e.first
      (Delivers below e.opening.frame.resultSlots) v (executeAll around (e.opening.before ++ [s]) v)
      (runOver around (cells.reverse ++ below) e.condition.toList code v)

/-- What the machine takes as the parameters of a block. -/
theorem length_params {v : Variables σ} {cells : List Cell} (h : Held around e.params cells v) :
    cells.length = e.type.params.length := by
  rw [← e.types, List.length_map]
  exact h.length_eq.symm

/-- An arm that is run as the whole of a block. -/
theorem arrives_enclose (hd : e.before.Sound ctx) (hkind : e.kind = .block ∨ e.kind = .conditional)
    (h : e.Runs ctx final count around ss code) {v : Variables σ} {cells : List Cell}
    (hv : v.Fits (ctx.scope final) count (Draft.place final e.inside).known)
    (hheld : Held around e.params cells v) (below : List Cell) :
    Arrives (Layer.aims e.before.layers) ctx.type.results.length e.first
      (Delivers below e.opening.frame.resultSlots) v
      ((do pure (endBlock e.label (← inScope ss (executeAll around ss)))) v)
      (outcome (Stack.Run.enclose e.type code ⟨cells.reverse ++ below, v.locals, v.store⟩)) := by
  have hloop : e.kind ≠ .loop := by rcases hkind with hkind | hkind <;> (rw [hkind]; rintro ⟨⟩)
  -- No parameter is copied, so the arm starts on the operands that the machine has on its stack.
  have hcode : runOver around [] e.opening.operands code v =
      outcome (code ⟨cells.reverse, v.locals, v.store⟩) := by
    rw [operands_opening hloop, Stack.runOver_held hheld, List.append_nil]
  rw [Stack.Run.enclose_eq (length_params hheld), ← hcode]
  refine arrives_close rfl (fun _ => rfl) (fun depth aim rs found => ?_) ?_ List.length_range'
    first_le_resultSlots (h v hv)
  -- Labels grow inwards, so a branch further out is none to this block.
  · have hlabel : aim.label < e.label := hd.label_lt found
    unfold Aim.ending
    split
    · rfl
    · rfl
    · exact if_neg hlabel.ne
  · rintro _ ⟨⟩
    rw [aim_opening hkind]
    refine ⟨?_, rfl, fun rs => ?_⟩
    · rcases hkind with hkind | hkind <;> (rw [hkind]; rintro ⟨⟩)
    · rcases hkind with hkind | hkind <;> (rw [Aim.ending, hkind]; exact if_pos rfl)

theorem does_block (hd : e.before.Sound ctx) (hkind : e.kind = .block)
    (hcondition : e.condition = none) (h : e.Runs ctx final count around ss code)
    (targeted : Bool) :
    e.Does ctx final count around (.block e.label targeted ss) (Stack.Run.enclose e.type code) := by
  intro v cells below hv hheld
  rw [before_opening (by rw [hkind]; rintro ⟨⟩), List.nil_append, executeAll_single, execute,
    hcondition]
  exact arrives_enclose hd (.inl hkind) h hv hheld below

theorem does_conditional (ha : Unwatched (ctx.scope final) count F around)
    (hof : e.before.Of ctx final) (hkind : e.kind = .conditional) {condition : Expression}
    (hcondition : e.condition = some condition) (type : condition.type = .i32) {no : List Statement}
    {code' : Stack.Run σ Stack.Ending} (hyes : e.Runs ctx final count around ss code)
    (hno : e.Runs ctx final count around no code') (targeted : Bool) :
    e.Does ctx final count around (.conditional e.label targeted condition ss no) (do
      let c ← Stack.Run.popI32
      Stack.Run.enclose e.type (if c ≠ 0 then code else code')) := by
  intro v cells below hv hheld
  rw [before_opening (by rw [hkind]; rintro ⟨⟩), List.nil_append, executeAll_single, execute,
    hcondition]
  have hpend : Pending (ctx.scope final) (Draft.place final e.before).known e.temps.size
      (e.pend ++ e.condition.toList) := hof.pending
  rw [hcondition] at hpend
  obtain ⟨htyped, huses, -⟩ := hpend.right.head
  have hstable := Build.isStable_settling e.temps.size e.pend
  rw [e.operands] at hstable
  -- The condition was taken after the rest was settled, and it is known inside as well.
  have hknown : (Draft.place final e.before).known ⊆ (Draft.place final e.inside).known := by
    rw [known_inside]
    exact List.subset_append_left _ _
  refine arrives_i32 ha htyped type (List.Subset.trans huses hknown) hv fun n w htemps hw => ?_
  have hheld' : Held around e.params cells w :=
    hheld.of_temps ha.silent (List.forall_mem_append.mp hstable).2 htemps
  by_cases hn : n = 0
  · rw [if_neg (not_not_intro hn), if_neg (not_not_intro hn)]
    exact arrives_enclose hof.sound (.inr hkind) hno hw hheld' below
  · rw [if_pos hn, if_pos hn]
    exact arrives_enclose hof.sound (.inr hkind) hyes hw hheld' below

/-- No branch out of a loop restarts the loop. -/
theorem ending_ne_restart (hd : e.before.Sound ctx) {depth : Nat} {aim : Aim}
    (found : Layer.aims e.before.layers depth = some aim) (rs : List Cell) :
    aim.ending rs ≠ .restart e.label := by
  have hlabel : aim.label < e.label := hd.label_lt found
  unfold Aim.ending
  split
  · rintro ⟨⟩
  · intro heq
    exact hlabel.ne (IR.Ending.restart.inj heq)
  · rintro ⟨⟩

/-- A turn of a loop on the values of its parameters. -/
theorem arrives_turn (ha : Unwatched (ctx.scope final) count F around) (hkind : e.kind = .loop)
    (hdeclares : (ctx.scope final).Declares .slot e.opening.frame.paramSlots e.type.params)
    (h : e.Runs ctx final count around ss code) {v : Variables σ} {rs : List Cell}
    (hv : v.Fits (ctx.scope final) count (Draft.place final e.inside).known)
    (hrs : Holds v e.opening.frame.aim.slots rs) :
    Arrives (innermost (some e.opening.frame.aim) (Layer.aims e.before.layers))
      ctx.type.results.length e.first
      (Delivers [] e.opening.frame.resultSlots) v (inScope ss (executeAll around ss) v)
      (outcome (code ⟨rs.reverse, v.locals, v.store⟩)) := by
  rw [aim_opening_loop hkind] at hrs
  have hheld : Held around e.opening.operands rs v := by
    rw [operands_opening_loop hkind]
    exact held_refs ha.silent hrs hdeclares.length_eq
  have hcode : runOver around [] e.opening.operands code v =
      outcome (code ⟨rs.reverse, v.locals, v.store⟩) := by
    rw [Stack.runOver_held hheld, List.append_nil]
  exact hcode ▸ h v hv

/-- All turns of a loop.  Where one restarts the loop, what is known at the start of the loop is
known again. -/
theorem arrives_turns (ha : Unwatched (ctx.scope final) count F around) (hd : e.before.Sound ctx)
    (hkind : e.kind = .loop)
    (hdeclares : (ctx.scope final).Declares .slot e.opening.frame.paramSlots e.type.params)
    (hagain : ∀ v w, v.Fits (ctx.scope final) count (Draft.place final e.inside).known →
      inScope ss (executeAll around ss) v = .ok (.restart e.label) w →
      w.Fits (ctx.scope final) count (Draft.place final e.inside).known)
    (h : e.Runs ctx final count around ss code) {v : Variables σ} {cells : List Cell}
    (hv : v.Fits (ctx.scope final) count (Draft.place final e.inside).known)
    (hcells : Holds v e.opening.frame.paramSlots cells) :
    Arrives (innermost none (Layer.aims e.before.layers)) ctx.type.results.length e.first
      (Delivers [] e.opening.frame.resultSlots) v
      (repeatBody e.label (inScope ss (executeAll around ss)) around.turns v)
      (outcome (Stack.Run.repeatBody e.type code around.turns
        ⟨cells.reverse, v.locals, v.store⟩)) := by
  have haim := aim_opening_loop hkind
  refine arrives_repeatBody (by rw [haim]) (by rw [haim]) (by rw [haim]; exact first_le_paramSlots)
    (fun depth aim rs found => ?_) (fun u rs hu hrs => arrives_turn ha hkind hdeclares h hu hrs)
    (fun u w hu hrun => ?_) around.turns v cells hv (by rw [haim]; exact hcells)
  · rw [haim]
    exact ending_ne_restart hd found rs
  · rw [haim] at hrun
    exact hagain u w hu hrun

theorem does_loop (ha : Unwatched (ctx.scope final) count F around) (hof : e.before.Of ctx final)
    (hinside : e.inside.Of ctx final) (hkind : e.kind = .loop) (hcondition : e.condition = none)
    {targeted : Bool}
    (hbelongs : Belongs (ctx.scope final)
      ((Draft.place final e.before).learn (bound e.settling.statements))
      (e.opening.before ++ [.loop e.label targeted ss]))
    (h : e.Runs ctx final count around ss code) :
    e.Does ctx final count around (.loop e.label targeted ss)
      (Stack.Run.enclose e.type (Stack.Run.repeatBody e.type code around.turns)) := by
  have hdeclares : (ctx.scope final).Declares .slot e.opening.frame.paramSlots e.type.params :=
    (hinside.typed_layer List.mem_cons_self).frame.paramSlots hkind
  have hknown : (Draft.place final e.inside).known
      = (((Draft.place final e.before).learn (bound e.settling.statements)).learn
        (bound e.opening.before)).known := by
    have hnone : bound e.opening.before = [] := Build.bound_assignments _ _
    rw [hnone, Place.learn_nil, known_inside]
  intro v cells below hv hheld
  obtain ⟨w, hrun, hlocals, hstore, hholds, hkept⟩ := exists_assignments hdeclares
    List.nodup_range' e.types hheld.evaluateAll_eq hheld.length_eq.symm hv.size
  rw [← before_opening_loop hkind] at hrun
  have hw : w.Fits (ctx.scope final) count (Draft.place final e.inside).known := by
    rw [hknown]
    exact (hbelongs.left.next ha (known_inside (e := e) final ▸ hv) hrun).2
  -- The parameters have been copied to their slots, from which each turn takes them.
  have hturns := arrives_turns ha hof.sound hkind hdeclares
    (fun u u' hu hrun' => hknown ▸ hbelongs.right.loop.restart ha (hknown ▸ hu) hrun') h hw hholds
  have hclosed : Arrives (Layer.aims e.before.layers) ctx.type.results.length e.first
      (Delivers below e.opening.frame.resultSlots) w
      ((do pure (id (← repeatBody e.label (inScope ss (executeAll around ss)) around.turns))) w)
      ((outcome
          (Stack.Run.repeatBody e.type code around.turns ⟨cells.reverse, w.locals, w.store⟩)).bind
        (Stack.Run.close e.type.results.length below)) :=
    arrives_close rfl (fun _ => rfl) (fun _ _ _ _ => rfl) (by rintro _ ⟨⟩) List.length_range'
        first_le_resultSlots
      hturns
  rw [executeAll_of_next hrun, executeAll_single, execute, hcondition]
  change Arrives
    _ _ _ _ _ _ (outcome (Stack.Run.enclose _ _ ⟨cells.reverse ++ below, v.locals, v.store⟩))
  rw [Stack.Run.enclose_eq (length_params hheld), ← hlocals, ← hstore]
  simp only [id, bind_pure] at hclosed
  refine hclosed.since fun id hid _ => hkept id fun hmem => ?_
  exact absurd (first_le_paramSlots id hmem) (Nat.not_le_of_lt hid)

end Entry

end IR

end WasmScript
