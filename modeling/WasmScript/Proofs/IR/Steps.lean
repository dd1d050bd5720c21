/-
  WasmScript/Proofs/IR/Steps.lean
  ===============================
  **Steps of a build that goes well** — all that one instruction can do to a builder.

  A `Draft` is a builder as proofs see it: each open block together with its own operands.
  `Step` lists, once and for all, what an instruction that is built makes of a draft: it
  stays in the innermost block (`Straight`), it opens a block, it starts the second arm of
  an `if`, or it closes a block.

  `exists_steps_of_build` says that each function that is built stands at the end of a
  chain of steps, so what holds at the start and is kept by each `Step` holds of it.
  Proofs about built bodies go through that chain and never through the builder itself.
-/
import Mathlib.Logic.Relation
import WasmScript.Proofs.IR.Blocks
import WasmScript.Proofs.IR.Branches
import WasmScript.Proofs.IR.Passing

namespace WasmScript.IR

/-! ### Open blocks with their operands -/

/-- An open block with its own operands, the oldest first. -/
structure Layer where
  frame : Frame
  pend : List Expression

namespace Layer

/-- The operand stack of some open blocks, the innermost block first. -/
def stack (ls : List Layer) : List Expression := ls.flatMap fun l => l.pend.reverse

/-- The open blocks, those at some depths being targeted from then on. -/
def target (targets : Nat → Bool) : List Layer → List Layer
  | [] => []
  | l :: ls =>
    { l with frame := l.frame.mark (targets 0) } :: target (fun i => targets (i + 1)) ls

@[simp] theorem stack_cons (l : Layer) (ls : List Layer) :
    stack (l :: ls) = l.pend.reverse ++ stack ls := List.flatMap_cons

@[simp] theorem stack_target (targets : Nat → Bool) (ls : List Layer) :
    stack (target targets ls) = stack ls := by
  induction ls generalizing targets with
  | nil => rfl
  | cons l ls ih => rw [target, stack_cons, stack_cons, ih]

theorem target_eq_nil_iff (targets : Nat → Bool) (ls : List Layer) :
    target targets ls = [] ↔ ls = [] := by
  cases ls <;> simp [target]

theorem getElem?_target (targets : Nat → Bool) (ls : List Layer) (i : Nat) :
    (target targets ls)[i]?
      = ls[i]?.map fun l => { l with frame := l.frame.mark (targets i) } := by
  induction ls generalizing targets i with
  | nil => rfl
  | cons l ls ih =>
    cases i with
    | zero => rfl
    | succ i => exact ih _ i

theorem exists_of_mem_target {targets : Nat → Bool} {l : Layer} {ls : List Layer}
    (h : l ∈ target targets ls) :
    ∃ l₀ ∈ ls, ∃ targeted, l = { l₀ with frame := l₀.frame.mark targeted } := by
  obtain ⟨i, hi⟩ := List.mem_iff_getElem?.mp h
  rw [getElem?_target] at hi
  obtain ⟨l₀, hl₀, heq⟩ := Option.map_eq_some_iff.mp hi
  exact ⟨l₀, List.mem_of_getElem? hl₀, targets i, heq.symm⟩

theorem map_frame_target (depths : List Nat) (ls : List Layer) :
    (target (decide <| · ∈ depths) ls).map frame = Build.markedAll depths (ls.map frame) := by
  have hmarked (fs : List Frame) (i : Nat) : (Build.markedAll depths fs)[i]?
      = fs[i]?.map fun f => f.mark (decide (i ∈ depths)) := by
    induction depths generalizing fs with
    | nil => simp [Build.markedAll, Frame.mark]
    | cons d depths ih =>
      rw [Build.markedAll, List.foldl_cons, ← Build.markedAll, ih, Build.getElem?_marked]
      by_cases hd : d = i
      · subst hd
        cases fs[d]? <;> simp [Frame.mark]
      · cases fs[i]? <;> simp [hd, Ne.symm hd]
  refine List.ext_getElem? fun i => ?_
  rw [hmarked, List.getElem?_map, List.getElem?_map, getElem?_target]
  cases ls[i]? <;> rfl

end Layer

/-- The operands of each block lie on those of the blocks around it, which are stable, and only the
outermost block is the function. -/
inductive Stacked : List Layer → Prop
  | nil : Stacked []
  | cons {l : Layer} {ls : List Layer} (height : l.frame.height = (Layer.stack ls).length)
      (stable : ∀ e ∈ Layer.stack ls, e.isStable) (root : l.frame.kind = .function ↔ ls = [])
      (rest : Stacked ls) : Stacked (l :: ls)

namespace Stacked

variable {l l' : Layer} {ls : List Layer}

/-- What is pending in the innermost block does not matter, nor what it has been filled with. -/
theorem top (h : Stacked (l :: ls)) (height : l'.frame.height = l.frame.height)
    (kind : l'.frame.kind = l.frame.kind) : Stacked (l' :: ls) := by
  cases h with
  | cons hheight hstable hroot hrest =>
    exact .cons (height.trans hheight) hstable (by rw [kind]; exact hroot) hrest

theorem innermost (h : Stacked (l :: ls)) :
    l.frame.height = (Layer.stack ls).length ∧ ∀ e ∈ Layer.stack ls, e.isStable := by
  cases h with
  | cons height stable root rest => exact ⟨height, stable⟩

theorem target (h : Stacked ls) (targets : Nat → Bool) : Stacked (Layer.target targets ls) := by
  induction h generalizing targets with
  | nil => exact .nil
  | cons height stable root rest ih =>
    refine .cons ?_ ?_ ?_ (ih _)
    · rw [Layer.stack_target]
      exact height
    · rw [Layer.stack_target]
      exact stable
    · rw [Layer.target_eq_nil_iff]
      exact root

end Stacked

/-- A builder as proofs see it. -/
structure Draft where
  /-- The open blocks, the innermost first. -/
  layers : List Layer
  temps : Array Temp
  label : Nat

namespace Draft

/-- The state of a build with the open blocks, temporaries and labels of a draft. -/
def builder (d : Draft) (pos : Nat) : Builder :=
  ⟨Layer.stack d.layers, d.layers.map Layer.frame, d.temps, d.label, pos⟩

end Draft

namespace Build

variable {ctx : Context} {f : Frame} {pend : List Expression} {ls : List Layer}
variable {temps : Array Temp} {label pos : Nat} {b : Builder}

/-! ### Instructions that stay in a block -/

/-- What is settled, with some more statements after it. -/
def Settling.emit (s : Settling) (ss : List Statement) : Settling :=
  { s with statements := s.statements ++ ss }

/-- What an instruction makes of the innermost block. -/
structure Outcome extends Settling where
  /-- Whether what follows can be reached. -/
  live : Bool
  /-- The depths of the blocks that it branches to. -/
  depths : List Nat

/-- The innermost block after an instruction with an outcome. -/
def Outcome.layer (o : Outcome) (f : Frame) : Layer :=
  ⟨if o.live then f.add o.statements else (f.add o.statements).dead, o.operands⟩

def Outcome.draft (o : Outcome) (f : Frame) (ls : List Layer) (temps : Array Temp) (label : Nat) :
    Draft :=
  { layers := Layer.target (decide <| · ∈ o.depths) (o.layer f :: ls)
    temps := temps ++ o.temps.toArray
    label }

/-- What becomes of the operands of the innermost of some open blocks by an instruction that neither
opens nor closes one, temporaries being numbered from one on. -/
inductive Straight (ctx : Context) (fs : List Frame) (first : Nat) :
    Instruction → List Expression → Outcome → Prop
  | nop {pend : List Expression} : Straight ctx fs first .nop pend ⟨⟨pend, [], []⟩, true, []⟩
  | work {i : Instruction} {type : FunctionType} {rest es : List Expression} {w : Work}
      (signature : i.signature ctx.module ctx.localTypes = some type)
      (types : es.map Expression.type = type.params)
      (made : i.work ctx.module ctx.localTypes es = some w) (gives : w.types = type.results) :
      Straight ctx fs first i (rest ++ es) ⟨settlingWork first rest w, true, []⟩
  | drop {rest : List Expression} {e : Expression} :
      Straight ctx fs first .drop (rest ++ [e])
        ⟨(settlingIf e.hasEffects first rest).emit (effects [e]), true, []⟩
  | select {rest rest' : List Expression} {condition a b : Expression} {needed : Bool}
      (type : condition.type = .i32)
      (operands : (settlingIf needed first rest).operands = rest' ++ [a, b])
        (same : a.type = b.type)
      (quiet : needed = false →
        ¬ condition.hasEffects ∧ ¬ a.hasEffects ∧ ¬ b.hasEffects) :
      Straight ctx fs first .select (rest ++ [condition])
        ⟨{ settlingIf needed first rest with
            operands := rest' ++ [Expression.select b.type condition a b] }, true, []⟩
  | unreachable {pend : List Expression} :
      Straight ctx fs first .unreachable pend ⟨⟨[], effects pend ++ [.unreachable], []⟩, false, []⟩
  | br {rest es : List Expression} {depth : Nat}
      (target : fs[depth]?.map Frame.labelTypes = some (es.map Expression.type)) :
      Straight ctx fs first (.br depth) (rest ++ es)
        ⟨⟨[], effects rest ++ [.branch (branchAt fs es depth)], []⟩, false, [depth]⟩
  | ret {rest es : List Expression} (types : es.map Expression.type = ctx.type.results) :
      Straight ctx fs first .ret (rest ++ es) ⟨⟨[], effects rest ++ [.leave es], []⟩, false, []⟩
  | brIf {rest rest' es : List Expression} {depth : Nat} {condition : Expression}
      (type : condition.type = .i32) (operands : (settling first rest).operands = rest' ++ es)
      (target : fs[depth]?.map Frame.labelTypes = some (es.map Expression.type)) :
      Straight ctx fs first (.brIf depth) (rest ++ [condition])
        ⟨(settling first rest).emit [.branchIf condition (branchAt fs es depth)], true, [depth]⟩
  | brTable {rest rest' es : List Expression} {default : Nat} {depths : List Nat}
      {index : Expression}
      (type : index.type = .i32) (operands : (settling first rest).operands = rest' ++ es)
      (targets : ∀ d ∈ depths ++ [default],
        fs[d]?.map Frame.labelTypes = some (es.map Expression.type)) :
      Straight ctx fs first (.brTable depths default) (rest ++ [index])
        ⟨{ (settling first rest).emit
              [.branchTable index (depths.map (branchAt fs es)) (branchAt fs es default)] with
            operands := [] }, false, depths ++ [default]⟩

/-! ### Instructions that open or close a block -/

/-- What an instruction that opens a block opens; an `if` has a condition. -/
inductive Opens : Instruction → FrameKind → BlockType → Option Expression → Prop
  | block (type : BlockType) : Opens (.block type) .block type none
  | loop (type : BlockType) : Opens (.loop type) .loop type none
  | ifBlock (type : BlockType) {condition : Expression} (isI32 : condition.type = .i32) :
      Opens (.ifBlock type) .conditional type (some condition)

def Opening.draft (o : Opening) (f : Frame) (rest : List Expression) (ls : List Layer)
    (label : Nat) :
    Draft :=
  { layers := ⟨o.frame, o.operands⟩ :: ⟨f.add o.before, rest⟩ :: ls
    temps := o.temps
    label := label + 1 }

/-- An open block after the end of one inside, which leads on if control may leave it. -/
def resumed (l : Layer) (g : Frame) : Layer :=
  let f := l.frame.add [g.toStatement]
  if g.leaves then ⟨f, l.pend ++ refs g.resultSlots g.results⟩ else ⟨f.dead, []⟩

/-- What becomes of a draft by an instruction that can be reached and is built.  The `end` of the
function is not among them. -/
inductive Step (ctx : Context) : Instruction → Draft → Draft → Prop
  | straight {i : Instruction} {f : Frame} {pend : List Expression} {ls : List Layer}
      {temps : Array Temp} {label : Nat} {o : Outcome} (live : f.unreachable = false)
      (outcome : Straight ctx (f :: ls.map Layer.frame) temps.size i pend o) :
      Step ctx i ⟨⟨f, pend⟩ :: ls, temps, label⟩ (o.draft f ls temps label)
  | enter {i : Instruction} {kind : FrameKind} {type : BlockType} {condition : Option Expression}
      {f : Frame} {pend rest params : List Expression} {ls : List Layer} {temps : Array Temp}
      {label : Nat} (live : f.unreachable = false) (opens : Opens i kind type condition)
      (operands : (settling temps.size pend).operands = rest ++ params)
      (types : params.map Expression.type = type.params) :
      Step ctx i ⟨⟨f, pend ++ condition.toList⟩ :: ls, temps, label⟩
        ((opening kind type condition params (Layer.stack (⟨f, rest⟩ :: ls)).length label
            (temps ++ (settling temps.size pend).temps.toArray)).draft
          (f.add (settling temps.size pend).statements) rest ls label)
  | second {f : Frame} {pend : List Expression} {ls : List Layer} {temps : Array Temp} {label : Nat}
      (kind : f.kind = .conditional) (first : f.firstArm = none)
      (types : f.unreachable = false → pend.map Expression.type = f.results) :
      Step ctx .elseMark ⟨⟨f, pend⟩ :: ls, temps, label⟩
        ⟨⟨secondArm (finished f pend), f.paramValues⟩ :: ls, temps, label⟩
  | leave {f : Frame} {pend : List Expression} {l : Layer} {ls : List Layer} {temps : Array Temp}
      {label : Nat} (kind : f.kind ≠ .function)
      (arms : f.kind = .conditional ∧ f.firstArm.isNone → f.params = [] ∧ f.results = [])
      (types : f.unreachable = false → pend.map Expression.type = f.results) :
      Step ctx .endMark ⟨⟨f, pend⟩ :: l :: ls, temps, label⟩
        ⟨resumed l (finished f pend) :: ls, temps, label⟩

/-! ### A step that goes well -/

theorem ofAccess_ok {α : Type} {result : Except AccessError α} {a : α} {b' : Builder}
    (h : ofAccess result b = .ok (a, b')) : result = .ok a := by
  unfold ofAccess at h
  cases result with
  | ok a' =>
    cases h
    rfl
  | error e => cases h

/-- Only known opcodes are built. -/
theorem known_of_step {i : Instruction} {r : Unit × Builder} (h : step ctx i b = .ok r) :
    i.Known := by
  have hdescribe {opcode : Nat} {access : Access} (hfound : describeAccess opcode = .ok access) :
      Access.ofOpcode? opcode = some access := by
    unfold describeAccess at hfound
    split at hfound
    · next heq => cases hfound; exact heq
    · cases hfound
  cases i with
  | numeric opcode =>
    rw [step, numeric] at h
    cases hop : NumericOp.ofOpcode? opcode with
    | none =>
      rw [hop] at h
      cases h
    | some op => exact Option.isSome_iff_exists.mpr ⟨op, hop⟩
  | load opcode arg =>
    obtain ⟨_, _, -, h⟩ := bind_ok h
    obtain ⟨base, _, -, h⟩ := bind_ok h
    obtain ⟨access, _, hfound, h⟩ := bind_ok h
    obtain ⟨e, _, hload, -⟩ := bind_ok h
    refine ⟨access, hdescribe (ofAccess_ok hfound), ?_⟩
    -- A store in the place of a load would have been refused.
    by_contra hstore
    have hmade := ofAccess_ok hload
    rw [loadOf, if_pos (Bool.not_eq_false _ ▸ hstore)] at hmade
    cases hmade
  | store opcode arg =>
    obtain ⟨_, _, -, h⟩ := bind_ok h
    obtain ⟨access, _, hfound, h⟩ := bind_ok h
    obtain ⟨value, _, -, h⟩ := bind_ok h
    obtain ⟨base, _, -, h⟩ := bind_ok h
    obtain ⟨_, _, -, h⟩ := bind_ok h
    obtain ⟨s, _, hstore, -⟩ := bind_ok h
    refine ⟨access, hdescribe (ofAccess_ok hfound), ?_⟩
    by_contra hload
    have hmade := ofAccess_ok hstore
    rw [storeOf, if_pos (by simpa using hload)] at hmade
    cases hmade
  | _ => trivial

/-- A plain instruction that is built has a signature. -/
theorem exists_signature {i : Instruction} {r : Unit × Builder} (hplain : i.isPlain)
    (h : step ctx i b = .ok r) : ∃ type, i.signature ctx.module ctx.localTypes = some type := by
  cases hsignature : i.signature ctx.module ctx.localTypes with
  | some type => exact ⟨type, rfl⟩
  | none => exact absurd h (step_fails hplain (known_of_step h) hsignature b).not_ok

/-- What goes on with an outcome is its draft. -/
theorem builder_draft (o : Outcome) (f : Frame) :
    (o.draft f ls temps label).builder pos
      = ⟨o.operands.reverse ++ Layer.stack ls,
          markedAll o.depths ((o.layer f).frame :: ls.map Layer.frame),
          temps ++ o.temps.toArray, label, pos⟩ := by
  rw [Draft.builder, Outcome.draft]
  simp only [Layer.stack_target, Layer.map_frame_target]
  rfl

theorem stacked_draft (hs : Stacked (⟨f, pend⟩ :: ls)) (o : Outcome) :
    Stacked (o.draft f ls temps label).layers := by
  have hheight : (o.layer f).frame.height = f.height := by
    unfold Outcome.layer
    dsimp only
    split <;> rfl
  have hkind : (o.layer f).frame.kind = f.kind := by
    unfold Outcome.layer
    dsimp only
    split <;> rfl
  exact (hs.top hheight hkind).target (decide <| · ∈ o.depths)

/-- An instruction that stays in a block and is built has an outcome. -/
theorem straight_of_ok {i : Instruction} (hs : Stacked (⟨f, pend⟩ :: ls)) (hend : i ≠ .endMark)
    (helse : i ≠ .elseMark) (hopens : i.opensBlock = false)
    (h : step ctx i ⟨pend.reverse ++ Layer.stack ls, f :: ls.map Layer.frame, temps, label, pos⟩
      = .ok ((), b)) :
    ∃ o, Straight ctx (f :: ls.map Layer.frame) temps.size i pend o
      ∧ b = (o.draft f ls temps label).builder pos := by
  obtain ⟨hheight, hstable⟩ := hs.innermost
  -- The plain instructions go by their signature, and all others have a lemma of their own.
  have hplain (hplain : i.isPlain) : ∃ o, Straight ctx (f :: ls.map Layer.frame) temps.size i pend o
      ∧ b = (o.draft f ls temps label).builder pos := by
    obtain ⟨type, hsignature⟩ := exists_signature hplain h
    rcases step_plain_cases (ls.map Layer.frame) pend temps label pos hsignature hheight with
      ⟨rest, es, w, rfl, hes, hw, hgives, hstep⟩ | ⟨-, hfails⟩
    · rw [hstep, accept_eq hstable] at h
      cases h
      exact ⟨_, .work hsignature hes hw hgives, by rw [builder_draft]; rfl⟩
    · exact absurd h hfails.not_ok
  cases i with
  | nop =>
    cases h
    refine ⟨_, .nop, ?_⟩
    rw [builder_draft]
    simp [markedAll, Outcome.layer]
  | drop =>
    rcases drop_cases ctx f (ls.map Layer.frame) pend temps label pos hheight hstable with
      ⟨rest, e, rfl, hstep⟩ | ⟨-, hfails⟩
    · rw [hstep] at h
      cases h
      exact ⟨_, .drop, by rw [builder_draft]; rfl⟩
    · exact absurd h hfails.not_ok
  | select =>
    rcases select_cases ctx f (ls.map Layer.frame) pend temps label pos hheight hstable with
      ⟨rest, condition, needed, rest', a, b', rfl, htype, hoperands, hsame, hquiet, hstep⟩
        | ⟨-, hfails⟩
    · rw [step, hstep] at h
      cases h
      exact ⟨_, .select htype hoperands hsame hquiet, by rw [builder_draft]; rfl⟩
    · exact absurd h hfails.not_ok
  | unreachable =>
    rw [unreachable_eq ctx f (ls.map Layer.frame) pend temps label pos hheight] at h
    cases h
    refine ⟨_, .unreachable, ?_⟩
    rw [builder_draft]
    simp [markedAll, Outcome.layer]
  | br depth =>
    rcases br_cases ctx f (ls.map Layer.frame) pend temps label pos depth hheight with
      ⟨t, rest, es, ht, rfl, hes, hstep⟩ | ⟨-, hfails⟩
    · rw [hstep] at h
      cases h
      have htarget : (f :: ls.map Layer.frame)[depth]?.map Frame.labelTypes
          = some (es.map Expression.type) := by
        rw [ht, hes]
        rfl
      refine ⟨_, .br htarget, ?_⟩
      rw [builder_draft]
      simp [Outcome.layer]
    · exact absurd h hfails.not_ok
  | ret =>
    rcases ret_cases ctx f (ls.map Layer.frame) pend temps label pos hheight with
      ⟨rest, es, rfl, hes, hstep⟩ | ⟨-, hfails⟩
    · rw [hstep] at h
      cases h
      refine ⟨_, .ret hes, ?_⟩
      rw [builder_draft]
      simp [markedAll, Outcome.layer]
    · exact absurd h hfails.not_ok
  | brIf depth =>
    rcases brIf_cases ctx f (ls.map Layer.frame) pend temps label pos depth hheight hstable with
      ⟨t, rest, condition, rest', es, ht, rfl, htype, hoperands, hes, hstep⟩ | ⟨-, hfails⟩
    · rw [hstep] at h
      cases h
      have htarget : (f :: ls.map Layer.frame)[depth]?.map Frame.labelTypes
          = some (es.map Expression.type) := by
        rw [ht, hes]
        rfl
      exact ⟨_, .brIf htype hoperands htarget, by rw [builder_draft]; rfl⟩
    · exact absurd h hfails.not_ok
  | brTable depths default =>
    rcases brTable_cases ctx f (ls.map Layer.frame) pend temps label pos depths default
      hheight hstable with
      ⟨types, rest, index, rest', es, rfl, htype, hoperands, rfl, hdefault, hdepths, hstep⟩
        | ⟨-, hfails⟩
    · rw [hstep] at h
      cases h
      have htargets : ∀ d ∈ depths ++ [default],
          (f :: ls.map Layer.frame)[d]?.map Frame.labelTypes = some (es.map Expression.type) := by
        intro d hd
        rcases List.mem_append.mp hd with hd | hd
        · exact hdepths d hd
        · rw [List.mem_singleton.mp hd]
          exact hdefault
      exact ⟨_, .brTable htype hoperands htargets, by rw [builder_draft]; rfl⟩
    · exact absurd h hfails.not_ok
  | block type => cases hopens
  | loop type => cases hopens
  | ifBlock type => cases hopens
  | elseMark => exact (helse rfl).elim
  | endMark => exact (hend rfl).elim
  | _ => exact hplain rfl

/-- An instruction that opens a block and is built takes the parameters of that block. -/
theorem enter_of_ok {i : Instruction} {kind : FrameKind} {type : BlockType}
    {condition : Option Expression} (hs : Stacked (⟨f, pend ++ condition.toList⟩ :: ls))
    (hlive : f.unreachable = false) (hopens : Opens i kind type condition)
    (h : openFrame ctx kind type condition
      ⟨pend.reverse ++ Layer.stack ls, f :: ls.map Layer.frame, temps, label, pos⟩ = .ok ((), b)) :
    ∃ d, Step ctx i ⟨⟨f, pend ++ condition.toList⟩ :: ls, temps, label⟩ d ∧ b = d.builder pos
      ∧ Stacked d.layers := by
  obtain ⟨hheight, hstable⟩ := hs.innermost
  have hkind : kind ≠ .function := by
    cases hopens <;> rintro ⟨⟩
  rcases openFrame_cases ctx f (ls.map Layer.frame) pend temps label pos kind type condition hheight
    hstable with ⟨rest, params, hoperands, htypes, hopen⟩ | ⟨-, hfails⟩
  · rw [hopen] at h
    cases h
    refine ⟨_, .enter hlive hopens hoperands htypes, ?_, ?_⟩
    · rw [Opening.draft, Frame.add_add]
      rfl
    -- The block around goes on with what is left below the parameters.
    · have houter : Stacked (⟨(f.add (settling temps.size pend).statements).add
          (opening kind type condition params (Layer.stack (⟨f, rest⟩ :: ls)).length label
            (temps ++ (settling temps.size pend).temps.toArray)).before, rest⟩ :: ls) :=
              hs.top rfl rfl
      refine .cons rfl ?_ (iff_of_false hkind (List.cons_ne_nil _ _)) houter
      have hsettled := isStable_settling temps.size pend
      rw [hoperands] at hsettled
      intro e he
      rcases List.mem_append.mp he with he | he
      · exact hsettled e (List.mem_append_left _ (List.mem_reverse.mp he))
      · exact hstable e he
  · exact absurd h hfails.not_ok

/-- An instruction that can be reached and is built takes a step, unless it is an `end`. -/
theorem step_of_ok {i : Instruction} (hs : Stacked (⟨f, pend⟩ :: ls)) (hend : i ≠ .endMark)
    (hlive : f.unreachable = true → i = .elseMark)
    (h : step ctx i ((Draft.mk (⟨f, pend⟩ :: ls) temps label).builder pos) = .ok ((), b)) :
    ∃ d, Step ctx i ⟨⟨f, pend⟩ :: ls, temps, label⟩ d ∧ b = d.builder pos ∧ Stacked d.layers := by
  obtain ⟨hheight, hstable⟩ := hs.innermost
  -- Only an `else` is looked at when control cannot get there.
  have hlive (helse : i ≠ .elseMark) : f.unreachable = false :=
    Bool.eq_false_iff.mpr fun hdead => helse (hlive hdead)
  cases i with
  | block type =>
    have hnone : Stacked (⟨f, pend ++ (none : Option Expression).toList⟩ :: ls) := hs.top rfl rfl
    have hstep := enter_of_ok hnone (hlive (by rintro ⟨⟩)) (.block type) h
    rwa [Option.toList_none, List.append_nil] at hstep
  | loop type =>
    have hnone : Stacked (⟨f, pend ++ (none : Option Expression).toList⟩ :: ls) := hs.top rfl rfl
    have hstep := enter_of_ok hnone (hlive (by rintro ⟨⟩)) (.loop type) h
    rwa [Option.toList_none, List.append_nil] at hstep
  | ifBlock type =>
    have hpop := pop_type_cases ctx (ls.map Layer.frame) pend temps label pos .i32 hheight
    rcases hpop with ⟨rest, condition, rfl, hcondition, hpop⟩ | ⟨-, hfails⟩
    · refine enter_of_ok hs (hlive (by rintro ⟨⟩)) (.ifBlock type hcondition) ?_
      exact (bind_of_ok hpop).symm.trans h
    · exact absurd h (bind_of_fails hfails).not_ok
  | elseMark =>
    rcases startElse_cases ctx f (ls.map Layer.frame) pend temps label pos hheight with
      ⟨⟨hkind, hfirst, htypes⟩, hstep⟩ | ⟨-, hfails⟩
    · cases hstep.symm.trans h
      refine ⟨_, .second hkind (Option.isNone_iff_eq_none.mp hfirst) htypes, rfl, ?_⟩
      obtain ⟨ss, hss⟩ := exists_finished f pend
      rw [hss]
      exact hs.top rfl rfl
    · exact absurd h hfails.not_ok
  | endMark => exact (hend rfl).elim
  | _ =>
    obtain ⟨o, houtcome, hb⟩ := straight_of_ok hs (by rintro ⟨⟩) (by rintro ⟨⟩) rfl h
    exact ⟨_, .straight (hlive (by rintro ⟨⟩)) houtcome, hb, stacked_draft hs o⟩

/-- What an instruction that is built leaves: the draft after a step, or the body of the function if
it closes that. -/
def Leaves (ctx : Context) (i : Instruction) (d : Draft) (pos : Nat) :
    Option (List Statement) → Builder → Prop
  | none, b => ∃ d', Step ctx i d d' ∧ b = d'.builder pos ∧ Stacked d'.layers
  | some body, b => ∃ f pend, d = ⟨[⟨f, pend⟩], b.temps, b.nextLabel⟩ ∧ f.kind = .function
      ∧ (f.unreachable = false → pend.map Expression.type = f.results) ∧ body = finishedBody f pend

theorem close_of_ok {body : Option (List Statement)} (hs : Stacked (⟨f, pend⟩ :: ls))
    (h : close ctx ((Draft.mk (⟨f, pend⟩ :: ls) temps label).builder pos) = .ok (body, b)) :
    Leaves ctx .endMark ⟨⟨f, pend⟩ :: ls, temps, label⟩ pos body b := by
  rw [close, bind_of_ok (frame_eq rfl)] at h
  cases hs with
  | cons hheight hstable hroot hrest =>
  cases hrest with
  | nil =>
    -- The last block to be closed is the function itself.
    have hkind : f.kind = .function := hroot.mpr rfl
    rw [if_pos hkind, map_eq_pure_bind] at h
    rcases closeFunction_cases ctx f [] pend temps label pos hheight with
      ⟨htypes, stack, hclose⟩ | ⟨-, hfails⟩
    · cases (bind_of_ok hclose).symm.trans h
      exact ⟨f, pend, rfl, hkind, htypes, rfl⟩
    · exact absurd h (bind_of_fails hfails).not_ok
  | @cons l ls hheight' hstable' hroot' hrest' =>
    -- There is a block around, to which the results are handed.
    have hkind : f.kind ≠ .function := fun hkind => List.cons_ne_nil _ _ (hroot.mp hkind)
    rw [if_neg hkind] at h
    rcases closeBlock_cases ctx f l.frame (ls.map Layer.frame) pend temps label pos hheight
      rfl hheight' with ⟨⟨harms, htypes⟩, hclose⟩ | ⟨-, hfails⟩
    · cases (bind_of_ok hclose).symm.trans h
      have hfinished : (finished f pend).leaves = f.leaves
          ∧ (finished f pend).resultSlots = f.resultSlots ∧ (finished f pend).results =
            f.results := by
        obtain ⟨ss, hss⟩ := exists_finished f pend
        rw [hss]
        exact ⟨rfl, rfl, rfl⟩
      refine ⟨_, .leave hkind harms htypes, ?_, ?_⟩
      · rw [Draft.builder, resumed, hfinished.1, hfinished.2.1, hfinished.2.2]
        split <;> rfl
      · have hl : Stacked (l :: ls) := .cons hheight' hstable' hroot' hrest'
        refine hl.top ?_ ?_ <;> rw [resumed] <;> split <;> rfl
    · exact absurd h (bind_of_fails hfails).not_ok

theorem instruction_of_ok {next : Located} {body : Option (List Statement)}
    (hs : Stacked (⟨f, pend⟩ :: ls)) (hlive : f.unreachable = true → next.instruction.closesBlock)
    (h : instruction ctx next ((Draft.mk (⟨f, pend⟩ :: ls) temps label).builder pos) =
      .ok (body, b)) :
    Leaves ctx next.instruction ⟨⟨f, pend⟩ :: ls, temps, label⟩ next.pos body b := by
  rw [instruction, bind_of_ok (a := ()) rfl] at h
  by_cases hend : next.instruction = .endMark
  · rw [if_pos hend] at h
    rw [hend]
    exact close_of_ok hs h
  · rw [if_neg hend] at h
    obtain ⟨_, b₁, hstep, h⟩ := bind_ok h
    cases h
    refine step_of_ok hs hend (fun hdead => ?_) hstep
    have hcloses := hlive hdead
    cases hi : next.instruction with
    | elseMark => rfl
    | endMark => exact (hend hi).elim
    | _ =>
      rw [hi] at hcloses
      cases hcloses

/-! ### Chains of steps -/

/-- What a draft becomes by any number of instructions. -/
def Steps (ctx : Context) : Draft → Draft → Prop :=
  Relation.ReflTransGen fun d d' => ∃ i, Step ctx i d d'

/-- What is kept by each step is kept by a chain of steps. -/
theorem Steps.keeps {P : Draft → Prop} {d d' : Draft} (h : Steps ctx d d')
    (hstep : ∀ {i : Instruction} {d d' : Draft}, P d → Step ctx i d d' → P d')
    (hd : P d) : P d' := by
  induction h with
  | refl => exact hd
  | tail _ hlast ih =>
    obtain ⟨i, hi⟩ := hlast
    exact hstep ih hi

/-- A body that is built is that of the function after a chain of steps. -/
theorem instructions_of_ok {body : List Statement} (next : List Located) :
    ∀ (skipped pos : Nat) (d : Draft), Stacked d.layers →
      instructions ctx next skipped (d.builder pos) = .ok (body, b) →
      ∃ f pend, Steps ctx d ⟨[⟨f, pend⟩], b.temps, b.nextLabel⟩ ∧ f.kind = .function
        ∧ (f.unreachable = false → pend.map Expression.type = f.results)
        ∧ body = finishedBody f pend := by
  -- The induction is on the code that is left: an instruction is passed over, or it makes one step.
  induction next with
  | nil =>
    intro skipped pos d _ h
    cases h
  | cons next rest ih =>
    intro skipped pos d hs h
    obtain ⟨layers, temps, label⟩ := d
    cases layers with
    | nil =>
      obtain ⟨f, b₁, hframe, -⟩ := bind_ok h
      cases hframe
    | cons l ls =>
      obtain ⟨f, pend⟩ := l
      rcases instructions_ok rfl h with ⟨s, -, h⟩ | ⟨hbuilt, h⟩
      · exact ih s pos _ hs h
      have hlive (hdead : f.unreachable = true) : next.instruction.closesBlock :=
        (closes_of_not_passes hbuilt hdead).2
      rcases h with ⟨b₁, hmade, hrest⟩ | ⟨-, -, hmade⟩
      · obtain ⟨d, hstep, rfl, hs'⟩ := instruction_of_ok hs hlive hmade
        obtain ⟨f', pend', hsteps, hends⟩ := ih _ next.pos d hs' hrest
        exact ⟨f', pend', Relation.ReflTransGen.head ⟨_, hstep⟩ hsteps, hends⟩
      · obtain ⟨f', pend', hd, hends⟩ := instruction_of_ok hs hlive hmade
        exact ⟨f', pend', hd ▸ Relation.ReflTransGen.refl, hends⟩

def rootFrame (type : FunctionType) : Frame :=
  { kind := .function, label := -1, params := type.params, results := type.results
    height := 0, resultSlots := [], paramSlots := [] }

/-- A function before anything of it is built. -/
def Draft.start (type : FunctionType) : Draft := ⟨[⟨rootFrame type, []⟩], #[], 0⟩

theorem Draft.stacked_start (type : FunctionType) : Stacked (Draft.start type).layers :=
  .cons rfl (fun _ he => absurd he List.not_mem_nil) (iff_of_true rfl rfl) .nil

end Build

open Build

/-- A function that is built has a type and a body in its module, whose instructions are built. -/
theorem exists_run_of_build {m : Module} {index : Nat} {fn : Function}
    (h : buildFunction m index = .ok fn) :
    ∃ (type : FunctionType) (body : Body) (ss : List Statement) (b : Builder),
      m.imports.size ≤ index ∧ m.bodies[index - m.imports.size]? = some body
      ∧ m.functionType? index = some type
      ∧ instructions ⟨m, index, fn.name, type, type.params.toArray ++ body.locals⟩
        body.instructions.toList 0
          ((Draft.start type).builder body.pos) = .ok (ss, b)
      ∧ fn = { fn with
          index
          params := type.params
          results := type.results
          locals := body.locals.toList
          temps := b.temps.toList
          body := ss } := by
  rw [buildFunction] at h
  split at h
  · next body type hbody htype =>
    -- Imports come first among the functions, and they have no bodies.
    have hindex : ¬ index < m.imports.size := by
      intro hlt
      rw [if_pos hlt] at hbody
      cases hbody
    rw [if_neg hindex] at hbody
    simp only [buildBody, bind, Except.bind, StateT.run] at h
    split at h
    · cases h
    · next r hrun =>
      cases h
      exact ⟨type, body, r.1, r.2, Nat.not_lt.mp hindex, hbody, htype, hrun, rfl⟩
  · cases h

/-- A function that is built has a type and a body in its module, and is what is left of them after
a chain of steps. -/
theorem exists_steps_of_build {m : Module} {index : Nat} {fn : Function}
    (h : buildFunction m index = .ok fn) :
    ∃ (type : FunctionType) (body : Body) (f : Frame) (pend : List Expression) (temps : Array Temp)
      (label : Nat),
      m.functionType? index = some type
      ∧ Steps ⟨m, index, fn.name, type, type.params.toArray ++ body.locals⟩ (Draft.start type)
          ⟨[⟨f, pend⟩], temps, label⟩
      ∧ f.kind = .function ∧ (f.unreachable = false → pend.map Expression.type = f.results)
      ∧ fn = { fn with
          index
          params := type.params
          results := type.results
          locals := body.locals.toList
          temps := temps.toList
          body := finishedBody f pend } := by
  obtain ⟨type, body, ss, b, -, -, htype, hrun, hfn⟩ := exists_run_of_build h
  obtain ⟨f, pend, hsteps, hkind, htypes, rfl⟩ :=
    instructions_of_ok _ 0 _ (Draft.start type) (Draft.stacked_start type) hrun
  exact ⟨type, body, f, pend, _, _, htype, hsteps, hkind, htypes, hfn⟩

end WasmScript.IR
