/-
  WasmScript/Proofs/IR/Faults.lean
  ================================
  **Faults of bodies** — what may be found wrong with a body that was read from bytes.

  Some faults cannot be found any more: reading has seen to it that a body is closed by its
  last instruction, that the functions which it calls exist and that its opcodes are known.
  What is left is a `BodyFault`, and it always names the function that is being built.

  `Goes ctx kinds x kinds'` says of a step of a build that it leads from open blocks of some
  kinds to open blocks of some kinds, unless it finds such a fault.  Of the blocks only their
  kinds matter: a build runs out of blocks where the `end` of the function is, and nowhere
  else.
-/
import WasmScript.Proofs.IR.Acceptance

namespace WasmScript

namespace IR

/-! ### Faults -/

/-- Whether a cause is one that reading a module does not rule out. -/
def BuildCause.OfBody {τ ι : Type} : BuildCause τ ι → Prop
  | .unterminated | .trailing | .noBody _ | .unknownFunction _ | .noOperator _ => False
  | _ => True

/-- The numbers of the faults that no body has which was read from bytes. -/
def excludedCodes : List Nat :=
  [DiagnosticCode.unterminatedBody.number, DiagnosticCode.trailingInstructions.number,
   DiagnosticCode.unknownFunction.number, DiagnosticCode.internalCompilerError.number]

theorem BuildCause.OfBody.code_not_mem {τ ι : Type} {c : BuildCause τ ι} (h : c.OfBody) :
    c.code ∉ excludedCodes := by
  cases c with
  | unterminated => exact h.elim
  | trailing => exact h.elim
  | noBody function => exact h.elim
  | unknownFunction function => exact h.elim
  | noOperator opcode => exact h.elim
  | _ => simp [code, excludedCodes, DiagnosticCode.number]

/-- A fault that is found in the body of a function. -/
structure BuildError.InBody (index : Nat) (name : Option String) (e : BuildError) : Prop where
  functionIndex : e.functionIndex = index
  functionName : e.functionName = name
  cause : e.cause.OfBody

/-- A build that ends with a fault of the body. -/
def BuildFailure.InBody (index : Nat) (name : Option String) : BuildFailure → Prop
  | .invalid e => e.InBody index name
  | .access _ => False

namespace Build

variable {α β : Type} {ctx : Context} {kind : FrameKind} {kinds kinds' kinds'' : List FrameKind}

/-- A step leads from open blocks of some kinds to open blocks of some kinds, unless it finds a
fault of the body. -/
def Goes (ctx : Context) (kinds : List FrameKind) (x : Build α) (kinds' : List FrameKind) : Prop :=
  ∀ b, b.frames.map Frame.kind = kinds → match x b with
    | .ok (_, b') => b'.frames.map Frame.kind = kinds'
    | .error e => e.InBody ctx.index ctx.name

namespace Goes

theorem bind {x : Build α} {k : α → Build β} (hx : Goes ctx kinds x kinds')
    (hk : ∀ a, Goes ctx kinds' (k a) kinds'') : Goes ctx kinds (x >>= k) kinds'' := by
  intro b hb
  have h := hx b hb
  cases hr : x b with
  | error e =>
    rw [hr] at h
    simp only [Bind.bind, StateT.bind, hr, Except.bind]
    exact h
  | ok r =>
    rw [hr] at h
    rw [bind_of_ok (a := r.1) (c := r.2) hr]
    exact hk r.1 r.2 h

theorem pure (a : α) : Goes ctx kinds (pure a) kinds := fun _ hb => hb

theorem get : Goes ctx kinds get kinds := fun _ hb => hb

theorem fail {cause : BuildCause ValueType Nat} (h : cause.OfBody) :
    Goes ctx kinds (fail ctx cause : Build α) kinds' := fun _ _ => ⟨rfl, rfl, h⟩

theorem require {holds : Prop} [Decidable holds] {cause : BuildCause ValueType Nat}
    (h : cause.OfBody) :
    Goes ctx kinds (require ctx holds cause) kinds := by
  unfold Build.require
  split
  · exact pure ()
  · exact fail h

theorem map {x : Build α} (f : α → β) (hx : Goes ctx kinds x kinds') :
    Goes ctx kinds (f <$> x) kinds' := by
  rw [map_eq_pure_bind]
  exact hx.bind fun a => pure (f a)

theorem mapM {f : α → Build β} {as : List α} (h : ∀ a ∈ as, Goes ctx kinds (f a) kinds) :
    Goes ctx kinds (as.mapM f) kinds := by
  induction as with
  | nil => exact pure []
  | cons a as ih =>
    obtain ⟨ha, has⟩ := List.forall_mem_cons.mp h
    rw [List.mapM_cons]
    exact ha.bind fun b => (ih has).bind fun bs => pure (b :: bs)

theorem forM {f : α → Build PUnit} {as : List α} (h : ∀ a ∈ as, Goes ctx kinds (f a) kinds) :
    Goes ctx kinds (as.forM f) kinds := by
  induction as with
  | nil => exact pure PUnit.unit
  | cons a as ih =>
    obtain ⟨ha, has⟩ := List.forall_mem_cons.mp h
    exact ha.bind fun _ => ih has

end Goes

/-! ### Blocks and temporaries -/

theorem exists_frames {b : Builder} (hb : b.frames.map Frame.kind = kind :: kinds) :
    ∃ f fs, b.frames = f :: fs ∧ f.kind = kind ∧ fs.map Frame.kind = kinds := by
  obtain ⟨f, fs, hframes, hkind, hrest⟩ := List.map_eq_cons_iff.mp hb
  exact ⟨f, fs, hframes, hkind, hrest⟩

theorem goes_frame : Goes ctx (kind :: kinds) (frame ctx) (kind :: kinds) := by
  intro b hb
  obtain ⟨f, fs, hframes, -, -⟩ := exists_frames hb
  rw [frame_eq hframes]
  exact hb

theorem goes_modifyFrame {change : Frame → Frame} (h : ∀ f, (change f).kind = f.kind) :
    Goes ctx kinds (modifyFrame change) kinds := by
  rintro ⟨stack, frames, temps, label, pos⟩ rfl
  cases frames with
  | nil => exact rfl
  | cons f fs =>
    change (change f).kind :: fs.map Frame.kind = f.kind :: fs.map Frame.kind
    rw [h]

theorem goes_emit (s : Statement) : Goes ctx (kind :: kinds) (emit ctx s) (kind :: kinds) :=
  goes_frame.bind fun _ => goes_modifyFrame fun _ => rfl

theorem goes_cut (height : Nat) : Goes ctx kinds (cut height) kinds := fun _ hb => hb

theorem goes_markUnreachable : Goes ctx (kind :: kinds) (markUnreachable ctx) (kind :: kinds) :=
  goes_frame.bind fun _ => Goes.bind (goes_modifyFrame fun _ => rfl) fun _ => goes_cut _

theorem goes_target (depth : Nat) : Goes ctx kinds (target ctx depth) kinds := by
  refine Goes.get.bind fun b => ?_
  dsimp only
  split
  · exact .pure _
  · exact .fail trivial

theorem goes_branch (depth : Nat) (values : List Expression) :
    Goes ctx kinds (branch ctx depth values) kinds := by
  refine (goes_target depth).bind fun f => ?_
  refine Goes.bind ?_ fun _ => (Goes.pure _ : Goes ctx kinds _ kinds)
  intro b hb
  have hkinds : (b.frames.modify depth fun f => { f with targeted := true }).map Frame.kind
      = b.frames.map Frame.kind := by
    refine List.ext_getElem? fun i => ?_
    rw [List.getElem?_map, List.getElem?_map, List.getElem?_modify]
    cases b.frames[i]? with
    | none => rfl
    | some g => by_cases hdepth : depth = i <;> simp [hdepth]
  exact hkinds.trans hb

theorem goes_newTemp (kind : TempKind) (type : ValueType) :
    Goes ctx kinds (newTemp kind type) kinds :=
  fun _ hb => hb

theorem goes_newTemps (kind : TempKind) (types : List ValueType) :
    Goes ctx kinds (types.mapM (newTemp kind)) kinds := .mapM fun type _ => goes_newTemp kind type

/-! ### Operands -/

theorem goes_push (e : Expression) : Goes ctx kinds (push e) kinds := fun _ hb => hb

theorem goes_pushAll (es : List Expression) : Goes ctx kinds (pushAll es) kinds := fun _ hb => hb

theorem goes_pop (expected : Option ValueType) :
    Goes ctx (kind :: kinds) (pop ctx expected) (kind :: kinds) := by
  intro b hb
  obtain ⟨f, fs, hframes, -, -⟩ := exists_frames hb
  rw [pop, bind_of_ok (frame_eq hframes), bind_of_ok (a := b) (c := b) rfl]
  have hfails {cause : BuildCause ValueType Nat} (h : cause.OfBody) :
      Goes (α := Expression) ctx (kind :: kinds) (fail ctx cause) (kind :: kinds) := .fail h
  -- Operands below the height belong to the blocks around.
  by_cases hlow : b.stack.length ≤ f.height
  · rw [if_pos hlow]
    exact hfails (by trivial) b hb
  rw [if_neg hlow]
  cases b.stack with
  | nil => exact hfails (by trivial) b hb
  | cons e rest =>
    dsimp only
    rw [bind_of_ok (a := ()) (c := { b with stack := rest }) rfl]
    cases expected with
    | none => exact hb
    | some type =>
      dsimp only
      by_cases htype : e.type = type
      · rw [if_pos htype]
        exact hb
      · rw [if_neg htype]
        exact hfails (by trivial) { b with stack := rest } hb

theorem goes_popInto (types : List ValueType) :
    ∀ popped, Goes ctx (kind :: kinds) (popInto ctx types popped) (kind :: kinds) := by
  induction types with
  | nil => exact fun popped => .pure popped
  | cons type types ih => exact fun popped => (goes_pop _).bind fun e => ih _

theorem goes_popValues (types : List ValueType) :
    Goes ctx (kind :: kinds) (popValues ctx types) (kind :: kinds) := goes_popInto _ _

theorem goes_peekValues (types : List ValueType) :
    Goes ctx (kind :: kinds) (peekValues ctx types) (kind :: kinds) :=
  (goes_popValues types).bind fun _ => (goes_pushAll _).bind fun _ => .pure _

theorem goes_settle (e : Expression) : Goes ctx (kind :: kinds) (settle ctx e) (kind :: kinds) := by
  unfold settle
  split
  · exact .pure _
  · exact (goes_newTemp _ _).bind fun _ => (goes_emit _).bind fun _ => .pure _

theorem goes_flush : Goes ctx (kind :: kinds) (flush ctx) (kind :: kinds) := by
  refine Goes.get.bind fun b => Goes.bind (.mapM fun e _ => goes_settle e) fun settled => ?_
  exact fun _ hb => hb

theorem goes_flushIf (needed : Bool) :
    Goes ctx (kind :: kinds) (flushIf ctx needed) (kind :: kinds) := by
  unfold flushIf
  split
  · exact goes_flush
  · exact .pure ()

theorem goes_emitEffects (e : Expression) :
    Goes ctx (kind :: kinds) (emitEffects ctx e) (kind :: kinds) := by
  unfold emitEffects
  split
  · exact goes_emit _
  · exact .pure _

theorem goes_discard : Goes ctx (kind :: kinds) (discard ctx) (kind :: kinds) := by
  refine goes_frame.bind fun f => Goes.get.bind fun b => ?_
  exact Goes.bind (.forM fun e _ => goes_emitEffects e) fun _ => goes_cut _

/-! ### What instructions refer to -/

theorem goes_localType (index : Nat) : Goes ctx kinds (localType ctx index) kinds := by
  unfold localType
  split
  · exact .pure _
  · exact .fail trivial

theorem goes_globalAt (index : Nat) : Goes ctx kinds (globalAt ctx index) kinds := by
  unfold globalAt
  split
  · exact .pure _
  · exact .fail trivial

theorem goes_calleeType {index : Nat} (h : (ctx.module.functionType? index).isSome) :
    Goes ctx kinds (calleeType ctx index) kinds := by
  obtain ⟨type, htype⟩ := Option.isSome_iff_exists.mp h
  rw [calleeType_eq htype]
  exact .pure type

theorem goes_requireMemory : Goes ctx kinds (requireMemory ctx) kinds := .require (by trivial)

theorem goes_ofAccess {result : Except AccessError α} {a : α} (h : result = .ok a) :
    Goes ctx kinds (ofAccess result) kinds := by
  subst h
  exact fun _ hb => hb

/-! ### Blocks that are opened and closed -/

theorem goes_assign (slots : List Nat) (values : List Expression) :
    Goes ctx (kind :: kinds) (assign ctx slots values) (kind :: kinds) := by
  unfold assign
  split
  · exact .pure ()
  · exact goes_emit _

theorem goes_openFrame (opened : FrameKind) (type : BlockType) (condition : Option Expression) :
    Goes ctx (kind :: kinds) (openFrame ctx opened type condition) (opened :: kind :: kinds) := by
  refine goes_flush.bind fun _ => (goes_popValues _).bind fun params => ?_
  -- The number of the label is taken together with the height of the stack.
  intro b hb
  rw [bind_of_ok (a := b) (c := b) rfl]
  dsimp only
  rw [bind_of_ok (a := ()) (c := { b with nextLabel := b.nextLabel + 1 }) rfl]
  revert hb
  suffices hrest : Goes ctx (kind :: kinds) _ (opened :: kind :: kinds) from
    fun hb => hrest { b with nextLabel := b.nextLabel + 1 } hb
  refine (goes_newTemps _ _).bind fun resultSlots => (goes_newTemps _ _).bind fun paramSlots => ?_
  refine (goes_assign _ _).bind fun _ => Goes.bind ?_ fun _ =>
    (goes_pushAll _ : Goes ctx (opened :: kind :: kinds) _ _)
  exact fun _ hb => congrArg (opened :: ·) hb

theorem goes_popResults (f : Frame) :
    Goes ctx (kind :: kinds) (popResults ctx f) (kind :: kinds) :=
  (goes_popValues _).bind fun _ => Goes.get.bind fun _ =>
    (Goes.require (by trivial)).bind fun _ => .pure _

theorem goes_ifReached {f : Frame} {x : Build Unit} (h : Goes ctx kinds x kinds) :
    Goes ctx kinds (ifReached f x) kinds := by
  unfold ifReached
  split
  · exact .pure ()
  · exact h

theorem goes_assignResults (f : Frame) :
    Goes ctx (kind :: kinds) (assignResults ctx f) (kind :: kinds) :=
  (goes_popResults f).bind fun _ => goes_assign _ _

theorem goes_startElse : Goes ctx (kind :: kinds) (startElse ctx) (kind :: kinds) :=
  goes_frame.bind fun f => (Goes.require (by trivial)).bind fun _ =>
    (goes_ifReached (goes_assignResults f)).bind fun _ => (goes_cut _).bind fun _ =>
      (goes_pushAll _).bind fun _ => goes_modifyFrame fun _ => rfl

theorem goes_popFrame : Goes ctx (kind :: kinds) (popFrame ctx) kinds := by
  refine goes_frame.bind fun f => Goes.bind ?_ fun _ => (Goes.pure f : Goes ctx kinds _ kinds)
  intro b hb
  change (b.frames.tail).map Frame.kind = kinds
  rw [List.map_tail, hb]
  rfl

theorem goes_closeFunction (f : Frame) : Goes ctx (kind :: kinds) (closeFunction ctx f) kinds := by
  refine (goes_ifReached ((goes_popResults f).bind fun values => ?_)).bind fun _ =>
    goes_popFrame.bind fun _ => .pure _
  split
  · exact .pure ()
  · exact goes_emit _

theorem goes_closeBlock {outer : FrameKind} (f : Frame) :
    Goes ctx (kind :: outer :: kinds) (closeBlock ctx f) (outer :: kinds) := by
  refine (Goes.require (by trivial)).bind fun _ =>
    (goes_ifReached (goes_assignResults f)).bind fun _ => ?_
  refine goes_popFrame.bind fun closed => (goes_cut _).bind fun _ => (goes_emit _).bind fun _ => ?_
  split
  · exact goes_pushAll _
  · exact goes_markUnreachable

/-! ### Instructions -/

theorem goes_numeric {opcode : Nat} (h : (NumericOp.ofOpcode? opcode).isSome) :
    Goes ctx (kind :: kinds) (numeric ctx opcode) (kind :: kinds) := by
  obtain ⟨op, hop⟩ := Option.isSome_iff_exists.mp h
  unfold numeric
  rw [hop]
  dsimp only
  split
  · exact (goes_pop _).bind fun _ => goes_push _
  · exact (goes_pop _).bind fun _ => (goes_pop _).bind fun _ => goes_push _
  · exact (goes_pop _).bind fun _ => goes_push _
  · exact (goes_pop _).bind fun _ => goes_push _
  · exact (goes_pop _).bind fun _ => (goes_pop _).bind fun _ => goes_push _

theorem goes_select : Goes ctx (kind :: kinds) (select ctx) (kind :: kinds) :=
  (goes_pop _).bind fun _ => Goes.get.bind fun _ => (goes_flushIf _).bind fun _ =>
    (goes_pop _).bind fun _ => (goes_pop _).bind fun _ => goes_push _

theorem goes_call {index : Nat} (h : (ctx.module.functionType? index).isSome) :
    Goes ctx (kind :: kinds) (call ctx index) (kind :: kinds) := by
  refine (goes_calleeType h).bind fun type => (goes_popValues _).bind fun args => ?_
  split
  · exact goes_push _
  · exact goes_flush.bind fun _ => goes_emit _
  · exact goes_flush.bind fun _ => (goes_newTemps _ _).bind fun _ => (goes_emit _).bind fun _ =>
      goes_pushAll _

theorem goes_branchTable (depths : List Nat) (default : Nat) :
    Goes ctx (kind :: kinds) (branchTable ctx depths default) (kind :: kinds) := by
  refine (goes_pop _).bind fun _ => goes_flush.bind fun _ => (goes_target _).bind fun f => ?_
  refine Goes.bind (.forM fun depth _ => (goes_target _).bind fun _ => .require (by trivial))
    fun _ => ?_
  refine (goes_popValues _).bind fun values =>
    Goes.bind (.mapM fun depth _ => goes_branch _ _) fun _ => ?_
  exact (goes_branch _ _).bind fun _ => (goes_emit _).bind fun _ => goes_markUnreachable

theorem goes_load {opcode functions : Nat} (arg : MemArg)
    (h : (Instruction.load opcode arg).WellFormed functions) :
    Goes ctx (kind :: kinds) (step ctx (.load opcode arg)) (kind :: kinds) := by
  obtain ⟨access, haccess, hload, -⟩ := h
  have hdescribe : describeAccess opcode = .ok access := by rw [describeAccess, haccess]
  rw [step]
  refine goes_requireMemory.bind fun _ => (goes_pop _).bind fun base => ?_
  rw [hdescribe, ofAccess_bind]
  exact (goes_ofAccess (loadOf_eq hload)).bind fun _ => goes_push _

theorem goes_store {opcode functions : Nat} (arg : MemArg)
    (h : (Instruction.store opcode arg).WellFormed functions) :
    Goes ctx (kind :: kinds) (step ctx (.store opcode arg)) (kind :: kinds) := by
  obtain ⟨access, haccess, hstore, -⟩ := h
  have hdescribe : describeAccess opcode = .ok access := by rw [describeAccess, haccess]
  rw [step]
  refine goes_requireMemory.bind fun _ => ?_
  rw [hdescribe, ofAccess_bind]
  refine (goes_pop _).bind fun value => (goes_pop _).bind fun base => goes_flush.bind fun _ => ?_
  exact (goes_ofAccess (storeOf_eq hstore)).bind fun _ => goes_emit _

def opens : Instruction → List FrameKind
  | .block _ => [.block]
  | .loop _ => [.loop]
  | .ifBlock _ => [.conditional]
  | _ => []

theorem length_opens (i : Instruction) : (opens i).length = if i.opensBlock then 1 else 0 := by
  cases i <;> rfl

theorem function_not_mem_opens (i : Instruction) : .function ∉ opens i := by
  cases i <;> simp [opens]

/-- An instruction opens a block, or leaves the open blocks as they are, or has a fault of the
body. -/
theorem goes_step {i : Instruction} (hwell : i.WellFormed ctx.module.functionCount)
    (hcalls : ∀ index < ctx.module.functionCount, (ctx.module.functionType? index).isSome) :
    Goes ctx (kind :: kinds) (step ctx i) (opens i ++ kind :: kinds) := by
  -- A step is made of operations that keep the open blocks, but for those that open and close them.
  cases i with
  | nop => exact .pure ()
  | endMark => exact .pure ()
  | unreachable => exact goes_discard.bind fun _ => (goes_emit _).bind fun _ => goes_markUnreachable
  | block type => exact goes_openFrame _ _ _
  | loop type => exact goes_openFrame _ _ _
  | ifBlock type => exact (goes_pop _).bind fun _ => goes_openFrame _ _ _
  | elseMark => exact goes_startElse
  | br depth =>
    exact (goes_target _).bind fun _ => (goes_popValues _).bind fun _ => goes_discard.bind fun _ =>
      (goes_branch _ _).bind fun _ => (goes_emit _).bind fun _ => goes_markUnreachable
  | brIf depth =>
    exact (goes_pop _).bind fun _ => goes_flush.bind fun _ => (goes_target _).bind fun _ =>
      (goes_peekValues _).bind fun _ => (goes_branch _ _).bind fun _ => goes_emit _
  | brTable depths default => exact goes_branchTable _ _
  | ret =>
    exact (goes_popValues _).bind fun _ => goes_discard.bind fun _ => (goes_emit _).bind fun _ =>
      goes_markUnreachable
  | call index => exact goes_call (hcalls index hwell)
  | drop =>
    refine (goes_pop _).bind fun value => ?_
    split
    · exact goes_flush.bind fun _ => goes_emit _
    · exact .pure _
  | select => exact goes_select
  | localGet index => exact (goes_localType _).bind fun _ => goes_push _
  | localSet index =>
    exact (goes_localType _).bind fun _ => (goes_pop _).bind fun _ => goes_flush.bind fun _ =>
      goes_emit _
  | localTee index => exact (goes_localType _).bind fun _ => (goes_pop _).bind fun _ => goes_push _
  | globalGet index => exact (goes_globalAt _).bind fun _ => goes_push _
  | globalSet index =>
    exact (goes_globalAt _).bind fun _ => (Goes.require (by trivial)).bind fun _ =>
      (goes_pop _).bind fun _ => goes_flush.bind fun _ => goes_emit _
  | const value => exact goes_push _
  | numeric opcode => exact goes_numeric hwell
  | load opcode arg => exact goes_load arg hwell
  | store opcode arg => exact goes_store arg hwell
  | memorySize => exact goes_requireMemory.bind fun _ => goes_push _
  | memoryGrow => exact goes_requireMemory.bind fun _ => (goes_pop _).bind fun _ => goes_push _
  | memoryCopy =>
    exact goes_requireMemory.bind fun _ => (goes_pop _).bind fun _ => (goes_pop _).bind fun _ =>
      (goes_pop _).bind fun _ => goes_flush.bind fun _ => goes_emit _
  | memoryFill =>
    exact goes_requireMemory.bind fun _ => (goes_pop _).bind fun _ => (goes_pop _).bind fun _ =>
      (goes_pop _).bind fun _ => goes_flush.bind fun _ => goes_emit _

variable (ctx) in
/-- An `end` closes the function where no block is open any more, and else a block. -/
theorem goes_close {inner : List FrameKind} (hinner : .function ∉ inner) {b : Builder}
    (hb : b.frames.map Frame.kind = inner ++ [.function]) :
    match close ctx b with
      | .ok (closed, b') => (inner = [] ∧ closed ≠ none) ∨
          (∃ kind rest, inner = kind :: rest ∧ closed = none
            ∧ b'.frames.map Frame.kind = rest ++ [.function])
      | .error e => e.InBody ctx.index ctx.name := by
  cases inner with
  | nil =>
    obtain ⟨f, fs, hframes, hkind, -⟩ := exists_frames hb
    rw [close, bind_of_ok (frame_eq hframes), if_pos hkind]
    have hgoes : Goes ctx [.function] (closeFunction ctx f) [] := goes_closeFunction f
    have hclose := hgoes.map some b hb
    cases hr : (some <$> closeFunction ctx f : Build (Option (List Statement))) b with
    | error e =>
      rw [hr] at hclose
      exact hclose
    | ok r =>
      refine .inl ⟨rfl, fun hnone => ?_⟩
      rw [map_eq_pure_bind] at hr
      obtain ⟨body, b', -, heq⟩ := bind_ok hr
      cases heq
      cases hnone
  | cons kind rest =>
    obtain ⟨f, fs, hframes, hkind, -⟩ := exists_frames hb
    have hblock : f.kind ≠ .function :=
      fun h => hinner (by rw [← hkind, h]; exact List.mem_cons_self)
    -- A block that is not the function has another one around it.
    obtain ⟨outer, kinds, houter⟩ :=
      List.exists_cons_of_ne_nil (List.append_ne_nil_of_right_ne_nil rest
        (List.cons_ne_nil FrameKind.function []))
    have hshape : b.frames.map Frame.kind = kind :: outer :: kinds := by
      rw [hb, List.cons_append, houter]
    have hclose : Goes ctx (kind :: outer :: kinds) (closeBlock ctx f) (outer :: kinds) :=
      goes_closeBlock f
    have hafter := hclose b hshape
    rw [close, bind_of_ok (frame_eq hframes), if_neg hblock]
    cases hr : closeBlock ctx f b with
    | error e =>
      rw [hr] at hafter
      simp only [bind, StateT.bind, hr, Except.bind]
      exact hafter
    | ok r =>
      rw [hr] at hafter
      rw [bind_of_ok (a := r.1) (c := r.2) hr]
      exact .inr ⟨kind, rest, rfl, rfl, houter ▸ hafter⟩

theorem goes_instruction {next : Located} (hend : next.instruction ≠ .endMark)
    (hwell : next.instruction.WellFormed ctx.module.functionCount)
    (hcalls : ∀ index < ctx.module.functionCount, (ctx.module.functionType? index).isSome)
    {b : Builder} (hb : b.frames.map Frame.kind = kind :: kinds) :
    match instruction ctx next b with
      | .ok (closed, b') =>
        closed = none ∧ b'.frames.map Frame.kind = opens next.instruction ++ kind :: kinds
      | .error e => e.InBody ctx.index ctx.name := by
  have hstep :
      Goes ctx (kind :: kinds) (step ctx next.instruction)
        (opens next.instruction ++ kind :: kinds) :=
    goes_step hwell hcalls
  have hafter := hstep { b with pos := next.pos } hb
  rw [instruction, bind_of_ok (a := ()) rfl, if_neg hend]
  cases hr : step ctx next.instruction { b with pos := next.pos } with
  | error e =>
    rw [hr] at hafter
    simp only [bind, StateT.bind, hr, Except.bind]
    exact hafter
  | ok r =>
    rw [hr] at hafter
    rw [bind_of_ok (a := r.1) (c := r.2) hr]
    exact ⟨rfl, hafter⟩

/-! ### Bodies -/

/-- Whatever is found wrong with instructions whose last one closes the function is a fault of the
body. Only an instruction that is reached can be at fault, and only the last one closes the
function. -/
theorem inBody_of_instructions
    (hcalls : ∀ index < ctx.module.functionCount, (ctx.module.functionType? index).isSome)
    (ls : List Located) :
    ∀ (skipped : Nat) (inner : List FrameKind) (b : Builder),
      b.frames.map Frame.kind = inner ++ [.function] → .function ∉ inner →
      (∀ l ∈ ls, l.instruction.WellFormed ctx.module.functionCount) →
      Instruction.closes (inner.length + skipped) (ls.map Located.instruction) →
      (skipped = 0 ∨ ∀ f ∈ b.frames.head?, f.unreachable = true) →
      ∀ e, instructions ctx ls skipped b = .error e → e.InBody ctx.index ctx.name := by
  -- The induction is on the code: the open blocks are in the function, and what is left closes them
  -- all.
  induction ls with
  | nil =>
    intro skipped inner b _ _ _ hcloses
    rw [List.map_nil, Instruction.closes] at hcloses
    cases hcloses
  | cons next rest ih =>
    intro skipped inner b hkinds hinner hwell hcloses hskipped e he
    obtain ⟨hnext, hrest⟩ := List.forall_mem_cons.mp hwell
    obtain ⟨kind, kinds, hcons⟩ :=
      List.exists_cons_of_ne_nil (List.append_ne_nil_of_right_ne_nil inner
        (List.cons_ne_nil FrameKind.function []))
    obtain ⟨f, fs, hframes, -, -⟩ := exists_frames (hkinds.trans hcons)
    have hskipped : skipped = 0 ∨ f.unreachable = true := by
      rw [hframes] at hskipped
      exact hskipped.imp_right fun h => h f rfl
    rw [List.map_cons] at hcloses
    cases hpasses : passes f.unreachable next.instruction skipped with
    | some s =>
      obtain ⟨hdead, hpassed⟩ := passed_of_passes hpasses
      rw [instructions_of_passes hframes hpasses] at he
      refine ih s inner b hkinds hinner hrest (closes_of_passed hpassed hcloses) (.inr ?_) e he
      rw [hframes]
      rintro _ ⟨⟩
      exact hdead
    | none =>
      obtain rfl := skipped_of_not_passes hpasses hskipped
      rw [instructions_of_not_passes hframes hpasses, building] at he
      by_cases hend : next.instruction = .endMark
      · have hclose := goes_close ctx (b := { b with pos := next.pos }) hinner hkinds
        have hsame : instruction ctx next b = close ctx { b with pos := next.pos } := by
          rw [instruction, bind_of_ok (a := ()) rfl, if_pos hend]
        rw [← hsame] at hclose
        rw [hend] at hcloses
        cases hr : instruction ctx next b with
        | error e' =>
          rw [hr] at hclose
          simp only [bind, StateT.bind, hr, Except.bind] at he
          cases he
          exact hclose
        | ok r =>
          obtain ⟨closed, b'⟩ := r
          rw [hr] at hclose
          rw [bind_of_ok hr] at he
          rcases hclose with ⟨rfl, hsome⟩ | ⟨kind', inner', rfl, rfl, hkinds'⟩
          · obtain ⟨body, rfl⟩ := Option.ne_none_iff_exists'.mp hsome
            obtain rfl : rest = [] := by simpa [Instruction.closes] using hcloses
            cases he
          · exact ih 0 inner' b' hkinds' (fun h => hinner (List.mem_cons_of_mem _ h)) hrest hcloses
              (.inl rfl) e he
      · have hstep := goes_instruction hend hnext hcalls (hkinds.trans hcons)
        cases hr : instruction ctx next b with
        | error e' =>
          rw [hr] at hstep
          simp only [bind, StateT.bind, hr, Except.bind] at he
          cases he
          exact hstep
        | ok r =>
          obtain ⟨closed, b'⟩ := r
          rw [hr] at hstep
          obtain ⟨rfl, hkinds'⟩ := hstep
          rw [bind_of_ok hr] at he
          refine ih 0 (opens next.instruction ++ inner) b' ?_ ?_ hrest ?_ (.inl rfl) e he
          · rw [hkinds', ← hcons, List.append_assoc]
          · rw [List.mem_append, not_or]
            exact ⟨function_not_mem_opens _, hinner⟩
          · rw [Instruction.closes_cons hend] at hcloses
            rw [List.length_append, length_opens]
            split at hcloses <;> simp_all [Nat.add_comm]

end Build

end IR

end WasmScript
