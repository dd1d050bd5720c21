/-
  WasmScript/Proofs/IR/Offsets.lean
  =================================
  **Offsets while a body is built** — that they show in faults and nowhere else.

  A build keeps the offset of the instruction it is at, for the case that something is wrong with
  it.  Moving all offsets moves those of the faults, and nothing else comes of it:
  `buildFunction_moved` and `buildModule_moved`.

  `Build.Moves f x y` says this of two steps that differ in offsets; the steps below do not even
  do that (`Build.Placeless`).
-/
import WasmScript.Proofs.IR.OtherBodies
import WasmScript.Proofs.Module.Moving

namespace WasmScript.IR

def BuildFailure.moved (f : Nat → Nat) : BuildFailure → BuildFailure
  | .invalid e => .invalid { e with offset := f e.offset }
  | .access e => .access e

def Builder.moved (f : Nat → Nat) (b : Builder) : Builder := { b with pos := f b.pos }

namespace Build

variable {α β : Type} {f : Nat → Nat} {ctx : Context}

/-- What comes of a step, with its offset moved. -/
def outcome (f : Nat → Nat) : Except BuildFailure (α × Builder) → Except BuildFailure (α × Builder)
  | .ok (a, b) => .ok (a, b.moved f)
  | .error e => .error (e.moved f)

/-- A step and its counterpart where offsets are moved. -/
def Moves (f : Nat → Nat) (x y : Build α) : Prop := ∀ b, y (b.moved f) = outcome f (x b)

/-- A step that takes its offset from the state and has no use for it but in faults. -/
def Placeless (x : Build α) : Prop := ∀ f, Moves f x x

theorem Moves.bind {x y : Build α} {k l : α → Build β} (hx : Moves f x y)
    (hk : ∀ a, Moves f (k a) (l a)) :
    Moves f (x >>= k) (y >>= l) := by
  intro b
  change Except.bind (y (b.moved f)) (fun r => l r.1 r.2) =
    outcome f (Except.bind (x b) fun r => k r.1 r.2)
  rw [hx b]
  cases x b with
  | error e => rfl
  | ok r => exact hk r.1 r.2

theorem Moves.get {k l : Builder → Build β} (hk : ∀ b, Moves f (k b) (l (b.moved f))) :
    Moves f (get >>= k) (get >>= l) := fun b => hk b b

theorem Moves.pure (a : α) : Moves f (pure a) (pure a) := fun _ => rfl

theorem Moves.ite {c : Prop} [Decidable c] {x x' y y' : Build α} (hx : Moves f x y)
    (hx' : Moves f x' y') :
    Moves f (if c then x else x') (if c then y else y') := by
  split
  · exact hx
  · exact hx'

namespace Placeless

theorem bind {x : Build α} {k : α → Build β} (hx : Placeless x) (hk : ∀ a, Placeless (k a)) :
    Placeless (x >>= k) :=
  fun f => (hx f).bind fun a => hk a f

theorem pure (a : α) : Placeless (pure a) := fun _ => .pure a

theorem fail (cause : BuildCause ValueType Nat) : Placeless (fail ctx cause : Build α) :=
  fun _ _ => rfl

theorem require {holds : Prop} [Decidable holds] (cause : BuildCause ValueType Nat) :
    Placeless (require ctx holds cause) := by
  unfold Build.require
  split
  · exact pure ()
  · exact fail cause

theorem ofAccess (result : Except AccessError α) : Placeless (ofAccess result) := by
  intro f b
  cases result <;> rfl

/-- What reads the state reads it without the offset. -/
theorem read {k : Builder → Build β} (hk : ∀ b, Placeless (k b))
    (hsame : ∀ f b, k (b.moved f) = k b) :
    Placeless (get >>= k) := by
  intro f b
  change k (b.moved f) (b.moved f) = outcome f (k b b)
  rw [hsame]
  exact hk b f b

theorem map {x : Build α} (g : α → β) (hx : Placeless x) : Placeless (g <$> x) := by
  rw [map_eq_pure_bind]
  exact hx.bind fun a => pure (g a)

theorem mapM {g : α → Build β} (h : ∀ a, Placeless (g a)) : ∀ as : List α, Placeless (as.mapM g)
  | [] => pure []
  | a :: as => by
    rw [List.mapM_cons]
    exact (h a).bind fun b => (mapM h as).bind fun bs => pure (b :: bs)

theorem forM {g : α → Build PUnit} (h : ∀ a, Placeless (g a)) : ∀ as : List α, Placeless (as.forM g)
  | [] => pure PUnit.unit
  | a :: as => (h a).bind fun _ => forM h as

end Placeless

/-! ### Blocks and temporaries -/

theorem placeless_frame : Placeless (frame ctx) := by
  refine .read (fun b => ?_) fun f b => rfl
  split
  · exact .pure _
  · exact .fail _

theorem placeless_modifyFrame (change : Frame → Frame) : Placeless (modifyFrame change) := by
  rintro f ⟨stack, frames, temps, label, pos⟩
  cases frames <;> rfl

theorem placeless_emit (s : Statement) : Placeless (emit ctx s) :=
  placeless_frame.bind fun _ => placeless_modifyFrame _

theorem placeless_cut (height : Nat) : Placeless (cut height) := fun _ _ => rfl

theorem placeless_markUnreachable : Placeless (markUnreachable ctx) :=
  placeless_frame.bind fun _ => (placeless_modifyFrame _).bind fun _ => placeless_cut _

theorem placeless_target (depth : Nat) : Placeless (target ctx depth) := by
  refine .read (fun b => ?_) fun f b => rfl
  dsimp only
  split
  · exact .pure _
  · exact .fail _

theorem placeless_branch (depth : Nat) (values : List Expression) :
    Placeless (branch ctx depth values) :=
  (placeless_target depth).bind fun _ => Placeless.bind (fun _ _ => rfl) fun _ => .pure _

theorem placeless_newTemp (kind : TempKind) (type : ValueType) : Placeless (newTemp kind type) :=
  fun _ _ => rfl

/-! ### Operands -/

theorem placeless_push (e : Expression) : Placeless (push e) := fun _ _ => rfl

theorem placeless_pushAll (es : List Expression) : Placeless (pushAll es) := fun _ _ => rfl

theorem placeless_pop (expected : Option ValueType) : Placeless (pop ctx expected) := by
  refine placeless_frame.bind fun f => ?_
  intro g
  refine .get fun b => ?_
  dsimp only [Builder.moved]
  by_cases hlow : b.stack.length ≤ f.height
  · rw [if_pos hlow, if_pos hlow]
    exact Placeless.fail _ g
  rw [if_neg hlow, if_neg hlow]
  cases b.stack with
  | nil => exact Placeless.fail _ g
  | cons e rest =>
    refine Moves.bind (fun _ => rfl) fun _ => ?_
    cases expected with
    | none => exact .pure _
    | some type =>
      dsimp only
      split
      · exact .pure _
      · exact Placeless.fail _ g

theorem placeless_popInto (types : List ValueType) :
    ∀ popped, Placeless (popInto ctx types popped) := by
  induction types with
  | nil => exact fun popped => .pure popped
  | cons type types ih => exact fun popped => (placeless_pop _).bind fun e => ih _

theorem placeless_popValues (types : List ValueType) : Placeless (popValues ctx types) :=
  placeless_popInto _ _

theorem placeless_peekValues (types : List ValueType) : Placeless (peekValues ctx types) :=
  (placeless_popValues types).bind fun _ => (placeless_pushAll _).bind fun _ => .pure _

theorem placeless_settle (e : Expression) : Placeless (settle ctx e) := by
  unfold settle
  split
  · exact .pure _
  · exact (placeless_newTemp _ _).bind fun _ => (placeless_emit _).bind fun _ => .pure _

theorem placeless_flush : Placeless (flush ctx) := by
  refine .read (fun b => ?_) fun f b => rfl
  exact (Placeless.mapM placeless_settle _).bind fun settled _ _ => rfl

theorem placeless_flushIf (needed : Bool) : Placeless (flushIf ctx needed) := by
  unfold flushIf
  split
  · exact placeless_flush
  · exact .pure ()

theorem placeless_emitEffects (e : Expression) : Placeless (emitEffects ctx e) := by
  unfold emitEffects
  split
  · exact placeless_emit _
  · exact .pure _

theorem placeless_discard : Placeless (discard ctx) := by
  refine placeless_frame.bind fun f => .read (fun b => ?_) fun f b => rfl
  exact (Placeless.forM placeless_emitEffects _).bind fun _ => placeless_cut _

/-! ### What instructions refer to -/

theorem placeless_localType (index : Nat) : Placeless (localType ctx index) := by
  unfold localType
  split
  · exact .pure _
  · exact .fail _

theorem placeless_globalAt (index : Nat) : Placeless (globalAt ctx index) := by
  unfold globalAt
  split
  · exact .pure _
  · exact .fail _

theorem placeless_calleeType (index : Nat) : Placeless (calleeType ctx index) := by
  unfold calleeType
  split
  · exact .pure _
  · exact .fail _

theorem placeless_requireMemory : Placeless (requireMemory ctx) := .require _

/-! ### Blocks that are opened and closed -/

theorem placeless_assign (slots : List Nat) (values : List Expression) :
    Placeless (assign ctx slots values) := by
  unfold assign
  split
  · exact .pure ()
  · exact placeless_emit _

theorem placeless_openFrame (kind : FrameKind) (type : BlockType) (condition : Option Expression) :
    Placeless (openFrame ctx kind type condition) := by
  refine placeless_flush.bind fun _ => (placeless_popValues _).bind fun params => ?_
  -- The state that is read is written back with the next label, so its offset goes along.
  intro g
  refine .get fun b => Moves.bind (fun _ => rfl) fun _ => ?_
  refine Placeless.bind (Placeless.mapM (placeless_newTemp _) _) (fun resultSlots => ?_) g
  refine (Placeless.mapM (placeless_newTemp _) _).bind fun paramSlots =>
    (placeless_assign _ _).bind fun _ => ?_
  exact Placeless.bind (fun _ _ => rfl) fun _ => placeless_pushAll _

theorem placeless_popResults (f : Frame) : Placeless (popResults ctx f) := by
  refine (placeless_popValues _).bind fun values => .read (fun b => ?_) fun f b => rfl
  exact (Placeless.require _).bind fun _ => .pure _

theorem placeless_ifReached {f : Frame} {x : Build Unit} (h : Placeless x) :
    Placeless (ifReached f x) := by
  unfold ifReached
  split
  · exact .pure ()
  · exact h

theorem placeless_assignResults (f : Frame) : Placeless (assignResults ctx f) :=
  (placeless_popResults f).bind fun _ => placeless_assign _ _

theorem placeless_startElse : Placeless (startElse ctx) :=
  placeless_frame.bind fun f => (Placeless.require _).bind fun _ =>
    (placeless_ifReached (placeless_assignResults f)).bind fun _ => (placeless_cut _).bind fun _ =>
      (placeless_pushAll _).bind fun _ => placeless_modifyFrame _

theorem placeless_popFrame : Placeless (popFrame ctx) :=
  placeless_frame.bind fun _ => Placeless.bind (fun _ _ => rfl) fun _ => .pure _

theorem placeless_closeFunction (f : Frame) : Placeless (closeFunction ctx f) := by
  refine (placeless_ifReached ((placeless_popResults f).bind fun values => ?_)).bind fun _ =>
    placeless_popFrame.bind fun _ => .pure _
  split
  · exact .pure ()
  · exact placeless_emit _

theorem placeless_closeBlock (f : Frame) : Placeless (closeBlock ctx f) := by
  refine (Placeless.require _).bind fun _ =>
    (placeless_ifReached (placeless_assignResults f)).bind fun _ => ?_
  refine placeless_popFrame.bind fun closed => (placeless_cut _).bind fun _ =>
    (placeless_emit _).bind fun _ => ?_
  split
  · exact placeless_pushAll _
  · exact placeless_markUnreachable

theorem placeless_close : Placeless (close ctx) := by
  refine placeless_frame.bind fun f => ?_
  split
  · exact (placeless_closeFunction f).map _
  · exact (placeless_closeBlock f).bind fun _ => .pure _

/-! ### Instructions -/

theorem placeless_numeric (opcode : Nat) : Placeless (numeric ctx opcode) := by
  unfold numeric
  split
  · exact .fail _
  · split
    · exact (placeless_pop _).bind fun _ => placeless_push _
    · exact (placeless_pop _).bind fun _ => (placeless_pop _).bind fun _ => placeless_push _
    · exact (placeless_pop _).bind fun _ => placeless_push _
    · exact (placeless_pop _).bind fun _ => placeless_push _
    · exact (placeless_pop _).bind fun _ => (placeless_pop _).bind fun _ => placeless_push _

theorem placeless_select : Placeless (select ctx) := by
  refine (placeless_pop _).bind fun condition => .read (fun b => ?_) fun f b => rfl
  exact (placeless_flushIf _).bind fun _ => (placeless_pop _).bind fun _ =>
    (placeless_pop _).bind fun _ => placeless_push _

theorem placeless_call (index : Nat) : Placeless (call ctx index) := by
  refine (placeless_calleeType index).bind fun type => (placeless_popValues _).bind fun args => ?_
  split
  · exact placeless_push _
  · exact placeless_flush.bind fun _ => placeless_emit _
  · exact placeless_flush.bind fun _ => (Placeless.mapM (placeless_newTemp _) _).bind fun _ =>
      (placeless_emit _).bind fun _ => placeless_pushAll _

theorem placeless_branchTable (depths : List Nat) (default : Nat) :
    Placeless (branchTable ctx depths default) := by
  refine (placeless_pop _).bind fun _ => placeless_flush.bind fun _ =>
    (placeless_target _).bind fun f => ?_
  have hcheck (depth : Nat) : Placeless (checkTarget ctx f.labelTypes depth) :=
    (placeless_target _).bind fun _ => .require _
  refine (Placeless.forM hcheck _).bind fun _ => (placeless_popValues _).bind fun values => ?_
  exact (Placeless.mapM (fun depth => placeless_branch _ _) _).bind fun _ =>
    (placeless_branch _ _).bind fun _ => (placeless_emit _).bind fun _ => placeless_markUnreachable

theorem placeless_step (i : Instruction) : Placeless (step ctx i) := by
  -- The position is noted before each step, and no operation of a step asks for it.
  cases i with
  | nop => exact .pure ()
  | endMark => exact .pure ()
  | unreachable =>
    exact placeless_discard.bind fun _ => (placeless_emit _).bind fun _ => placeless_markUnreachable
  | block type => exact placeless_openFrame _ _ _
  | loop type => exact placeless_openFrame _ _ _
  | ifBlock type => exact (placeless_pop _).bind fun _ => placeless_openFrame _ _ _
  | elseMark => exact placeless_startElse
  | br depth =>
    exact (placeless_target _).bind fun _ => (placeless_popValues _).bind fun _ =>
      placeless_discard.bind fun _ => (placeless_branch _ _).bind fun _ =>
      (placeless_emit _).bind fun _ =>
        placeless_markUnreachable
  | brIf depth =>
    exact (placeless_pop _).bind fun _ => placeless_flush.bind fun _ =>
      (placeless_target _).bind fun _ => (placeless_peekValues _).bind fun _ =>
      (placeless_branch _ _).bind fun _ => placeless_emit _
  | brTable depths default => exact placeless_branchTable _ _
  | ret =>
    exact (placeless_popValues _).bind fun _ => placeless_discard.bind fun _ =>
      (placeless_emit _).bind fun _ => placeless_markUnreachable
  | call index => exact placeless_call index
  | drop =>
    refine (placeless_pop _).bind fun value => ?_
    split
    · exact placeless_flush.bind fun _ => placeless_emit _
    · exact .pure _
  | select => exact placeless_select
  | localGet index => exact (placeless_localType _).bind fun _ => placeless_push _
  | localSet index =>
    exact (placeless_localType _).bind fun _ => (placeless_pop _).bind fun _ =>
      placeless_flush.bind fun _ => placeless_emit _
  | localTee index =>
    exact (placeless_localType _).bind fun _ => (placeless_pop _).bind fun _ => placeless_push _
  | globalGet index => exact (placeless_globalAt _).bind fun _ => placeless_push _
  | globalSet index =>
    exact (placeless_globalAt _).bind fun _ => (Placeless.require _).bind fun _ =>
      (placeless_pop _).bind fun _ => placeless_flush.bind fun _ => placeless_emit _
  | const value => exact placeless_push _
  | numeric opcode => exact placeless_numeric opcode
  | load opcode arg =>
    exact placeless_requireMemory.bind fun _ => (placeless_pop _).bind fun _ =>
      (Placeless.ofAccess _).bind fun _ => (Placeless.ofAccess _).bind fun _ => placeless_push _
  | store opcode arg =>
    exact placeless_requireMemory.bind fun _ => (Placeless.ofAccess _).bind fun _ =>
      (placeless_pop _).bind fun _ => (placeless_pop _).bind fun _ => placeless_flush.bind fun _ =>
        (Placeless.ofAccess _).bind fun _ => placeless_emit _
  | memorySize => exact placeless_requireMemory.bind fun _ => placeless_push _
  | memoryGrow =>
    exact placeless_requireMemory.bind fun _ => (placeless_pop _).bind fun _ => placeless_push _
  | memoryCopy =>
    exact placeless_requireMemory.bind fun _ => (placeless_pop _).bind fun _ =>
      (placeless_pop _).bind fun _ => (placeless_pop _).bind fun _ => placeless_flush.bind fun _ =>
      placeless_emit _
  | memoryFill =>
    exact placeless_requireMemory.bind fun _ => (placeless_pop _).bind fun _ =>
      (placeless_pop _).bind fun _ => (placeless_pop _).bind fun _ => placeless_flush.bind fun _ =>
      placeless_emit _

/-! ### Bodies -/

variable {k d : Nat}

theorem moves_instruction (next : Located) :
    Moves (movedOffset k d) (instruction ctx next) (instruction ctx (next.moved k d)) := by
  refine Moves.bind (fun _ => rfl) fun _ => .ite (placeless_close _) ?_
  exact Placeless.bind (placeless_step _) (fun _ => .pure none) _

theorem moves_ended (body : List Statement) (rest : List Located) :
    Moves (movedOffset k d) (ended ctx body rest)
      (ended ctx body (rest.map (Located.moved k d))) := by
  cases rest with
  | nil => exact .pure body
  | cons after rest => exact Moves.bind (fun _ => rfl) fun _ => Placeless.fail _ _

theorem moves_instructions (ls : List Located) :
    ∀ skipped, Moves (movedOffset k d) (instructions ctx ls skipped)
    (instructions ctx (ls.map (Located.moved k d)) skipped) := by
  induction ls with
  | nil => exact fun skipped => Placeless.fail _ _
  | cons next rest ih =>
    intro skipped
    refine Moves.bind (placeless_frame _) fun f => .ite (ih _) (.ite (ih _) (.ite (ih _) ?_))
    refine (moves_instruction next).bind fun body => ?_
    cases body with
    | none => exact ih _
    | some body => exact moves_ended body rest

end Build

/-! ### Functions and modules -/

variable {k d : Nat} {names : List String}

theorem buildBody_moved (m : Module) (index : Nat) (name : Option String) (type : FunctionType)
    (body : Body) :
    buildBody (m.moved k d names) index name type (body.moved k d)
      = (buildBody m index name type body).mapError (BuildFailure.moved (movedOffset k d)) := by
  refine (buildBody_withOthers m _ names index name type _).trans ?_
  let ctx : Context := ⟨m, index, name, type, type.params.toArray ++ body.locals⟩
  let start : Builder :=
    { frames := [{ kind := .function, label := -1, params := type.params, results := type.results
                   height := 0, resultSlots := [], paramSlots := [] }]
      pos := body.pos }
  let give (r : List Statement × Builder) : Except BuildFailure Function :=
    .ok { index, name, params := type.params, results := type.results, locals := body.locals.toList
          temps := r.2.temps.toList, body := r.1 }
  have hhere : buildBody m index name type body
      = (Build.instructions ctx body.instructions.toList 0 start).bind give := rfl
  have hthere : buildBody m index name type (body.moved k d)
      = (Build.instructions ctx (body.instructions.map (Located.moved k d)).toList 0
          (start.moved (movedOffset k d))).bind give := rfl
  rw [hhere, hthere, Array.toList_map, Build.moves_instructions body.instructions.toList 0 start]
  cases Build.instructions ctx body.instructions.toList 0 start with
  | error e => rfl
  | ok r => rfl

/-- Moving the bytes of a body moves the offset of its fault, if it has one. -/
theorem buildFunction_moved (hk : 0 < k) (m : Module) (index : Nat) :
    buildFunction (m.moved k d names) index
      = (buildFunction m index).mapError (BuildFailure.moved (movedOffset k d)) := by
  -- Only the body of the function has moved, and its name, type and imports have not.
  have hbody :
      (if index < m.imports.size then none else (m.moved k d names).bodies[index - m.imports.size]?)
      = (if index < m.imports.size then none else m.bodies[index - m.imports.size]?).map
        (Body.moved k d) := by
    split
    · rfl
    · exact Array.getElem?_map
  have hname : (m.moved k d names).exportNames = m.exportNames := rfl
  have htype : (m.moved k d names).functionType? = m.functionType? := rfl
  have himports : (m.moved k d names).imports = m.imports := rfl
  have hzero : movedOffset k d 0 = 0 := movedOffset_of_lt d hk
  rw [buildFunction, buildFunction, himports, hbody, hname, htype]
  generalize (if index < m.imports.size then none else m.bodies[index - m.imports.size]?) = body
  cases body with
  | none =>
    change Except.error (BuildFailure.invalid ⟨_, _, _, 0⟩) =
      Except.error (BuildFailure.invalid ⟨_, _, _, movedOffset k d 0⟩)
    rw [hzero]
  | some body =>
    cases m.functionType? index with
    | none => rfl
    | some type => exact buildBody_moved m index _ type body

/-- A finding and its counterpart where offsets are moved. -/
def MovedFinding (f : Nat → Nat) (x y : Diagnostic) : Prop :=
  ∃ e : BuildError, x = e.toDiagnostic ∧ y = { e with offset := f e.offset }.toDiagnostic

/-- What comes of building functions, and of building them where offsets are moved. -/
inductive MovedResult (f : Nat → Nat) :
    Except AccessError BuildResult → Except AccessError BuildResult → Prop where
  | ok {functions : List Function} {xs ys : List Diagnostic} : List.Forall₂ (MovedFinding f) xs ys →
      MovedResult f (.ok ⟨functions, xs⟩) (.ok ⟨functions, ys⟩)
  | error (e : AccessError) : MovedResult f (.error e) (.error e)

theorem buildAll_moved (hk : 0 < k) (m : Module) (is : List Nat) :
    MovedResult (movedOffset k d) (buildAll m is) (buildAll (m.moved k d names) is) := by
  induction is with
  | nil => exact .ok .nil
  | cons index rest ih =>
    rw [buildAll, buildAll, buildFunction_moved hk]
    generalize buildAll m rest = x, buildAll (m.moved k d names) rest = y at ih
    cases buildFunction m index with
    | ok f =>
      cases ih with
      | ok hall => exact .ok hall
      | error e => exact .error e
    | error e =>
      cases e with
      | access e => exact .error e
      | invalid e =>
        cases ih with
        | ok hall => exact .ok (.cons ⟨e, rfl, rfl⟩ hall)
        | error e => exact .error e

/-- A module is built the same wherever its bytes stand, but for the offsets of the findings. -/
theorem buildModule_moved (hk : 0 < k) (d : Nat) (names : List String) (m : Module) :
    MovedResult (movedOffset k d) (buildModule m) (buildModule (m.moved k d names)) := by
  have hsize : (m.moved k d names).bodies.size = m.bodies.size := Array.size_map
  rw [buildModule, buildModule, hsize]
  exact buildAll_moved hk m _

end WasmScript.IR
