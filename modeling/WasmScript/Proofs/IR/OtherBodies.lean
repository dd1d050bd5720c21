/-
  WasmScript/Proofs/IR/OtherBodies.lean
  =====================================
  **Other bodies** — a function is built from its own body, whatever the others are.

  A body refers to the types, the globals and the memory of its module and to the types of
  its functions, and to nothing else of it: neither to other bodies nor to custom sections.
-/
import WasmScript.IR.Build

namespace WasmScript.IR

/-- What a body refers to, in a module with other bodies and other custom sections. -/
def Context.withOthers (ctx : Context) (bodies : Array Body)
    (customSections : List String) : Context :=
  { ctx with module := { ctx.module with bodies, customSections } }

namespace Build

variable (ctx : Context) (bodies : Array Body) (names : List String)

theorem popInto_withOthers (types : List ValueType) :
    ∀ popped, popInto (ctx.withOthers bodies names) types popped = popInto ctx types popped := by
  induction types with
  | nil => exact fun _ => rfl
  | cons type types ih =>
    intro popped
    have hpop : pop (ctx.withOthers bodies names) (some type) = pop ctx (some type) := rfl
    simp only [popInto, ih, hpop]

theorem popValues_withOthers : popValues (ctx.withOthers bodies names) = popValues ctx := by
  funext types
  exact popInto_withOthers ctx bodies names _ _

theorem popResults_withOthers : popResults (ctx.withOthers bodies names) = popResults ctx := by
  funext f
  rw [popResults, popValues_withOthers]
  rfl

theorem openFrame_withOthers : openFrame (ctx.withOthers bodies names) = openFrame ctx := by
  funext kind type condition
  rw [openFrame, popValues_withOthers]
  rfl

theorem close_withOthers : close (ctx.withOthers bodies names) = close ctx := by
  simp only [close, closeFunction, closeBlock, leaveResults, assignResults, popResults_withOthers]
  rfl

theorem step_withOthers (i : Instruction) : step (ctx.withOthers bodies names) i = step ctx i := by
  -- A step asks the context for types, for names of the function and for its own code only.
  cases i with
  | block type =>
    rw [step, openFrame_withOthers]
    rfl
  | loop type =>
    rw [step, openFrame_withOthers]
    rfl
  | ifBlock type =>
    rw [step, openFrame_withOthers]
    rfl
  | elseMark =>
    simp only [step, startElse, assignResults, popResults_withOthers]
    rfl
  | br depth =>
    simp only [step, popValues_withOthers]
    rfl
  | brIf depth =>
    simp only [step, peekValues, popValues_withOthers]
    rfl
  | brTable depths default =>
    simp only [step, branchTable, popValues_withOthers]
    rfl
  | ret =>
    simp only [step, popValues_withOthers]
    rfl
  | call index =>
    simp only [step, call, popValues_withOthers]
    rfl
  | _ => rfl

theorem instructions_withOthers (ls : List Located) :
    ∀ skipped, instructions (ctx.withOthers bodies names) ls skipped =
      instructions ctx ls skipped := by
  induction ls with
  | nil => exact fun _ => rfl
  | cons next rest ih =>
    intro skipped
    have hframe : frame (ctx.withOthers bodies names) = frame ctx := rfl
    have hinstruction : instruction (ctx.withOthers bodies names) next = instruction ctx next := by
      rw [instruction, instruction, step_withOthers, close_withOthers]
    have hended : ended (ctx.withOthers bodies names) = ended ctx := by
      funext body ls
      cases ls <;> rfl
    simp only [instructions, ih, hframe, hinstruction, hended]

end Build

theorem buildBody_withOthers (m : Module) (bodies : Array Body) (customSections : List String)
    (index : Nat) (name : Option String) (type : FunctionType) (body : Body) :
    buildBody { m with bodies, customSections } index name type body =
      buildBody m index name type body := by
  let ctx : Context := ⟨m, index, name, type, type.params.toArray ++ body.locals⟩
  have hsame : Build.instructions ⟨{ m with bodies, customSections }, index, name, type,
      type.params.toArray ++ body.locals⟩ body.instructions.toList 0
        = Build.instructions ctx body.instructions.toList 0 :=
    Build.instructions_withOthers ctx bodies customSections body.instructions.toList 0
  rw [buildBody, buildBody, hsame]

theorem buildBody_withBodies (m : Module) (bodies : Array Body) (index : Nat) (name : Option String)
    (type : FunctionType) (body : Body) :
    buildBody { m with bodies } index name type body = buildBody m index name type body :=
  buildBody_withOthers m bodies m.customSections index name type body

/-- A function is built from its own body, whatever the other bodies are. -/
theorem buildFunction_withBodies (m : Module) {bodies : Array Body} {i : Nat}
    (hbody : bodies[i]? = m.bodies[i]?) :
    buildFunction { m with bodies } (m.imports.size + i) =
      buildFunction m (m.imports.size + i) := by
  have hnot : ¬ m.imports.size + i < m.imports.size := Nat.not_lt.mpr (Nat.le_add_right ..)
  have hname : Module.exportNames { m with bodies } = m.exportNames := rfl
  have htype : Module.functionType? { m with bodies } = m.functionType? := rfl
  rw [buildFunction, buildFunction]
  dsimp only
  rw [if_neg hnot, if_neg hnot, Nat.add_sub_cancel_left, hbody, hname, htype]
  simp only [buildBody_withBodies]

end WasmScript.IR
