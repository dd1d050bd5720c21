/-
  WasmScript/Proofs/IR/Acceptance.lean
  ====================================
  **Accepted bodies** — a builder accepts the bodies that are valid, and only those.

  `follows_step` and `closes_end` say it of one instruction.  Here it is carried through a
  body: as long as no instruction breaks its rule, the open blocks of the builder are those
  of validation, and the two skip the same instructions.
-/
import WasmScript.Proofs.IR.Passing
import WasmScript.Proofs.IR.Validation
import WasmScript.Proofs.Module.WellFormed

namespace WasmScript

namespace Validation

variable {m : Module} {locals : Array ValueType} {results : List ValueType} {v w : Level}
variable {vs ws : List Level}

/-! ### The number of open blocks -/

@[simp] theorem length_reach (depth : Nat) (vs : List Level) :
    (reach depth vs).length = vs.length :=
  List.length_modify ..

@[simp] theorem length_reachAll (depths : List Nat) (vs : List Level) :
    (depths.foldl (fun vs d => reach d vs) vs).length = vs.length := by
  induction depths generalizing vs with
  | nil => rfl
  | cons d depths ih => rw [List.foldl_cons, ih, length_reach]

theorem length_enter {kind : IR.FrameKind} {type : BlockType} (h : enter kind type v vs = some ws) :
    ws.length = vs.length + 2 := by
  obtain ⟨w, -, heq⟩ := Option.bind_eq_some_iff.mp h
  obtain rfl := Option.some.inj heq
  rfl

/-- Only an `end` leaves fewer blocks open, and only what opens a block leaves more. -/
theorem length_rule {i : Instruction} (hend : i ≠ .endMark)
    (h : rule m locals results i v vs = some ws) :
    ws.length = vs.length + 1 + if i.opensBlock then 1 else 0 := by
  -- All rules keep the blocks that are open, but for the ones that open another one.
  cases i with
  | block type => exact length_enter h
  | loop type => exact length_enter h
  | ifBlock type =>
    obtain ⟨w, -, h⟩ := Option.bind_eq_some_iff.mp h
    exact length_enter h
  | endMark => exact (hend rfl).elim
  | elseMark =>
    obtain ⟨-, heq⟩ := Option.ite_none_right_eq_some.mp h
    obtain rfl := Option.some.inj heq
    rfl
  | br depth =>
    obtain ⟨types, -, h⟩ := Option.bind_eq_some_iff.mp h
    obtain ⟨w, -, heq⟩ := Option.bind_eq_some_iff.mp h
    obtain rfl := Option.some.inj heq
    exact length_reach ..
  | brIf depth =>
    obtain ⟨w, -, h⟩ := Option.bind_eq_some_iff.mp h
    obtain ⟨types, -, h⟩ := Option.bind_eq_some_iff.mp h
    obtain ⟨w', -, heq⟩ := Option.bind_eq_some_iff.mp h
    obtain rfl := Option.some.inj heq
    exact length_reach ..
  | brTable depths default =>
    obtain ⟨w, -, h⟩ := Option.bind_eq_some_iff.mp h
    obtain ⟨types, -, h⟩ := Option.bind_eq_some_iff.mp h
    obtain ⟨w', -, h⟩ := Option.bind_eq_some_iff.mp h
    obtain ⟨-, heq⟩ := Option.ite_none_right_eq_some.mp h
    obtain rfl := Option.some.inj heq
    rw [length_reach, length_reachAll]
    rfl
  | nop =>
    obtain rfl := Option.some.inj h
    rfl
  | unreachable =>
    obtain rfl := Option.some.inj h
    rfl
  | ret =>
    obtain ⟨w, -, heq⟩ := Option.bind_eq_some_iff.mp h
    obtain rfl := Option.some.inj heq
    rfl
  | select =>
    obtain ⟨w, -, h⟩ := Option.bind_eq_some_iff.mp h
    obtain ⟨type, -, h⟩ := Option.bind_eq_some_iff.mp h
    obtain ⟨w', -, heq⟩ := Option.bind_eq_some_iff.mp h
    obtain rfl := Option.some.inj heq
    rfl
  | drop =>
    obtain ⟨type, -, h⟩ := Option.bind_eq_some_iff.mp h
    obtain ⟨w, -, heq⟩ := Option.bind_eq_some_iff.mp h
    obtain rfl := Option.some.inj heq
    rfl
  | _ =>
    rw [IR.rule_plain rfl] at h
    obtain ⟨type, -, h⟩ := Option.bind_eq_some_iff.mp h
    obtain ⟨w, -, heq⟩ := Option.bind_eq_some_iff.mp h
    obtain rfl := Option.some.inj heq
    rfl

theorem length_rule_end (h : rule m locals results .endMark v vs = some ws) :
    ws.length = vs.length := by
  obtain ⟨-, heq⟩ := Option.ite_none_right_eq_some.mp h
  obtain rfl := Option.some.inj heq
  cases vs <;> rfl

end Validation

/-- The opcodes of well-formed instructions are known. -/
theorem Instruction.WellFormed.known {functions : Nat} {i : Instruction}
    (h : i.WellFormed functions) : i.Known := by
  cases i with
  | numeric opcode => exact h
  | load opcode arg =>
    obtain ⟨access, haccess, hload, -⟩ := h
    exact ⟨access, haccess, hload⟩
  | store opcode arg =>
    obtain ⟨access, haccess, hstore, -⟩ := h
    exact ⟨access, haccess, hstore⟩
  | _ => trivial

/-! ### Going through a body -/

theorem Validation.closes_rule {m : Module} {locals : Array ValueType} {results : List ValueType}
    {v w : Level} {vs ws : List Level} {i : Instruction} {rest : List Instruction}
    (h : rule m locals results i v vs = some (w :: ws))
    (hcloses : Instruction.closes vs.length (i :: rest)) :
    Instruction.closes ws.length rest := by
  by_cases hend : i = .endMark
  · subst hend
    have hlen : vs.length = ws.length + 1 := (length_rule_end h).symm
    rwa [hlen] at hcloses
  · have hlen := length_rule hend h
    rw [Instruction.closes_cons hend] at hcloses
    split at hcloses <;> simp_all

/-- What is passed over takes its own `end`s with it. -/
theorem closes_of_passed {i : Instruction} {rest : List Instruction} {depth skipped s : Nat}
    (h : IR.Build.Passed i skipped s) (hcloses : Instruction.closes (depth + skipped) (i :: rest)) :
    Instruction.closes (depth + s) rest := by
  cases h with
  | opens opens =>
    have hend : i ≠ .endMark := by
      rintro rfl
      exact Bool.false_ne_true opens
    rwa [Instruction.closes_cons hend, if_pos opens] at hcloses
  | ends => exact hcloses
  | stays opens ends =>
    rwa [Instruction.closes_cons ends, if_neg (Bool.eq_false_iff.mp opens)] at hcloses

namespace Validation

variable {m : Module} {locals : Array ValueType} {results : List ValueType} {next : Located}
variable {rest : List Located} {skipped s : Nat} {v : Level} {vs : List Level}

/-- Validation passes over what a build passes over. -/
theorem firstFault_cons : firstFault m locals results (next :: rest) skipped (v :: vs)
    = (IR.Build.passes (!v.live) next.instruction skipped).elim
        ((rule m locals results next.instruction v vs).elim (some next.pos)
          (firstFault m locals results rest skipped))
        fun s => firstFault m locals results rest s (v :: vs) := by
  rw [firstFault, IR.Build.elim_passes (!v.live) (by simp) next.instruction skipped _
    fun s => firstFault m locals results rest s (v :: vs)]
  cases rule m locals results next.instruction v vs <;> rfl

end Validation

namespace IR

open Build Validation

variable {ctx : Context} {v : Level} {vs : List Level} {b : Builder} {skipped : Nat}

/-- An instruction that can be reached goes on or closes the function if it obeys its rule. -/
theorem closes_instruction {next : Located} (hknown : next.instruction.Known)
    (h : Layers (v :: vs) b.frames b.stack) :
    Closes (instruction ctx next b)
      (rule ctx.module ctx.localTypes ctx.type.results next.instruction v vs) next.pos := by
  obtain ⟨stack, frames, temps, label, pos⟩ := b
  obtain ⟨f, fs, pend, below, rfl, rfl, types, height, stands, stable, root, rest⟩ := h.exists_top
  rw [instruction, bind_of_ok (a := ()) rfl]
  by_cases hend : next.instruction = .endMark
  · rw [if_pos hend, hend]
    exact closes_end types height stands stable root rest
  rw [if_neg hend]
  have hstep : Follows
      (step ctx next.instruction ⟨pend.reverse ++ below, f :: fs, temps, label, next.pos⟩)
      (rule ctx.module ctx.localTypes ctx.type.results next.instruction v vs) next.pos :=
    follows_step types height stands stable root rest hknown hend
  cases hrule : rule ctx.module ctx.localTypes ctx.type.results next.instruction v vs with
  | none =>
    rw [hrule] at hstep
    exact bind_of_fails hstep
  | some ws =>
    rw [hrule] at hstep
    obtain ⟨b, hok, hlayers⟩ := hstep
    dsimp only
    rw [bind_of_ok hok]
    -- Only an `end` can leave no level, and this is none.
    cases ws with
    | nil => exact absurd (length_rule hend hrule) (by rw [List.length_nil]; omega)
    | cons w ws => exact ⟨b, rfl, hlayers⟩

variable (ctx) in
/-- A build goes through a body that is valid, and fails at the first fault of one that is not. -/
theorem instructions_cases (ls : List Located) :
    ∀ (skipped : Nat) (v : Level) (vs : List Level) (b : Builder),
      Layers (v :: vs) b.frames b.stack → (∀ l ∈ ls, l.instruction.Known) →
      Instruction.closes (vs.length + skipped) (ls.map Located.instruction) →
      (v.live → skipped = 0) →
      match firstFault ctx.module ctx.localTypes ctx.type.results ls skipped (v :: vs) with
      | none => ∃ body b', instructions ctx ls skipped b = .ok (body, b')
      | some pos => Fails (instructions ctx ls skipped b) pos := by
  -- The induction is on the code, and what it keeps is that the levels stand for the open blocks.
  induction ls with
  | nil =>
    intro skipped v vs b _ _ hcloses
    rw [List.map_nil, Instruction.closes] at hcloses
    cases hcloses
  | cons next rest ih =>
    intro skipped v vs b hlayers hknown hcloses hskipped
    obtain ⟨hnext, hrest⟩ := List.forall_mem_cons.mp hknown
    rw [List.map_cons] at hcloses
    obtain ⟨f, fs, hframes, hdead⟩ : ∃ f fs, b.frames = f :: fs ∧ f.unreachable = !v.live := by
      obtain ⟨f, fs, pend, below, hframes, -, -, -, stands, -⟩ := hlayers.exists_top
      exact ⟨f, fs, hframes, stands.live⟩
    rw [firstFault_cons]
    cases hpasses : passes (!v.live) next.instruction skipped with
    | some s =>
      obtain ⟨hnot, hpassed⟩ := passed_of_passes hpasses
      rw [instructions_of_passes hframes (hdead ▸ hpasses)]
      refine ih s v vs b hlayers hrest (closes_of_passed hpassed hcloses) fun hlive => ?_
      rw [hlive] at hnot
      cases hnot
    | none =>
    obtain rfl : skipped = 0 := by
      refine skipped_of_not_passes hpasses ?_
      cases hlive : v.live with
      | true => exact .inl (hskipped hlive)
      | false => exact .inr rfl
    rw [instructions_of_not_passes hframes (hdead ▸ hpasses), building, Option.elim_none]
    have hstep : Closes (instruction ctx next b)
        (rule ctx.module ctx.localTypes ctx.type.results next.instruction v vs) next.pos :=
      closes_instruction hnext hlayers
    cases hrule : rule ctx.module ctx.localTypes ctx.type.results next.instruction v vs with
    | none =>
      rw [hrule] at hstep
      exact bind_of_fails hstep
    | some ws =>
      rw [hrule] at hstep
      cases ws with
      | nil =>
        -- Only the `end` of the function leaves no level, and nothing comes after it.
        obtain ⟨body, b', hok⟩ := hstep
        have hend : next.instruction = .endMark := by
          by_contra hend
          exact absurd (length_rule hend hrule) (by rw [List.length_nil]; omega)
        rw [hend] at hrule hcloses
        obtain rfl : vs = [] := List.eq_nil_of_length_eq_zero (length_rule_end hrule).symm
        obtain rfl : rest = [] := by simpa [Instruction.closes] using hcloses
        rw [bind_of_ok hok]
        exact ⟨body, b', rfl⟩
      | cons w ws =>
        obtain ⟨b', hok, hlayers'⟩ := hstep
        rw [bind_of_ok hok]
        exact ih 0 w ws b' hlayers' hrest (closes_rule hrule hcloses) fun _ => rfl

/-- The build of a function with a body, by what validation says of it. -/
theorem buildBody_cases (m : Module) (index : Nat) (name : Option String) (type : FunctionType)
    {body : Body} (hknown : ∀ l ∈ body.instructions.toList, l.instruction.Known)
    (hcloses : Instruction.closes 0 (body.instructions.toList.map Located.instruction)) :
    match fault m type body with
    | none => ∃ f, buildBody m index name type body = .ok f
    | some pos => Fails (buildBody m index name type body) pos := by
  let ctx : Context := ⟨m, index, name, type, type.params.toArray ++ body.locals⟩
  let root : Frame :=
    { kind := .function, label := -1, params := type.params, results := type.results
      height := 0, resultSlots := [], paramSlots := [] }
  -- The function is a block around its code, and nothing is built in it yet.
  have stands : FrameOf ⟨.function, type.params, type.results, [], true, false, false⟩ root :=
    { kind := rfl, params := rfl, results := rfl, live := rfl, reached := rfl, second := rfl
      firstArm := by rintro ⟨⟩
      resultSlots := fun h => (h rfl).elim
      paramSlots := by rintro ⟨⟩
      paramValues := by rintro ⟨⟩ }
  have hlayers :
      Layers [⟨.function, type.params, type.results, [], true, false, false⟩] [root] [] :=
    @Layers.cons _ _ _ _ [] [] rfl rfl stands (fun e he => absurd he List.not_mem_nil)
      (iff_of_true rfl rfl) .nil
  have hrun : match fault m type body with
      | none => ∃ ss b, instructions ctx body.instructions.toList 0
          { frames := [root], pos := body.pos } = .ok (ss, b)
      | some pos => Fails (instructions ctx body.instructions.toList 0
          { frames := [root], pos := body.pos }) pos :=
    instructions_cases ctx body.instructions.toList 0 _ []
      { frames := [root], pos := body.pos } hlayers hknown hcloses fun _ => rfl
  cases hfault : fault m type body with
  | none =>
    rw [hfault] at hrun
    obtain ⟨ss, b, hok⟩ := hrun
    have hbuild : buildBody m index name type body
        = .ok ⟨index, name, type.params, type.results, body.locals.toList, b.temps.toList, ss⟩ := by
      rw [buildBody, StateT.run, hok]
      rfl
    exact ⟨_, hbuild⟩
  | some pos =>
    rw [hfault] at hrun
    obtain ⟨e, hfails, hpos⟩ := hrun
    refine ⟨e, ?_, hpos⟩
    rw [buildBody, StateT.run, hfails]
    rfl

/-! ### Decoded modules -/

theorem buildFunction_eq {m : Module} {i : Nat} {type : FunctionType} {body : Body}
    (htype : m.functionType? (m.imports.size + i) = some type) (hbody : m.bodies[i]? = some body) :
    buildFunction m (m.imports.size + i)
      = buildBody m (m.imports.size + i) (m.exportNames (m.imports.size + i)).head? type body := by
  have hnot : ¬ m.imports.size + i < m.imports.size := Nat.not_lt.mpr (Nat.le_add_right ..)
  rw [buildFunction, if_neg hnot, Nat.add_sub_cancel_left, hbody, htype]

/-- A defined function of a module that is read from bytes is built if and only if no instruction of
its body that can be reached breaks its rule.  Otherwise the error is at the first one that does. -/
theorem function_built_iff_valid {bytes : ByteArray} {m : Module} (h : Module.decode bytes = .ok m)
    {i : Nat} (hi : i < m.functions.size) :
    ∃ type body, m.functionType? (m.imports.size + i) = some type ∧ m.bodies[i]? = some body ∧
      ((∃ f, buildFunction m (m.imports.size + i) = .ok f) ↔ fault m type body = none) ∧
      ∀ pos, fault m type body = some pos →
        ∃ e : BuildError, buildFunction m (m.imports.size + i) = .error (.invalid e)
          ∧ e.offset = pos := by
  obtain ⟨type, body, htype, hbody, hwell⟩ := (Module.wellFormed_of_decode h).exists_function hi
  have hbuild := buildBody_cases m (m.imports.size + i) (m.exportNames (m.imports.size + i)).head?
    type (fun l hl => (hwell.instructions l hl).known) hwell.closes
  rw [← buildFunction_eq htype hbody] at hbuild
  refine ⟨type, body, htype, hbody, ?_⟩
  cases hfault : fault m type body with
  | none =>
    rw [hfault] at hbuild
    refine ⟨iff_of_true hbuild rfl, ?_⟩
    rintro pos ⟨⟩
  | some pos =>
    rw [hfault] at hbuild
    have hno : ¬ ∃ f, buildFunction m (m.imports.size + i) = .ok f :=
      fun ⟨_, hf⟩ => hbuild.not_ok hf
    refine ⟨iff_of_false hno (by rintro ⟨⟩), ?_⟩
    rintro _ ⟨⟩
    exact hbuild

/-- A module with two functions that give a 32-bit integer: one gives 42, the other a 64-bit one. -/
def twoFunctions : Module where
  types := #[⟨[], [.i32]⟩]
  functions := #[0, 0]
  bodies := #[
    ⟨#[], #[⟨25, .const (.i32 42)⟩, ⟨27, .endMark⟩], 24⟩,
    ⟨#[], #[⟨30, .const (.i64 1)⟩, ⟨32, .endMark⟩], 29⟩]

def twoFunctionsBytes : ByteArray :=
  ⟨#[0x00, 0x61, 0x73, 0x6d, 0x01, 0x00, 0x00, 0x00,
     0x01, 0x05, 0x01, 0x60, 0x00, 0x01, 0x7f,
     0x03, 0x03, 0x02, 0x00, 0x00,
     0x0a, 0x0b, 0x02, 0x04, 0x00, 0x41, 0x2a, 0x0b, 0x04, 0x00, 0x42, 0x01, 0x0b]⟩

theorem decode_twoFunctions : Module.decode twoFunctionsBytes = .ok twoFunctions := by
  decide +kernel

/-- The first of the two functions is built; the other is at fault where it ends. -/
theorem function_built_iff_valid_two :
    (∃ f, buildFunction twoFunctions 0 = .ok f) ∧
      ∃ e : BuildError, buildFunction twoFunctions 1 = .error (.invalid e) ∧ e.offset = 32 := by
  obtain ⟨_, _, htype, hbody, hiff, -⟩ :=
    function_built_iff_valid decode_twoFunctions (i := 0) (by decide)
  obtain ⟨_, _, htype', hbody', -, hfault⟩ :=
    function_built_iff_valid decode_twoFunctions (i := 1) (by decide)
  cases htype
  cases hbody
  cases htype'
  cases hbody'
  exact ⟨hiff.mpr (by decide), hfault 32 (by decide)⟩

end IR

end WasmScript
