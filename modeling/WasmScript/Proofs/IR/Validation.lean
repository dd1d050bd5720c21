/-
  WasmScript/Proofs/IR/Validation.lean
  ====================================
  **Valid bodies** — validation on types alone, which decides what a builder accepts.

  A `Validation.Level` is an open block as validation sees it: the types of its own
  operands, whether the place reached so far can be reached at all, and whether some path
  leads to its end.  `Validation.step` is the rule of one instruction and gives nothing if
  the instruction breaks it.  `Validation.firstFault` goes through a body, passing over
  what cannot be reached up to the `else` or `end` that ends it, and finds the first
  instruction that breaks its rule.

  No expression, temporary or label occurs here.  What a builder holds is tied to it by
  `Layers`: each open block of the builder has its own pending operands, of the types that
  validation has, on those of the blocks around it.
-/
import WasmScript.Proofs.IR.Blocks
import WasmScript.Proofs.IR.Branches

namespace WasmScript

namespace Validation

open IR (FrameKind)

/-! ### Rules -/

/-- An open block. -/
structure Level where
  kind : FrameKind
  params : List ValueType
  results : List ValueType
  /-- The types of the operands of this block, the oldest first. -/
  operands : List ValueType
  /-- Whether the place reached so far can be reached. -/
  live : Bool := true
  /-- Whether some path leads to the end other than the one that falls off the current arm. -/
  reached : Bool := false
  /-- Whether this is the second arm of an `if`. -/
  second : Bool := false
deriving DecidableEq, Repr

namespace Level

/-- The types that a branch to a block carries. -/
def labelTypes (v : Level) : List ValueType := if v.kind = .loop then v.params else v.results

/-- A block after an instruction that never falls through. -/
def stop (v : Level) : Level := { v with operands := [], live := false }

/-- A block with some more operands. -/
def push (v : Level) (types : List ValueType) : Level :=
  { v with operands := v.operands ++ types }

/-- A block without the operands of some types on top, if they are there. -/
def take (v : Level) (types : List ValueType) : Option Level :=
  if types <:+ v.operands then
    some { v with operands := v.operands.take (v.operands.length - types.length) }
  else none

/-- Whether the operands are exactly the results, if the place can be reached at all. -/
def Complete (v : Level) : Prop := v.live → v.operands = v.results

instance (v : Level) : Decidable v.Complete := by unfold Complete; infer_instance

/-- Whether an `if` has no second arm. -/
def oneArmed (v : Level) : Bool := v.kind = .conditional ∧ ¬ v.second

/-- Whether a block may end here.  An `if` without `else` has neither parameters nor results. -/
def Ends (v : Level) : Prop := v.Complete ∧ (v.oneArmed → v.params = [] ∧ v.results = [])

instance (v : Level) : Decidable v.Ends := by unfold Ends; infer_instance

/-- Whether some path leads to what follows a block. -/
def leaves (v : Level) : Bool := v.live ∨ (v.kind ≠ .loop ∧ v.reached) ∨ v.oneArmed

end Level

/-- The types that a branch carries, if there is a block at its depth. -/
def labelTypes? (vs : List Level) (depth : Nat) : Option (List ValueType) :=
  vs[depth]?.map Level.labelTypes

/-- The open blocks after a branch to one of them. -/
def reach (depth : Nat) (vs : List Level) : List Level :=
  vs.modify depth fun v => { v with reached := true }

def enter (kind : FrameKind) (type : BlockType) (v : Level) (vs : List Level) :
    Option (List Level) := do
  let v ← v.take type.params
  pure (⟨kind, type.params, type.results, type.params, true, false, false⟩ :: v :: vs)

/-- The open blocks after the end of one. -/
def leave (v : Level) : List Level → List Level
  | [] => []
  | w :: vs => (if v.leaves then w.push v.results else w.stop) :: vs

/-- The rule of an instruction in the innermost of some open blocks; gives the open blocks after it,
or nothing if it breaks its rule.  The `end` of the function leaves none. -/
def rule (m : Module) (locals : Array ValueType) (results : List ValueType)
    (i : Instruction) (v : Level) (vs : List Level) : Option (List Level) :=
  match i with
  | .nop => some (v :: vs)
  | .unreachable => some (v.stop :: vs)
  | .block type => enter .block type v vs
  | .loop type => enter .loop type v vs
  | .ifBlock type => do enter .conditional type (← v.take [.i32]) vs
  | .elseMark =>
    if v.oneArmed ∧ v.Complete then
      some ({ v with
        operands := v.params, live := true, reached := v.reached || v.live, second := true } :: vs)
    else none
  | .endMark => if v.Ends then some (leave v vs) else none
  | .br depth => do
    let v' ← v.take (← labelTypes? (v :: vs) depth)
    pure (reach depth (v'.stop :: vs))
  | .brIf depth => do
    let v' ← v.take [.i32]
    let _ ← v'.take (← labelTypes? (v :: vs) depth)
    pure (reach depth (v' :: vs))
  | .brTable depths default => do
    let v' ← v.take [.i32]
    let types ← labelTypes? (v :: vs) default
    let v' ← v'.take types
    if ∀ d ∈ depths, labelTypes? (v :: vs) d = some types then
      pure (reach default (depths.foldl (fun vs d => reach d vs) (v'.stop :: vs)))
    else none
  | .ret => do
    let v' ← v.take results
    pure (v'.stop :: vs)
  | .drop => do
    let type ← v.operands.getLast?
    let v' ← v.take [type]
    pure (v' :: vs)
  | .select => do
    let v' ← v.take [.i32]
    let type ← v'.operands.getLast?
    let v' ← v'.take [type, type]
    pure (v'.push [type] :: vs)
  | i => do
    let type ← i.signature m locals
    let v' ← v.take type.params
    pure (v'.push type.results :: vs)

/-- The offset of the first instruction of a body that can be reached and breaks its rule, `skipped`
blocks that cannot be reached being open. -/
def firstFault (m : Module) (locals : Array ValueType) (results : List ValueType) :
    List Located → (skipped : Nat) → List Level → Option Nat
  | next :: rest, skipped, v :: vs =>
    if ¬ v.live ∧ next.instruction.opensBlock then
      firstFault m locals results rest (skipped + 1) (v :: vs)
    else if ¬ v.live ∧ next.instruction = .endMark ∧ 0 < skipped then
      firstFault m locals results rest (skipped - 1) (v :: vs)
    else if ¬ v.live ∧ (0 < skipped ∨ ¬ next.instruction.closesBlock) then
      firstFault m locals results rest skipped (v :: vs)
    else
      match rule m locals results next.instruction v vs with
      | none => some next.pos
      | some vs => firstFault m locals results rest skipped vs
  | _, _, _ => none

/-- The offset of the first instruction of a body that can be reached and breaks its rule. -/
def fault (m : Module) (type : FunctionType) (body : Body) : Option Nat :=
  firstFault m (type.params.toArray ++ body.locals) type.results body.instructions.toList 0
    [⟨.function, type.params, type.results, [], true, false, false⟩]

/-! ### Operands on top -/

namespace Level

variable {v : Level} {rest types : List ValueType}

theorem take_eq (h : v.operands = rest ++ types) :
    v.take types = some { v with operands := rest } := by
  rw [take, h, if_pos (List.suffix_append _ _), List.length_append, Nat.add_sub_cancel,
    List.take_left]

theorem take_eq_none (h : ¬ types <:+ v.operands) : v.take types = none := if_neg h

end Level

end Validation

namespace IR

open Validation (Level)

/-! ### What ties a builder to validation -/

/-- A frame is that of an open block. -/
structure FrameOf (v : Level) (f : Frame) : Prop where
  kind : f.kind = v.kind
  params : f.params = v.params
  results : f.results = v.results
  live : f.unreachable = !v.live
  reached : v.reached = (f.targeted || f.firstFallsThrough)
  second : v.second = f.firstArm.isSome
  /-- Only the first arm of an `if` falls through into what follows a second one. -/
  firstArm : f.firstFallsThrough → f.kind = .conditional ∧ f.firstArm.isSome
  /-- The slots of the results are as many as these, and so are those of the parameters. -/
  resultSlots : f.kind ≠ .function → f.resultSlots.length = f.results.length
  paramSlots : f.kind = .loop → f.paramSlots.length = f.params.length
  /-- The second arm starts with the parameters. -/
  paramValues : f.kind = .conditional → f.paramValues.map Expression.type = f.params

/-- Open blocks and the operands of each of them, with those of the innermost block on top. -/
inductive Layers : List Level → List Frame → List Expression → Prop
  | nil : Layers [] [] []
  | cons {v : Level} {vs : List Level} {f : Frame} {fs : List Frame} {pend below : List Expression}
      (types : pend.map Expression.type = v.operands) (height : f.height = below.length)
      (stands : FrameOf v f) (stable : ∀ e ∈ below, e.isStable)
      (root : f.kind = .function ↔ fs = []) (rest : Layers vs fs below) :
      Layers (v :: vs) (f :: fs) (pend.reverse ++ below)

/-- A build does what validation says: it goes on with the same open blocks, or it fails. -/
def Follows (r : Except BuildFailure (Unit × Builder)) (o : Option (List Level)) (pos : Nat) :
    Prop :=
  match o with
  | some vs => ∃ b, r = .ok ((), b) ∧ Layers vs b.frames b.stack
  | none => Fails r pos

/-- As `Follows`, for an instruction that may close the function: then no block is open any more. -/
def Closes (r : Except BuildFailure (Option (List Statement) × Builder)) (o : Option (List Level))
    (pos : Nat) : Prop :=
  match o with
  | some [] => ∃ body b, r = .ok (some body, b)
  | some (v :: vs) => ∃ b, r = .ok (none, b) ∧ Layers (v :: vs) b.frames b.stack
  | none => Fails r pos

namespace FrameOf

variable {v : Level} {f : Frame}

theorem add (h : FrameOf v f) (ss : List Statement) : FrameOf v (f.add ss) :=
  { h with }

theorem operands (h : FrameOf v f) (types : List ValueType) :
    FrameOf { v with operands := types } f :=
  { h with }

theorem stop (h : FrameOf v f) : FrameOf v.stop f.dead :=
  { h with live := rfl }

theorem reach (h : FrameOf v f) :
    FrameOf { v with reached := true } { f with targeted := true } :=
  { h with reached := rfl }

theorem labelTypes (h : FrameOf v f) : f.labelTypes = v.labelTypes := by
  rw [Frame.labelTypes, Level.labelTypes, ← h.kind, ← h.params, ← h.results]
  cases f.kind <;> rfl

theorem secondArm (h : FrameOf v f) (hfirst : f.firstArm.isNone) (hkind : f.kind = .conditional) :
    FrameOf
      { v with operands := v.params, live := true, reached := v.reached || v.live, second := true }
      (Build.secondArm f) :=
  { h with
    live := rfl
    reached := by
      have hnot : f.firstFallsThrough = false := by
        by_contra hfalls
        have hsome := (h.firstArm ((Bool.not_eq_false _).mp hfalls)).2
        rw [Option.isNone_iff_eq_none.mp hfirst] at hsome
        cases hsome
      simp [Build.secondArm, h.reached, h.live, hnot]
    second := rfl
    firstArm := fun _ => ⟨hkind, rfl⟩ }

theorem oneArmed_iff (h : FrameOf v f) :
    v.oneArmed ↔ f.kind = .conditional ∧ f.firstArm.isNone := by
  rw [Level.oneArmed, ← h.kind, h.second]
  simp

/-- The end of an arm: what is pending is what the results are, if the end is reached. -/
theorem complete_iff {pend : List Expression} (h : FrameOf v f)
    (types : pend.map Expression.type = v.operands) :
    v.Complete ↔ (f.unreachable = false → pend.map Expression.type = f.results) := by
  rw [Level.Complete, h.live, types, h.results]
  simp

theorem leaves_eq (h : FrameOf v f) : f.leaves = v.leaves := by
  rw [Bool.eq_iff_iff]
  simp only [Frame.leaves, Level.leaves, decide_eq_true_eq, h.live, h.reached, ← h.kind,
    h.oneArmed_iff]
  cases hfalls : f.firstFallsThrough with
  | false => simp
  | true =>
    have hkind := (h.firstArm hfalls).1
    simp [hkind]

end FrameOf

namespace Layers

variable {v : Level} {vs : List Level} {frames : List Frame} {stack : List Expression}

theorem exists_top (h : Layers (v :: vs) frames stack) :
    ∃ f fs, ∃ pend below : List Expression, frames = f :: fs ∧ stack = pend.reverse ++ below ∧
      pend.map Expression.type = v.operands ∧ f.height = below.length ∧ FrameOf v f ∧
      (∀ e ∈ below, e.isStable) ∧ (f.kind = .function ↔ fs = []) ∧ Layers vs fs below := by
  cases h with
  | cons types height stands stable root rest =>
    exact ⟨_, _, _, _, rfl, rfl, types, height, stands, stable, root, rest⟩

theorem labelTypes (h : Layers vs frames stack) (depth : Nat) :
    frames[depth]?.map Frame.labelTypes = Validation.labelTypes? vs depth := by
  induction h generalizing depth with
  | nil => rfl
  | cons types height stands stable root rest ih =>
    cases depth with
    | zero => exact congrArg some stands.labelTypes
    | succ depth => exact ih depth

theorem reach (h : Layers vs frames stack) (depth : Nat) :
    Layers (Validation.reach depth vs) (Build.marked depth frames) stack := by
  induction h generalizing depth with
  | nil => simpa [Validation.reach, Build.marked] using Layers.nil
  | cons types height stands stable root rest ih =>
    cases depth with
    | zero => exact .cons types height stands.reach stable root rest
    | succ depth =>
      exact .cons types height stands stable (root.trans List.modify_eq_nil_iff.symm) (ih depth)

theorem reachAll (depths : List Nat) : ∀ {vs : List Level} {frames : List Frame},
    Layers vs frames stack →
      Layers (depths.foldl (fun vs d => Validation.reach d vs) vs) (Build.markedAll depths frames)
        stack := by
  induction depths with
  | nil => exact fun h => h
  | cons d depths ih => exact fun h => ih (h.reach d)

end Layers

/-! ### Instructions that fall through -/

section Instructions

open Build

variable {ctx : Context} {results : List ValueType} {v : Level} {vs : List Level}
variable {f : Frame} {fs : List Frame} {pend below : List Expression} {temps : Array Temp}
variable {label pos : Nat}

theorem rule_plain {m : Module} {locals : Array ValueType} {i : Instruction} (h : i.isPlain) :
    Validation.rule m locals results i v vs
      = (i.signature m locals).bind fun type =>
          (v.take type.params).bind fun w => some (w.push type.results :: vs) := by
  cases i <;> first | rfl | cases h

/-- A frame that only got more statements, and whose operands changed. -/
theorem Layers.of_pend (ss : List Statement) (es : List Expression)
    (stands : FrameOf v f) (hheight : f.height = below.length) (stable : ∀ e ∈ below, e.isStable)
    (root : f.kind = .function ↔ fs = []) (rest : Layers vs fs below) :
    Layers ({ v with operands := es.map Expression.type } :: vs) (f.add ss :: fs)
      (es.reverse ++ below) :=
  .cons rfl hheight ((stands.add ss).operands _) stable root rest

/-- A frame whose end is not reached any more. -/
theorem Layers.of_stop (ss : List Statement) (stands : FrameOf v f)
    (hheight : f.height = below.length) (stable : ∀ e ∈ below, e.isStable)
    (root : f.kind = .function ↔ fs = []) (rest : Layers vs fs below) :
    Layers (v.stop :: vs) ((f.add ss).dead :: fs) below :=
  @Layers.cons _ _ _ _ [] below rfl hheight (stands.add ss).stop stable root rest

/-- What a block starts with has the types of its parameters. -/
theorem types_opening {kind : FrameKind} {type : BlockType} {condition : Option Expression}
    {params : List Expression} {height : Nat} (hparams : params.map Expression.type = type.params) :
    (opening kind type condition params height label temps).operands.map Expression.type
      = type.params := by
  by_cases hkind : kind = .loop
  · simp only [opening, if_pos hkind]
    exact types_refs List.length_range'
  · simp only [opening, if_neg hkind]
    exact hparams

theorem frameOf_opening {kind : FrameKind} {type : BlockType} {condition : Option Expression}
    {params : List Expression} {height : Nat} (hparams : params.map Expression.type = type.params) :
    FrameOf ⟨kind, type.params, type.results, type.params, true, false, false⟩
      (opening kind type condition params height label temps).frame where
  kind := rfl
  params := rfl
  results := rfl
  live := rfl
  reached := rfl
  second := rfl
  firstArm := by rintro ⟨⟩
  resultSlots _ := List.length_range'
  paramSlots hkind := by
    have hloop : kind = .loop := hkind
    simp only [opening, if_pos hloop]
    exact List.length_range'
  paramValues _ := hparams

variable (types : pend.map Expression.type = v.operands) (hheight : f.height = below.length)
variable (stands : FrameOf v f) (stable : ∀ e ∈ below, e.isStable)
variable (root : f.kind = .function ↔ fs = []) (rest : Layers vs fs below)
include types hheight stands stable root rest

theorem follows_plain {i : Instruction} (hplain : i.isPlain) (hknown : i.Known) :
    Follows (step ctx i ⟨pend.reverse ++ below, f :: fs, temps, label, pos⟩)
      (Validation.rule ctx.module ctx.localTypes results i v vs) pos := by
  rw [rule_plain hplain]
  cases hsig : i.signature ctx.module ctx.localTypes with
  | none => exact step_fails hplain hknown hsig _
  | some type =>
    rcases step_plain_cases fs pend temps label pos hsig hheight with
      ⟨pend', es, w, rfl, hes, hw, hwtypes, hstep⟩ | ⟨hno, hfails⟩
    · have htake : v.take type.params = some { v with operands := pend'.map Expression.type } :=
        Level.take_eq (by rw [← types, List.map_append, hes])
      rw [hstep, accept_eq stable]
      simp only [Option.bind_some, htake]
      refine ⟨_, rfl, ?_⟩
      have hlayers := Layers.of_pend (settlingWork temps.size pend' w).statements
        (settlingWork temps.size pend' w).operands stands hheight stable root rest
      rwa [types_settlingWork, hwtypes] at hlayers
    · rw [types] at hno
      simp only [Option.bind_some, Level.take_eq_none hno, Option.bind_none]
      exact hfails

theorem follows_drop :
    Follows (step ctx .drop ⟨pend.reverse ++ below, f :: fs, temps, label, pos⟩)
      (Validation.rule ctx.module ctx.localTypes results .drop v vs) pos := by
  unfold Validation.rule
  dsimp only
  rcases drop_cases ctx f fs pend temps label pos hheight stable with
    ⟨pend', e, rfl, hstep⟩ | ⟨hempty, hfails⟩
  · have hlast : v.operands.getLast? = some e.type := by rw [← types]; simp
    have htake : v.take [e.type] = some { v with operands := pend'.map Expression.type } :=
      Level.take_eq (by rw [← types, List.map_append]; rfl)
    rw [hstep]
    simp only [Option.bind_eq_bind, hlast, Option.bind_some, htake]
    have hlayers :=
      Layers.of_pend ((settlingIf e.hasEffects temps.size pend').statements ++ effects [e])
        (settlingIf e.hasEffects temps.size pend').operands stands hheight stable root rest
    rw [types_settlingIf] at hlayers
    exact ⟨_, rfl, hlayers⟩
  · have hlast : v.operands.getLast? = none := by rw [← types, hempty]; rfl
    simp only [Option.bind_eq_bind, hlast, Option.bind_none]
    exact hfails

theorem follows_select :
    Follows (step ctx .select ⟨pend.reverse ++ below, f :: fs, temps, label, pos⟩)
      (Validation.rule ctx.module ctx.localTypes results .select v vs) pos := by
  rw [step]
  unfold Validation.rule
  dsimp only
  rcases select_cases ctx f fs pend temps label pos hheight stable with
    ⟨pend₁, condition, needed, pend₂, a, b, rfl, hcondition, hb, ha, -, hselect⟩ | ⟨hno, hfails⟩
  · have hoperands : pend₁.map Expression.type = pend₂.map Expression.type ++ [b.type, b.type] := by
      rw [← types_settlingIf needed temps.size, hb, List.map_append, ← ha]
      simp [ha]
    have htake₁ : v.take [.i32] = some { v with operands := pend₁.map Expression.type } :=
      Level.take_eq (by rw [← types, List.map_append, ← hcondition]; rfl)
    have hlast : (pend₁.map Expression.type).getLast? = some b.type := by rw [hoperands]; simp
    have htake₂ : Level.take { v with operands := pend₁.map Expression.type } [b.type, b.type]
        = some { v with operands := pend₂.map Expression.type } := Level.take_eq hoperands
    simp only [htake₁, Option.bind_eq_bind, Option.bind_some, hlast, htake₂]
    rw [hselect]
    refine ⟨_, rfl, ?_⟩
    have hlayers := Layers.of_pend (settlingIf needed temps.size pend₁).statements
      (pend₂ ++ [.select b.type condition a b]) stands hheight stable root rest
    rwa [List.map_append] at hlayers
  -- Either there is no condition, or there are not two operands of one type below it.
  · have hnone : (do
        let w ← v.take [.i32]
        let type ← w.operands.getLast?
        let w ← w.take [type, type]
        pure (w.push [type] :: vs) : Option (List Level)) = none := by
      by_cases htop : [.i32] <:+ v.operands
      · obtain ⟨ts, hts⟩ := htop
        rw [Level.take_eq hts.symm]
        simp only [Option.bind_eq_bind, Option.bind_some]
        cases hlast : ts.getLast? with
        | none => rfl
        | some type =>
          rw [Option.bind_some, Level.take_eq_none]
          · rfl
          · rintro ⟨us, hus⟩
            refine hno us type ?_
            rw [types, ← hts, ← (show us ++ [type, type] = ts from hus)]
            simp
      · rw [Level.take_eq_none htop]
        rfl
    rw [hnone]
    exact hfails

/-! ### Instructions that end with control elsewhere -/

omit types in
theorem follows_unreachable :
    Follows (step ctx .unreachable ⟨pend.reverse ++ below, f :: fs, temps, label, pos⟩)
      (Validation.rule ctx.module ctx.localTypes results .unreachable v vs) pos := by
  exact ⟨_, unreachable_eq ctx f fs pend temps label pos hheight,
    Layers.of_stop _ stands hheight stable root rest⟩

theorem follows_br (depth : Nat) :
    Follows (step ctx (.br depth) ⟨pend.reverse ++ below, f :: fs, temps, label, pos⟩)
      (Validation.rule ctx.module ctx.localTypes results (.br depth) v vs) pos := by
  have hlabel := (Layers.cons types hheight stands stable root rest).labelTypes depth
  unfold Validation.rule
  dsimp only
  rw [← hlabel]
  rcases br_cases ctx f fs pend temps label pos depth hheight with
    ⟨t, pend', es, ht, rfl, hes, hstep⟩ | ⟨hno, hfails⟩
  · have htake : v.take t.labelTypes = some { v with operands := pend'.map Expression.type } :=
      Level.take_eq (by rw [← types, List.map_append, hes])
    rw [ht, hstep]
    simp only [Option.map_some, Option.bind_eq_bind, Option.bind_some, htake]
    exact ⟨_, rfl, (Layers.of_stop _ (stands.operands _) hheight stable root rest).reachAll [depth]⟩
  · rw [types] at hno
    cases ht : (f :: fs)[depth]? with
    | none => exact hfails
    | some t =>
      simp only [Option.map_some, Option.bind_eq_bind, Option.bind_some,
        Level.take_eq_none (hno t ht), Option.bind_none]
      exact hfails

theorem follows_ret :
    Follows (step ctx .ret ⟨pend.reverse ++ below, f :: fs, temps, label, pos⟩)
      (Validation.rule ctx.module ctx.localTypes ctx.type.results .ret v vs) pos := by
  unfold Validation.rule
  dsimp only
  rcases ret_cases ctx f fs pend temps label pos hheight with
    ⟨pend', es, rfl, hes, hstep⟩ | ⟨hno, hfails⟩
  · have htake : v.take ctx.type.results = some { v with operands := pend'.map Expression.type } :=
      Level.take_eq (by rw [← types, List.map_append, hes])
    rw [htake, hstep]
    exact ⟨_, rfl, Layers.of_stop _ (stands.operands _) hheight stable root rest⟩
  · rw [types] at hno
    rw [Level.take_eq_none hno]
    exact hfails

theorem follows_brIf (depth : Nat) :
    Follows (step ctx (.brIf depth) ⟨pend.reverse ++ below, f :: fs, temps, label, pos⟩)
      (Validation.rule ctx.module ctx.localTypes results (.brIf depth) v vs) pos := by
  have hlabel := (Layers.cons types hheight stands stable root rest).labelTypes depth
  unfold Validation.rule
  dsimp only
  rw [← hlabel]
  rcases brIf_cases ctx f fs pend temps label pos depth hheight stable with
    ⟨t, pend', condition, rest', es, ht, rfl, hcondition, hrest, hes, hstep⟩ | ⟨hno, hfails⟩
  · have htake : v.take [.i32] = some { v with operands := pend'.map Expression.type } :=
      Level.take_eq (by rw [← types, List.map_append, ← hcondition]; rfl)
    have hpeek : Level.take { v with operands := pend'.map Expression.type } t.labelTypes
        = some { v with operands := rest'.map Expression.type } := by
      refine Level.take_eq ?_
      rw [← hes, ← List.map_append, ← hrest, types_settling]
    rw [ht, hstep]
    simp only [htake, Option.map_some, Option.bind_eq_bind, Option.bind_some, hpeek]
    refine ⟨_, rfl, ?_⟩
    have hlayers := (Layers.of_pend ((settling temps.size pend').statements
      ++ [.branchIf condition (branchAt (f :: fs) es depth)])
      (settling temps.size pend').operands stands hheight stable root rest).reachAll [depth]
    rwa [types_settling] at hlayers
  · rw [types] at hno
    -- Either no condition is on top, or the values below it do not fit the target.
    by_cases htop : [.i32] <:+ v.operands
    · obtain ⟨ts, hts⟩ := htop
      rw [Level.take_eq hts.symm]
      cases ht : (f :: fs)[depth]? with
      | none => exact hfails
      | some t =>
        simp only [Option.map_some, Option.bind_eq_bind, Option.bind_some]
        rw [Level.take_eq_none (hno t ts ht hts.symm)]
        exact hfails
    · rw [Level.take_eq_none htop]
      exact hfails

theorem follows_brTable (depths : List Nat) (default : Nat) :
    Follows (step ctx (.brTable depths default) ⟨pend.reverse ++ below, f :: fs, temps, label, pos⟩)
      (Validation.rule ctx.module ctx.localTypes results (.brTable depths default) v vs) pos := by
  have hlabel (d : Nat) := (Layers.cons types hheight stands stable root rest).labelTypes d
  unfold Validation.rule
  dsimp only
  simp only [← hlabel]
  rcases brTable_cases ctx f fs pend temps label pos depths default hheight stable with
    ⟨targetTypes, pend', index, rest', es, rfl, hindex, hrest, hes, hdefault, hall, hstep⟩ |
    ⟨hno, hfails⟩
  · have htake : v.take [.i32] = some { v with operands := pend'.map Expression.type } :=
      Level.take_eq (by rw [← types, List.map_append, ← hindex]; rfl)
    have hpop : Level.take { v with operands := pend'.map Expression.type } targetTypes
        = some { v with operands := rest'.map Expression.type } := by
      refine Level.take_eq ?_
      rw [← hes, ← List.map_append, ← hrest, types_settling]
    rw [hstep, htake, hdefault]
    simp only [Option.bind_eq_bind, Option.bind_some, hpop, if_pos hall]
    refine ⟨_, rfl, ?_⟩
    rw [markedAll_concat]
    exact ((Layers.of_stop _ (stands.operands _) hheight stable root rest).reachAll depths).reach
      default
  -- What is missing is the index, the default, its values, or a target that takes the same.
  · rw [types] at hno
    by_cases htop : [.i32] <:+ v.operands
    · obtain ⟨ts, hts⟩ := htop
      rw [Level.take_eq hts.symm]
      cases ht : (f :: fs)[default]? with
      | none => exact hfails
      | some t =>
        simp only [Option.map_some, Option.bind_eq_bind, Option.bind_some]
        by_cases hsuffix : t.labelTypes <:+ ts
        · obtain ⟨us, hus⟩ := hsuffix
          have hall := hno t.labelTypes us (by rw [hus, hts]) (by rw [ht]; rfl)
          rw [Level.take_eq hus.symm, Option.bind_some, if_neg hall]
          exact hfails
        · rw [Level.take_eq_none hsuffix]
          exact hfails
    · rw [Level.take_eq_none htop]
      exact hfails

/-! ### Blocks -/

theorem follows_enter {kind : FrameKind} (hkind : kind ≠ .function) (type : BlockType)
    (condition : Option Expression) :
    Follows (openFrame ctx kind type condition ⟨pend.reverse ++ below, f :: fs, temps, label, pos⟩)
      (Validation.enter kind type v vs) pos := by
  rw [Validation.enter]
  rcases openFrame_cases ctx f fs pend temps label pos kind type condition hheight stable with
    ⟨pend', params, hpend, hparams, hopen⟩ | ⟨hno, hfails⟩
  · have htake : v.take type.params = some { v with operands := pend'.map Expression.type } := by
      refine Level.take_eq ?_
      rw [← types, ← hparams, ← List.map_append, ← hpend, types_settling]
    rw [htake, hopen]
    refine ⟨_, rfl, ?_⟩
    have hsettled := isStable_settling temps.size pend
    rw [hpend] at hsettled
    refine .cons (types_opening hparams) rfl (frameOf_opening hparams) ?_
      (iff_of_false hkind (List.cons_ne_nil _ _)) (.of_pend _ pend' stands hheight stable root rest)
    intro e he
    rcases List.mem_append.mp he with he | he
    · exact hsettled e (List.mem_append_left _ (List.mem_reverse.mp he))
    · exact stable e he
  · rw [types] at hno
    rw [Level.take_eq_none hno]
    exact hfails

theorem follows_ifBlock (type : BlockType) :
    Follows (step ctx (.ifBlock type) ⟨pend.reverse ++ below, f :: fs, temps, label, pos⟩)
      (Validation.rule ctx.module ctx.localTypes results (.ifBlock type) v vs) pos := by
  rw [step]
  unfold Validation.rule
  dsimp only
  rcases pop_type_cases ctx fs pend temps label pos .i32 hheight with
    ⟨pend', condition, rfl, hcondition, hpop⟩ | ⟨hno, hfails⟩
  · have htake : v.take [.i32] = some { v with operands := pend'.map Expression.type } :=
      Level.take_eq (by rw [← types, List.map_append, ← hcondition]; rfl)
    rw [bind_of_ok hpop, htake]
    exact follows_enter rfl hheight (stands.operands _) stable root rest (by rintro ⟨⟩) _ _
  · rw [types] at hno
    rw [Level.take_eq_none hno]
    exact bind_of_fails hfails

theorem follows_elseMark :
    Follows (step ctx .elseMark ⟨pend.reverse ++ below, f :: fs, temps, label, pos⟩)
      (Validation.rule ctx.module ctx.localTypes results .elseMark v vs) pos := by
  have hiff : v.oneArmed ∧ v.Complete ↔ f.kind = .conditional ∧ f.firstArm.isNone
      ∧ (f.unreachable = false → pend.map Expression.type = f.results) := by
    rw [stands.oneArmed_iff, stands.complete_iff types, and_assoc]
  rw [step]
  unfold Validation.rule
  dsimp only
  rcases startElse_cases ctx f fs pend temps label pos hheight with ⟨hok, hstep⟩ | ⟨hno, hfails⟩
  · rw [if_pos (hiff.mpr hok), hstep]
    refine ⟨_, rfl, ?_⟩
    have hparams := (stands.paramValues hok.1).trans stands.params
    obtain ⟨ss, hss⟩ := exists_finished f pend
    rw [hss]
    exact .cons hparams hheight ((stands.add ss).secondArm hok.2.1 hok.1) stable root rest
  · rw [if_neg fun h => hno (hiff.mp h)]
    exact hfails

/-! ### All instructions -/

/-- An instruction other than `end` goes on if it obeys its rule, and else fails. -/
theorem follows_step {i : Instruction} (hknown : i.Known) (hend : i ≠ .endMark) :
    Follows (step ctx i ⟨pend.reverse ++ below, f :: fs, temps, label, pos⟩)
      (Validation.rule ctx.module ctx.localTypes ctx.type.results i v vs) pos := by
  cases i with
  | nop => exact ⟨_, rfl, .cons types hheight stands stable root rest⟩
  | unreachable => exact follows_unreachable hheight stands stable root rest
  | block type => exact follows_enter types hheight stands stable root rest (by rintro ⟨⟩) _ _
  | loop type => exact follows_enter types hheight stands stable root rest (by rintro ⟨⟩) _ _
  | ifBlock type => exact follows_ifBlock types hheight stands stable root rest _
  | elseMark => exact follows_elseMark types hheight stands stable root rest
  | endMark => exact (hend rfl).elim
  | br depth => exact follows_br types hheight stands stable root rest _
  | brIf depth => exact follows_brIf types hheight stands stable root rest _
  | brTable depths default => exact follows_brTable types hheight stands stable root rest _ _
  | ret => exact follows_ret types hheight stands stable root rest
  | drop => exact follows_drop types hheight stands stable root rest
  | select => exact follows_select types hheight stands stable root rest
  | _ => exact follows_plain types hheight stands stable root rest rfl hknown

/-- The `end` of the function gives its body if it obeys its rule, that of a block goes on if it
does, and else both fail. -/
theorem closes_end :
    Closes (close ctx ⟨pend.reverse ++ below, f :: fs, temps, label, pos⟩)
      (Validation.rule ctx.module ctx.localTypes results .endMark v vs) pos := by
  have hiff : v.Ends ↔
      (f.kind = .conditional ∧ f.firstArm.isNone → f.params = [] ∧ f.results = [])
        ∧ (f.unreachable = false → pend.map Expression.type = f.results) := by
    rw [Level.Ends, stands.oneArmed_iff, stands.complete_iff types, stands.params, stands.results,
      and_comm]
  unfold Validation.rule
  dsimp only
  rw [close, bind_of_ok (frame_eq rfl)]
  -- The last `end` closes the function, and any other gives its results to the block around.
  cases rest with
  | nil =>
    have hkind : f.kind = .function := root.mpr rfl
    rw [if_pos hkind, map_eq_pure_bind]
    rcases closeFunction_cases ctx f [] pend temps label pos hheight with
      ⟨hok, stack, hclose⟩ | ⟨hno, hfails⟩
    · have harms : ¬ (f.kind = .conditional ∧ f.firstArm.isNone) := by simp [hkind]
      rw [if_pos (hiff.mpr ⟨fun h => (harms h).elim, hok⟩), bind_of_ok hclose]
      exact ⟨finishedBody f pend, _, rfl⟩
    · rw [if_neg fun h => hno (hiff.mp h).2]
      exact bind_of_fails hfails
  | @cons w ws g gs gpend gbelow types' height' stands' stable' root' rest' =>
    have hblock : f.kind ≠ .function := fun h => List.cons_ne_nil _ _ (root.mp h)
    rw [if_neg hblock]
    rcases closeBlock_cases ctx f g gs pend temps label pos hheight rfl height' with
      ⟨hok, hclose⟩ | ⟨hno, hfails⟩
    · rw [if_pos (hiff.mpr hok), bind_of_ok hclose, Validation.leave, stands.leaves_eq]
      refine ⟨_, rfl, ?_⟩
      by_cases hleaves : v.leaves
      · rw [if_pos hleaves, if_pos hleaves]
        have hlayers := Layers.of_pend [(finished f pend).toStatement]
          (gpend ++ refs f.resultSlots f.results) stands' height' stable' root' rest'
        rw [List.map_append, types', types_refs (stands.resultSlots hblock)] at hlayers
        rwa [Level.push, ← stands.results]
      · rw [if_neg hleaves, if_neg hleaves]
        exact Layers.of_stop _ stands' height' stable' root' rest'
    · rw [if_neg fun h => hno (hiff.mp h)]
      exact bind_of_fails hfails

end Instructions

end IR

end WasmScript
