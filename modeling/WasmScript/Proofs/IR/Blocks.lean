/-
  WasmScript/Proofs/IR/Blocks.lean
  ================================
  **Opening and closing blocks** — what becomes of a builder at the ends of its blocks.

  Opening a block binds all that is pending, takes the parameters and sets up the slots:
  `Opening` is what comes of it.  Closing one writes what is pending to the slots, unless
  its end is not reached, and puts the finished block into the one around it.
-/
import WasmScript.Proofs.IR.Plain

namespace WasmScript.IR

namespace Build

variable {ctx : Context} {f g : Frame} {fs gs : List Frame} {pend below : List Expression}
variable {temps : Array Temp} {label pos : Nat}

/-! ### Opening a block -/

def assignments (slots : List Nat) (values : List Expression) : List Statement :=
  if values = [] then [] else [.assign slots values]

theorem assign_eq {stack : List Expression} (slots : List Nat) (values : List Expression) :
    assign ctx slots values ⟨stack, f :: fs, temps, label, pos⟩
      = .ok ((), ⟨stack, f.add (assignments slots values) :: fs, temps, label, pos⟩) := by
  by_cases h : values = []
  · rw [assign, assignments, if_pos h, if_pos h, Frame.add_nil]
    rfl
  · rw [assign, assignments, if_neg h, if_neg h]
    exact emit_eq _

/-- What comes of opening a block: its frame, the temporaries, the statements before it and the
operands that it starts with. -/
structure Opening where
  frame : Frame
  temps : Array Temp
  before : List Statement
  operands : List Expression

/-- Opens a block whose parameters are some expressions, with a height and a label. -/
def opening (kind : FrameKind) (type : BlockType) (condition : Option Expression)
    (params : List Expression) (height label : Nat) (temps : Array Temp) : Opening :=
  let results := temps ++ (freshTemps .slot temps.size type.results).toArray
  let carried := if kind = .loop then type.params else []
  let paramSlots := List.range' results.size carried.length
  { frame :=
      { kind, label, height, paramSlots, condition
        resultSlots := List.range' temps.size type.results.length
        params := type.params
        results := type.results
        paramValues := params }
    temps := results ++ (freshTemps .slot results.size carried).toArray
    before := assignments paramSlots (if kind = .loop then params else [])
    operands := if kind = .loop then refs paramSlots type.params else params }

variable (ctx) (f) (fs) (pend) (temps) (label) (pos) in
theorem openFrame_cases (kind : FrameKind) (type : BlockType) (condition : Option Expression)
    (hheight : f.height = below.length) (hbelow : ∀ e ∈ below, e.isStable) :
    (∃ rest params, (settling temps.size pend).operands = rest ++ params ∧
        params.map Expression.type = type.params ∧
        let o := opening kind type condition params (rest.reverse ++ below).length label
          (temps ++ (settling temps.size pend).temps.toArray)
        openFrame ctx kind type condition ⟨pend.reverse ++ below, f :: fs, temps, label, pos⟩
          = .ok ((), ⟨o.operands.reverse ++ (rest.reverse ++ below),
              o.frame :: f.add ((settling temps.size pend).statements ++ o.before) :: fs, o.temps,
              label + 1, pos⟩)) ∨
      (¬ type.params <:+ pend.map Expression.type ∧
        Fails (openFrame ctx kind type condition
            ⟨pend.reverse ++ below, f :: fs, temps, label, pos⟩)
          pos) := by
  have hadd (ss : List Statement) : (f.add ss).height = below.length := hheight
  rw [openFrame, bind_of_ok (flush_eq hbelow)]
  -- What is pending has been settled before the parameters are taken from it.
  rcases popValues_cases ctx fs (settling temps.size pend).operands
    (temps ++ (settling temps.size pend).temps.toArray) label pos type.params (hadd _) with
    ⟨rest, params, hpend, hparams, hpop⟩ | ⟨hno, hfails⟩
  · refine .inl ⟨rest, params, hpend, hparams, ?_⟩
    rw [bind_of_ok hpop, bind_of_ok (a := _) rfl, bind_of_ok (a := ()) rfl,
      bind_of_ok (newTemps_eq _ _ _), bind_of_ok (newTemps_eq _ _ _), bind_of_ok (assign_eq _ _),
      bind_of_ok (a := ()) rfl, Frame.add_add]
    rfl
  · rw [types_settling] at hno
    exact .inr ⟨hno, bind_of_fails hfails⟩

/-! ### The results of a block -/

section Cases

variable (ctx) (f) (fs) (pend) (temps) (label) (pos)

theorem popResults_cases (hheight : f.height = below.length) :
    (pend.map Expression.type = f.results ∧
        popResults ctx f ⟨pend.reverse ++ below, f :: fs, temps, label, pos⟩
          = .ok (pend, ⟨below, f :: fs, temps, label, pos⟩)) ∨
      (pend.map Expression.type ≠ f.results ∧
        Fails (popResults ctx f ⟨pend.reverse ++ below, f :: fs, temps, label, pos⟩) pos) := by
  rw [popResults]
  rcases popValues_cases ctx fs pend temps label pos f.results hheight with
    ⟨rest, es, rfl, hes, hpop⟩ | ⟨hno, hfails⟩
  · rw [bind_of_ok hpop, bind_of_ok (a := _) rfl]
    dsimp only
    by_cases hrest : rest = []
    · have hleft : (rest.reverse ++ below).length = f.height := by rw [hrest, hheight]; rfl
      rw [require_eq hleft, hrest]
      exact .inl ⟨hes, rfl⟩
    · have hleft : (rest.reverse ++ below).length ≠ f.height := by
        have hpos := List.length_pos_iff.mpr hrest
        rw [List.length_append, List.length_reverse, hheight]
        omega
      refine .inr ⟨?_, bind_of_fails (require_fails hleft)⟩
      rw [← hes, List.map_append]
      intro h
      exact hrest (List.map_eq_nil_iff.mp (List.append_left_eq_self.mp h))
  · exact .inr ⟨fun h => hno (h ▸ List.suffix_rfl), bind_of_fails hfails⟩

/-- The block with its results written to its slots, if its end is reached. -/
def finished (f : Frame) (pend : List Expression) : Frame :=
  if f.unreachable then f else f.add (assignments f.resultSlots pend)

theorem exists_finished (f : Frame) (pend : List Expression) :
    ∃ ss, finished f pend = f.add ss := by
  rw [finished]
  split
  · exact ⟨[], f.add_nil.symm⟩
  · exact ⟨_, rfl⟩

/-- The results of a block are written, if they are what they should be or its end is not
reached. -/
theorem assignResults_cases (hheight : f.height = below.length) :
    ((f.unreachable = false → pend.map Expression.type = f.results) ∧
        ∃ own, ifReached f (assignResults ctx f)
            ⟨pend.reverse ++ below, f :: fs, temps, label, pos⟩
          = .ok ((), ⟨own ++ below, finished f pend :: fs, temps, label, pos⟩)) ∨
      (f.unreachable = false ∧ pend.map Expression.type ≠ f.results ∧
        Fails (ifReached f (assignResults ctx f)
          ⟨pend.reverse ++ below, f :: fs, temps, label, pos⟩) pos) := by
  cases hlive : f.unreachable with
  | true =>
    refine .inl ⟨by rintro ⟨⟩, pend.reverse, ?_⟩
    rw [ifReached, finished, if_pos hlive, if_pos hlive]
    rfl
  | false =>
    have hnot : ¬ f.unreachable = true := by rw [hlive]; exact Bool.false_ne_true
    rw [ifReached, finished, if_neg hnot, if_neg hnot, assignResults]
    rcases popResults_cases ctx f fs pend temps label pos hheight with
      ⟨htypes, hpop⟩ | ⟨hne, hfails⟩
    · refine .inl ⟨fun _ => htypes, [], ?_⟩
      rw [bind_of_ok hpop]
      exact assign_eq _ _
    · exact .inr ⟨rfl, hne, bind_of_fails hfails⟩

/-! ### The second arm of an `if` -/

/-- An `if` that starts its second arm. -/
def secondArm (f : Frame) : Frame :=
  { f with
    firstArm := some f.body.toList
    firstFallsThrough := ¬ f.unreachable
    unreachable := false
    body := #[] }

theorem startElse_cases (hheight : f.height = below.length) :
    ((f.kind = .conditional ∧ f.firstArm.isNone ∧
          (f.unreachable = false → pend.map Expression.type = f.results)) ∧
        startElse ctx ⟨pend.reverse ++ below, f :: fs, temps, label, pos⟩
          = .ok ((),
              ⟨f.paramValues.reverse ++ below, secondArm (finished f pend) :: fs, temps,
                label, pos⟩)) ∨
      (¬ (f.kind = .conditional ∧ f.firstArm.isNone ∧
          (f.unreachable = false → pend.map Expression.type = f.results)) ∧
        Fails (startElse ctx ⟨pend.reverse ++ below, f :: fs, temps, label, pos⟩) pos) := by
  rw [startElse, bind_of_ok (frame_eq rfl)]
  by_cases hkind : f.kind = .conditional ∧ f.firstArm.isNone
  · rw [require_eq hkind, pure_bind]
    rcases assignResults_cases ctx f fs pend temps label pos hheight with
      ⟨htypes, own, hassign⟩ | ⟨hlive, hne, hfails⟩
    · refine .inl ⟨⟨hkind.1, hkind.2, htypes⟩, ?_⟩
      rw [bind_of_ok hassign, hheight, bind_of_ok (cut_eq _ _)]
      rfl
    · exact .inr ⟨fun h => hne (h.2.2 hlive), bind_of_fails hfails⟩
  · exact .inr ⟨fun h => hkind ⟨h.1, h.2.1⟩, bind_of_fails (require_fails hkind)⟩

/-! ### The end of a block -/

variable (g) (gs) in
theorem closeBlock_cases {gpend gbelow : List Expression} (hheight : f.height = below.length)
    (hbelow : below = gpend.reverse ++ gbelow) (hg : g.height = gbelow.length) :
    (((f.kind = .conditional ∧ f.firstArm.isNone → f.params = [] ∧ f.results = []) ∧
          (f.unreachable = false → pend.map Expression.type = f.results)) ∧
        closeBlock ctx f ⟨pend.reverse ++ below, f :: g :: gs, temps, label, pos⟩
          = .ok ((),
              if f.leaves then
                ⟨(gpend ++ refs f.resultSlots f.results).reverse ++ gbelow,
                  g.add [(finished f pend).toStatement] :: gs, temps, label, pos⟩
              else
                ⟨gbelow, (g.add [(finished f pend).toStatement]).dead :: gs, temps, label, pos⟩)) ∨
      (¬ ((f.kind = .conditional ∧ f.firstArm.isNone → f.params = [] ∧ f.results = []) ∧
          (f.unreachable = false → pend.map Expression.type = f.results)) ∧
        Fails (closeBlock ctx f ⟨pend.reverse ++ below, f :: g :: gs, temps, label, pos⟩) pos) := by
  rw [closeBlock]
  -- An `if` with one arm must leave what it takes, which here is nothing.
  by_cases harms : f.kind = .conditional ∧ f.firstArm.isNone → f.params = [] ∧ f.results = []
  · rw [require_eq harms, pure_bind]
    rcases assignResults_cases ctx f (g :: gs) pend temps label pos hheight with
      ⟨htypes, own, hassign⟩ | ⟨hlive, hne, hfails⟩
    · refine .inl ⟨⟨harms, htypes⟩, ?_⟩
      have hpop : popFrame ctx ⟨own ++ below, finished f pend :: g :: gs, temps, label, pos⟩
          = .ok (finished f pend, ⟨own ++ below, g :: gs, temps, label, pos⟩) := rfl
      rw [bind_of_ok hassign, bind_of_ok hpop, hheight, bind_of_ok (cut_eq _ _),
        bind_of_ok (emit_eq _), hbelow]
      split
      · exact pushAll_eq _
      · exact markUnreachable_eq _ hg
    · exact .inr ⟨fun h => hne (h.2 hlive), bind_of_fails hfails⟩
  · exact .inr ⟨fun h => harms h.1, bind_of_fails (require_fails harms)⟩

/-- The body of the function, which leaves with its results if its end is reached. -/
def finishedBody (f : Frame) (pend : List Expression) : List Statement :=
  if f.unreachable ∨ pend = [] then f.body.toList else f.body.toList ++ [.leave pend]

theorem closeFunction_cases (hheight : f.height = below.length) :
    ((f.unreachable = false → pend.map Expression.type = f.results) ∧
        ∃ stack, closeFunction ctx f ⟨pend.reverse ++ below, f :: fs, temps, label, pos⟩
          = .ok (finishedBody f pend, ⟨stack, fs, temps, label, pos⟩)) ∨
      (¬ (f.unreachable = false → pend.map Expression.type = f.results) ∧
        Fails (closeFunction ctx f ⟨pend.reverse ++ below, f :: fs, temps, label, pos⟩) pos) := by
  rw [closeFunction, finishedBody]
  cases hlive : f.unreachable with
  | true =>
    refine .inl ⟨by rintro ⟨⟩, pend.reverse ++ below, ?_⟩
    rw [ifReached, if_pos hlive, if_pos (.inl rfl)]
    rfl
  | false =>
    have hnot : ¬ f.unreachable = true := by rw [hlive]; exact Bool.false_ne_true
    rw [ifReached, if_neg hnot, leaveResults]
    rcases popResults_cases ctx f fs pend temps label pos hheight with
      ⟨htypes, hpop⟩ | ⟨hne, hfails⟩
    · refine .inl ⟨fun _ => htypes, below, ?_⟩
      -- A `leave` is only built if there are results for it.
      by_cases hempty : pend = []
      · have hrest : (popResults ctx f >>= fun values =>
            if values = [] then pure () else emit ctx (.leave values))
              ⟨pend.reverse ++ below, f :: fs, temps, label, pos⟩
            = .ok ((), ⟨below, f :: fs, temps, label, pos⟩) := by
          rw [bind_of_ok hpop, if_pos hempty]
          rfl
        rw [bind_of_ok hrest, if_pos (.inr hempty)]
        rfl
      · have hrest : (popResults ctx f >>= fun values =>
            if values = [] then pure () else emit ctx (.leave values))
              ⟨pend.reverse ++ below, f :: fs, temps, label, pos⟩
            = .ok ((), ⟨below, f.add [.leave pend] :: fs, temps, label, pos⟩) := by
          rw [bind_of_ok hpop, if_neg hempty]
          exact emit_eq _
        rw [bind_of_ok hrest, if_neg (by simp [hempty]), ← Frame.toList_body_add]
        rfl
    · exact .inr ⟨fun h => hne (h rfl), bind_of_fails (bind_of_fails hfails)⟩

end Cases

end Build

end WasmScript.IR
