/-
  WasmScript/Proofs/IR/Branches.lean
  ==================================
  **Branches** — what becomes of a builder when control goes elsewhere.

  A branch finds the values that its target takes on top of what is pending, and marks the
  target.  Unless it depends on a condition, nothing after it is reached: what else is
  pending is dropped, and only what has effects still runs.
-/
import WasmScript.Proofs.IR.Plain

namespace WasmScript.IR

/-- A block that is targeted if it was before, or if that is so now. -/
def Frame.mark (targeted : Bool) (f : Frame) : Frame :=
  { f with targeted := f.targeted || targeted }

namespace Build

variable {ctx : Context} {f t : Frame} {fs : List Frame} {pend below : List Expression}
variable {temps : Array Temp} {label pos : Nat}

/-! ### Marking -/

/-- Whether the innermost block is marked, and what the others become, does not depend on what the
innermost block is. -/
theorem markedAll_cons (depths : List Nat) : ∀ fs : List Frame,
    ∃ c fs', ∀ f : Frame, markedAll depths (f :: fs) = f.mark c :: fs' := by
  induction depths with
  | nil => exact fun fs => ⟨false, fs, fun f => by simp [markedAll, Frame.mark]⟩
  | cons d depths ih =>
    intro fs
    cases d with
    | zero =>
      obtain ⟨c, fs', h⟩ := ih fs
      refine ⟨true, fs', fun f => ?_⟩
      have hzero : marked 0 (f :: fs) = f.mark true :: fs := by simp [marked, Frame.mark]
      rw [markedAll, List.foldl_cons, ← markedAll, hzero, h]
      simp [Frame.mark]
    | succ d =>
      obtain ⟨c, fs', h⟩ := ih (marked d fs)
      exact ⟨c, fs', fun f => h f⟩

theorem emit_markedAll {stack : List Expression} (depths : List Nat) (s : Statement) :
    emit ctx s ⟨stack, markedAll depths (f :: fs), temps, label, pos⟩
      = .ok ((), ⟨stack, markedAll depths (f.add [s] :: fs), temps, label, pos⟩) := by
  obtain ⟨c, fs', h⟩ := markedAll_cons depths fs
  rw [h, h, emit_eq]
  rfl

theorem markUnreachable_markedAll (depths : List Nat) (own : List Expression)
    (hheight : f.height = below.length) :
    markUnreachable ctx ⟨own ++ below, markedAll depths (f :: fs), temps, label, pos⟩
      = .ok ((), ⟨below, markedAll depths (f.dead :: fs), temps, label, pos⟩) := by
  obtain ⟨c, fs', h⟩ := markedAll_cons depths fs
  rw [h, h]
  exact markUnreachable_eq own hheight

theorem markedAll_concat (depths : List Nat) (depth : Nat) (frames : List Frame) :
    markedAll (depths ++ [depth]) frames = marked depth (markedAll depths frames) := by
  rw [markedAll, List.foldl_append]
  rfl

theorem branchAt_markedAll (depths : List Nat) (values : List Expression) :
    ∀ frames : List Frame, branchAt (markedAll depths frames) values = branchAt frames values := by
  induction depths with
  | nil => exact fun _ => rfl
  | cons d depths ih =>
    intro frames
    rw [markedAll, List.foldl_cons, ← markedAll, ih]
    exact funext (branchAt_marked d frames values)

/-! ### What a branch refers to -/

/-- The block at a relative depth, whatever statements the innermost one has. -/
theorem getElem?_add {depth : Nat} (ss : List Statement) (h : (f :: fs)[depth]? = some t) :
    ∃ ts, (f.add ss :: fs)[depth]? = some (t.add ts) := by
  cases depth with
  | zero =>
    obtain rfl : f = t := Option.some.inj h
    exact ⟨ss, rfl⟩
  | succ depth => exact ⟨[], by rw [Frame.add_nil]; exact h⟩

theorem getElem?_add_none {depth : Nat} (ss : List Statement) (h : (f :: fs)[depth]? = none) :
    (f.add ss :: fs)[depth]? = none := by
  cases depth with
  | zero => cases h
  | succ depth => exact h

theorem branchAt_add (ss : List Statement) (values : List Expression) :
    branchAt (f.add ss :: fs) values = branchAt (f :: fs) values := by
  funext depth
  cases depth <;> rfl

theorem labelTypes_add (depth : Nat) (ss : List Statement) :
    (f.add ss :: fs)[depth]?.map Frame.labelTypes = (f :: fs)[depth]?.map Frame.labelTypes := by
  cases depth <;> rfl

/-! ### The instructions -/

section Cases

variable (ctx) (f) (fs) (pend) (temps) (label) (pos)

theorem unreachable_eq (hheight : f.height = below.length) :
    step ctx .unreachable ⟨pend.reverse ++ below, f :: fs, temps, label, pos⟩
      = .ok ((),
        ⟨below, (f.add (effects pend ++ [.unreachable])).dead :: fs, temps, label, pos⟩) := by
  rw [step, bind_of_ok (discard_eq hheight), bind_of_ok (emit_eq _), Frame.add_add]
  exact markUnreachable_eq [] hheight

theorem br_cases (depth : Nat) (hheight : f.height = below.length) :
    (∃ t rest es, (f :: fs)[depth]? = some t ∧ pend = rest ++ es ∧
        es.map Expression.type = t.labelTypes ∧
        step ctx (.br depth) ⟨pend.reverse ++ below, f :: fs, temps, label, pos⟩
          = .ok ((), ⟨below, markedAll [depth]
              ((f.add (effects rest ++ [.branch (branchAt (f :: fs) es depth)])).dead :: fs),
              temps, label, pos⟩)) ∨
      ((∀ t, (f :: fs)[depth]? = some t → ¬ t.labelTypes <:+ pend.map Expression.type) ∧
        Fails (step ctx (.br depth) ⟨pend.reverse ++ below, f :: fs, temps, label, pos⟩) pos) := by
  rw [step]
  cases ht : (f :: fs)[depth]? with
  | none =>
    refine .inr ⟨by rintro t ⟨⟩, bind_of_fails ?_⟩
    exact target_fails (b := ⟨pend.reverse ++ below, f :: fs, temps, label, pos⟩) ht
  | some t =>
    rw [bind_of_ok (target_eq ht)]
    -- The branch takes the values of its target, and the rest is dropped with its effects.
    rcases popValues_cases ctx fs pend temps label pos t.labelTypes hheight with
      ⟨rest, es, rfl, hes, hpop⟩ | ⟨hno, hfails⟩
    · refine .inl ⟨t, rest, es, rfl, rfl, hes, ?_⟩
      have hlt : depth < (f.add (effects rest) :: fs).length := (List.getElem?_eq_some_iff.mp ht).1
      rw [bind_of_ok hpop, bind_of_ok (discard_eq hheight), bind_of_ok (branch_eq_of_lt es hlt),
        branchAt_add]
      refine (bind_of_ok (emit_markedAll [depth] _)).trans ?_
      rw [Frame.add_add]
      exact markUnreachable_markedAll [depth] [] hheight
    · refine .inr ⟨?_, bind_of_fails hfails⟩
      rintro _ ⟨⟩
      exact hno

theorem ret_cases (hheight : f.height = below.length) :
    (∃ rest es, pend = rest ++ es ∧ es.map Expression.type = ctx.type.results ∧
        step ctx .ret ⟨pend.reverse ++ below, f :: fs, temps, label, pos⟩
          = .ok ((), ⟨below, (f.add (effects rest ++ [.leave es])).dead :: fs, temps, label,
              pos⟩)) ∨
      (¬ ctx.type.results <:+ pend.map Expression.type ∧
        Fails (step ctx .ret ⟨pend.reverse ++ below, f :: fs, temps, label, pos⟩) pos) := by
  rw [step]
  rcases popValues_cases ctx fs pend temps label pos ctx.type.results hheight with
    ⟨rest, es, rfl, hes, hpop⟩ | ⟨hno, hfails⟩
  · refine .inl ⟨rest, es, rfl, hes, ?_⟩
    rw [bind_of_ok hpop, bind_of_ok (discard_eq hheight), bind_of_ok (emit_eq _), Frame.add_add]
    exact markUnreachable_eq [] hheight
  · exact .inr ⟨hno, bind_of_fails hfails⟩

theorem brIf_cases (depth : Nat) (hheight : f.height = below.length)
    (hbelow : ∀ e ∈ below, e.isStable) :
    (∃ t rest condition rest' es, (f :: fs)[depth]? = some t ∧ pend = rest ++ [condition] ∧
        condition.type = .i32 ∧ (settling temps.size rest).operands = rest' ++ es ∧
        es.map Expression.type = t.labelTypes ∧
        step ctx (.brIf depth) ⟨pend.reverse ++ below, f :: fs, temps, label, pos⟩
          = .ok ((), ⟨(settling temps.size rest).operands.reverse ++ below,
              markedAll [depth] (f.add ((settling temps.size rest).statements
                ++ [.branchIf condition (branchAt (f :: fs) es depth)]) :: fs),
              temps ++ (settling temps.size rest).temps.toArray, label, pos⟩)) ∨
      ((∀ t types, (f :: fs)[depth]? = some t → pend.map Expression.type = types ++ [.i32] →
          ¬ t.labelTypes <:+ types) ∧
        Fails (step ctx (.brIf depth) ⟨pend.reverse ++ below, f :: fs, temps, label, pos⟩)
          pos) := by
  have hadd (ss : List Statement) : (f.add ss).height = below.length := hheight
  rw [step]
  rcases pop_type_cases ctx fs pend temps label pos .i32 hheight with
    ⟨rest, condition, rfl, hcondition, hpop⟩ | ⟨hno, hfails⟩
  · rw [bind_of_ok hpop, bind_of_ok (flush_eq hbelow)]
    -- What is pending has been settled by now, whether or not there is a block at the depth.
    cases ht : (f :: fs)[depth]? with
    | none =>
      refine .inr
        ⟨by rintro t types ⟨⟩, bind_of_fails (target_fails (b := ⟨_, _ :: _, _, _, _⟩) ?_)⟩
      exact getElem?_add_none _ ht
    | some t =>
      obtain ⟨ts, hts⟩ := getElem?_add (settling temps.size rest).statements ht
      rw [bind_of_ok (target_eq hts)]
      rcases peekValues_cases ctx fs (settling temps.size rest).operands
        (temps ++ (settling temps.size rest).temps.toArray) label pos t.labelTypes (hadd _) with
        ⟨rest', es, hrest, hes, hpeek⟩ | ⟨hno, hfails⟩
      · refine .inl ⟨t, rest, condition, rest', es, rfl, rfl, hcondition, hrest, hes, ?_⟩
        have hlt : depth < (f.add (settling temps.size rest).statements :: fs).length :=
          (List.getElem?_eq_some_iff.mp ht).1
        refine (bind_of_ok hpeek).trans ?_
        rw [bind_of_ok (branch_eq_of_lt es hlt), branchAt_add, ← Frame.add_add]
        exact emit_markedAll [depth] _
      · refine .inr ⟨?_, bind_of_fails hfails⟩
        rintro _ types ⟨⟩ htypes hsuffix
        rw [List.map_append] at htypes
        rw [types_settling, (List.append_inj' htypes rfl).1] at hno
        exact hno hsuffix
  · refine .inr ⟨?_, bind_of_fails hfails⟩
    intro t types _ htypes
    exact (hno ⟨types, htypes.symm⟩).elim

theorem brTable_cases (depths : List Nat) (default : Nat) (hheight : f.height = below.length)
    (hbelow : ∀ e ∈ below, e.isStable) :
    (∃ types rest index rest' es, pend = rest ++ [index] ∧ index.type = .i32 ∧
        (settling temps.size rest).operands = rest' ++ es ∧ es.map Expression.type = types ∧
        (f :: fs)[default]?.map Frame.labelTypes = some types ∧
        (∀ d ∈ depths, (f :: fs)[d]?.map Frame.labelTypes = some types) ∧
        step ctx (.brTable depths default) ⟨pend.reverse ++ below, f :: fs, temps, label, pos⟩
          = .ok ((), ⟨below,
              markedAll (depths ++ [default]) ((f.add ((settling temps.size rest).statements
                ++ [.branchTable index (depths.map (branchAt (f :: fs) es))
                    (branchAt (f :: fs) es default)])).dead :: fs),
              temps ++ (settling temps.size rest).temps.toArray, label, pos⟩)) ∨
      ((∀ types rest, pend.map Expression.type = rest ++ types ++ [.i32] →
          (f :: fs)[default]?.map Frame.labelTypes = some types →
          ¬ ∀ d ∈ depths, (f :: fs)[d]?.map Frame.labelTypes = some types) ∧
        Fails (step ctx (.brTable depths default)
          ⟨pend.reverse ++ below, f :: fs, temps, label, pos⟩) pos) := by
  have hadd (ss : List Statement) : (f.add ss).height = below.length := hheight
  rw [step, branchTable]
  rcases pop_type_cases ctx fs pend temps label pos .i32 hheight with
    ⟨rest, index, rfl, hindex, hpop⟩ | ⟨hno, hfails⟩
  · rw [bind_of_ok hpop, bind_of_ok (flush_eq hbelow)]
    cases ht : (f :: fs)[default]? with
    | none =>
      refine .inr
        ⟨by rintro t types - ⟨⟩, bind_of_fails (target_fails (b := ⟨_, _ :: _, _, _, _⟩) ?_)⟩
      exact getElem?_add_none _ ht
    | some t =>
      obtain ⟨ts, hts⟩ := getElem?_add (settling temps.size rest).statements ht
      have hlabel : (t.add ts).labelTypes = t.labelTypes := rfl
      rw [bind_of_ok (target_eq hts), hlabel]
      rcases checkTargets_cases (b := ⟨(settling temps.size rest).operands.reverse ++ below,
          f.add (settling temps.size rest).statements :: fs,
            temps ++ (settling temps.size rest).temps.toArray, label, pos⟩)
        t.labelTypes depths with ⟨hall, hcheck⟩ | ⟨⟨d, hd, hne⟩, hfails⟩
      -- A depth that passes the check is that of an open block.
      · have hbound :
            ∀ d ∈ depths, d < (f.add (settling temps.size rest).statements :: fs).length := by
          intro d hd
          by_contra hge
          have hnone := hall d hd
          rw [List.getElem?_eq_none (Nat.le_of_not_lt hge)] at hnone
          cases hnone
        have hdefault :
            default <
              (markedAll depths (f.add (settling temps.size rest).statements :: fs)).length := by
          rw [length_markedAll]
          exact (List.getElem?_eq_some_iff.mp ht).1
        simp only [labelTypes_add] at hall
        rcases popValues_cases ctx fs (settling temps.size rest).operands
          (temps ++ (settling temps.size rest).temps.toArray) label pos t.labelTypes (hadd _) with
          ⟨rest', es, hrest, hes, hpop⟩ | ⟨hno, hfails⟩
        · refine .inl ⟨t.labelTypes, rest, index, rest', es, rfl, hindex, hrest, hes, rfl, hall, ?_⟩
          refine (bind_of_ok hcheck).trans ((bind_of_ok hpop).trans ?_)
          rw [bind_of_ok (branches_eq es depths _ hbound), bind_of_ok (branch_eq_of_lt es hdefault)]
          dsimp only
          rw [branchAt_markedAll, branchAt_add, ← markedAll_concat,
            bind_of_ok (emit_markedAll _ _), Frame.add_add]
          exact markUnreachable_markedAll _ _ hheight
        · refine .inr ⟨?_, ?_⟩
          · rintro _ types htypes ⟨⟩ -
            rw [List.map_append] at htypes
            rw [types_settling, (List.append_inj' htypes rfl).1] at hno
            exact hno (List.suffix_append _ _)
          · rw [bind_of_ok hcheck]
            exact bind_of_fails hfails
      · refine .inr ⟨?_, bind_of_fails hfails⟩
        rintro _ _ - ⟨⟩ hall
        exact hne ((labelTypes_add d _).trans (hall d hd))
  · refine .inr ⟨?_, bind_of_fails hfails⟩
    intro types rest h
    exact (hno ⟨rest ++ types, h.symm⟩).elim

end Cases

end Build

end WasmScript.IR
