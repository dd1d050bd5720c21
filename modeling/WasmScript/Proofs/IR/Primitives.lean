/-
  WasmScript/Proofs/IR/Primitives.lean
  ====================================
  **The steps of a builder** — what each operation on the state of a build does.

  A build either goes on or fails at the current instruction; `Fails` says that it does the
  latter, whatever the cause is.  Operands of the innermost open block, `pend` with the oldest
  first, lie on those of the blocks around it, `below`, of which there are as many as the height
  of the block says.  The operations are given by equations on states of that shape, and those
  that may fail by the cases in which they do.
-/
import WasmScript.IR.Build

namespace WasmScript.IR

/-- A build ends with an error at an offset. -/
def Fails {α : Type} (r : Except BuildFailure α) (pos : Nat) : Prop :=
  ∃ e : BuildError, r = .error (.invalid e) ∧ e.offset = pos

theorem Fails.not_ok {α : Type} {r : Except BuildFailure α} {pos : Nat} {a : α} (h : Fails r pos) :
    r ≠ .ok a := by
  obtain ⟨e, he, -⟩ := h
  rw [he]
  rintro ⟨⟩

namespace Frame

def add (f : Frame) (ss : List Statement) : Frame := { f with body := f.body ++ ss.toArray }

/-- A block whose end is not reached. -/
def dead (f : Frame) : Frame := { f with unreachable := true }

@[simp] theorem add_nil (f : Frame) : f.add [] = f := by simp [add]

@[simp] theorem add_add (f : Frame) (ss ts : List Statement) :
    (f.add ss).add ts = f.add (ss ++ ts) := by
  simp [add, Array.append_assoc, List.append_toArray]

@[simp] theorem height_add (f : Frame) (ss : List Statement) : (f.add ss).height = f.height := rfl

theorem toList_body_add (f : Frame) (ss : List Statement) :
    (f.add ss).body.toList = f.body.toList ++ ss := by simp [add]

end Frame

namespace Build

variable {α β : Type} {ctx : Context} {b b' b₁ : Builder} {f : Frame} {fs : List Frame}
variable {pend below : List Expression} {temps : Array Temp} {label pos : Nat}

/-! ### Sequences -/

theorem bind_of_ok {x : Build α} {k : α → Build β} {a : α} {c : Builder} (h : x b = .ok (a, c)) :
    (x >>= k) b = k a c := by
  simp only [bind, StateT.bind, h, Except.bind]

theorem bind_ok {x : Build α} {k : α → Build β} {r : β × Builder} (h : (x >>= k) b = .ok r) :
    ∃ a b₁, x b = .ok (a, b₁) ∧ k a b₁ = .ok r := by
  simp only [bind, StateT.bind, Except.bind] at h
  split at h
  · cases h
  · next p hx => exact ⟨p.1, p.2, hx, h⟩

theorem bind_of_fails {x : Build α} {k : α → Build β} {pos : Nat} (h : Fails (x b) pos) :
    Fails ((x >>= k) b) pos := by
  obtain ⟨e, he, hpos⟩ := h
  exact ⟨e, by simp only [bind, StateT.bind, he, Except.bind], hpos⟩

theorem fail_fails (cause : BuildCause ValueType Nat) :
    Fails ((fail ctx cause : Build α) b) b.pos := ⟨_, rfl, rfl⟩

theorem require_eq {holds : Prop} [Decidable holds] {cause : BuildCause ValueType Nat}
    (h : holds) : require ctx holds cause = pure () := if_pos h

theorem require_fails {holds : Prop} [Decidable holds] {cause : BuildCause ValueType Nat}
    (h : ¬ holds) : Fails (require ctx holds cause b) b.pos := by
  rw [require, if_neg h]
  exact fail_fails _

/-! ### Frames -/

theorem frame_eq (hf : b.frames = f :: fs) : frame ctx b = .ok (f, b) := by
  simp only [frame, bind, StateT.bind, get, getThe, MonadStateOf.get, StateT.get, Except.bind, pure,
    Except.pure, hf]
  rfl

theorem emit_eq {stack : List Expression} (s : Statement) :
    emit ctx s ⟨stack, f :: fs, temps, label, pos⟩
      = .ok ((), ⟨stack, f.add [s] :: fs, temps, label, pos⟩) := by
  have hadd : f.add [s] = { f with body := f.body.push s } := by simp [Frame.add]
  rw [emit, bind_of_ok (frame_eq rfl), hadd]
  rfl

theorem cut_eq (own : List Expression) (frames : List Frame) :
    cut below.length ⟨own ++ below, frames, temps, label, pos⟩
      = .ok ((), ⟨below, frames, temps, label, pos⟩) := by
  have hdrop : (own ++ below).drop ((own ++ below).length - below.length) = below := by
    rw [List.length_append, Nat.add_sub_cancel, List.drop_left]
  exact congrArg (fun s => Except.ok ((), Builder.mk s frames temps label pos)) hdrop

theorem markUnreachable_eq (own : List Expression) (hheight : f.height = below.length) :
    markUnreachable ctx ⟨own ++ below, f :: fs, temps, label, pos⟩
      = .ok ((), ⟨below, f.dead :: fs, temps, label, pos⟩) := by
  have hcut : cut f.height ⟨own ++ below, f.dead :: fs, temps, label, pos⟩
      = .ok ((), ⟨below, f.dead :: fs, temps, label, pos⟩) := by
    rw [hheight]
    exact cut_eq own _
  rw [markUnreachable, bind_of_ok (frame_eq rfl), bind_of_ok (a := ()) rfl]
  exact hcut

/-- The branch to an open block at a relative depth. -/
def branchTo (depth : Nat) (f : Frame) (values : List Expression) : Branch :=
  match f.kind with
  | .function => ⟨depth, f.label, .leave, [], values⟩
  | .loop => ⟨depth, f.label, .restart, f.paramSlots, values⟩
  | _ => ⟨depth, f.label, .exit, f.resultSlots, values⟩

/-- The open blocks after a branch to one of them. -/
def marked (depth : Nat) (frames : List Frame) : List Frame :=
  frames.modify depth fun f => { f with targeted := true }

theorem target_eq {depth : Nat} (h : b.frames[depth]? = some f) :
    target ctx depth b = .ok (f, b) := by
  simp only [target, bind, StateT.bind, get, getThe, MonadStateOf.get, StateT.get,
    Except.bind, pure, Except.pure, h]
  rfl

theorem target_fails {depth : Nat} (h : b.frames[depth]? = none) :
    Fails (target ctx depth b) b.pos := by
  simp only [target, bind, StateT.bind, get, getThe, MonadStateOf.get, StateT.get,
    Except.bind, pure, Except.pure, h]
  exact fail_fails _

theorem branch_eq {depth : Nat} (values : List Expression) (h : b.frames[depth]? = some f) :
    branch ctx depth values b
      = .ok (branchTo depth f values, { b with frames := marked depth b.frames }) := by
  rw [branch, bind_of_ok (target_eq h)]
  rfl

/-! ### Several branches -/

/-- The open blocks after branches to some of them. -/
def markedAll (depths : List Nat) (frames : List Frame) : List Frame :=
  depths.foldl (fun frames depth => marked depth frames) frames

/-- The branch to the open block at a relative depth, of which there must be one. -/
def branchAt (frames : List Frame) (values : List Expression) (depth : Nat) : Branch :=
  branchTo depth (frames[depth]?.getD default) values

theorem getElem?_marked (depth i : Nat) (frames : List Frame) :
    (marked depth frames)[i]?
      = if depth = i then frames[i]?.map fun f => { f with targeted := true } else frames[i]? := by
  rw [marked, List.getElem?_modify]
  split <;> simp

@[simp] theorem length_marked (depth : Nat) (frames : List Frame) :
    (marked depth frames).length = frames.length := List.length_modify ..

@[simp] theorem length_markedAll (depths : List Nat) (frames : List Frame) :
    (markedAll depths frames).length = frames.length := by
  induction depths generalizing frames with
  | nil => rfl
  | cons d depths ih => rw [markedAll, List.foldl_cons, ← markedAll, ih, length_marked]

/-- A branch does not depend on which blocks are targeted. -/
theorem branchAt_marked (d : Nat) (frames : List Frame) (values : List Expression) (depth : Nat) :
    branchAt (marked d frames) values depth = branchAt frames values depth := by
  rw [branchAt, branchAt, getElem?_marked]
  split
  · cases frames[depth]? <;> rfl
  · rfl

theorem branch_eq_of_lt {depth : Nat} (values : List Expression) (h : depth < b.frames.length) :
    branch ctx depth values b
      = .ok (branchAt b.frames values depth, { b with frames := marked depth b.frames }) := by
  have hf := List.getElem?_eq_getElem h
  rw [branch_eq values hf, branchAt, hf]
  rfl

theorem branches_eq (values : List Expression) (depths : List Nat) :
    ∀ b : Builder, (∀ d ∈ depths, d < b.frames.length) →
      depths.mapM (fun d => branch ctx d values) b
        = .ok (depths.map (branchAt b.frames values),
            { b with frames := markedAll depths b.frames }) := by
  induction depths with
  | nil =>
    intro b _
    rw [List.mapM_nil]
    rfl
  | cons d depths ih =>
    intro b h
    obtain ⟨hd, hrest⟩ := List.forall_mem_cons.mp h
    have hmapM := ih { b with frames := marked d b.frames } (by simpa using hrest)
    rw [List.mapM_cons, bind_of_ok (branch_eq_of_lt values hd), bind_of_ok hmapM]
    simp only [funext (branchAt_marked d b.frames values)]
    rfl

theorem checkTargets_cases (types : List ValueType) (depths : List Nat) :
    ((∀ d ∈ depths, b.frames[d]?.map Frame.labelTypes = some types) ∧
        depths.forM (checkTarget ctx types) b = .ok ((), b)) ∨
      ((∃ d ∈ depths, b.frames[d]?.map Frame.labelTypes ≠ some types) ∧
        Fails (depths.forM (checkTarget ctx types) b) b.pos) := by
  -- The induction is on the depths, of which the first one that does not fit is the fault.
  induction depths with
  | nil => exact .inl ⟨fun d hd => absurd hd List.not_mem_nil, rfl⟩
  | cons d depths ih =>
    have hstep : (d :: depths).forM (checkTarget ctx types) =
        (do checkTarget ctx types d; depths.forM (checkTarget ctx types) : Build PUnit) := rfl
    rw [hstep]
    cases hf : b.frames[d]? with
    | none =>
      refine .inr ⟨⟨d, List.mem_cons_self, by rw [hf]; rintro ⟨⟩⟩, bind_of_fails ?_⟩
      exact bind_of_fails (target_fails hf)
    | some f =>
      by_cases htypes : f.labelTypes = types
      · have hone : checkTarget ctx types d b = .ok ((), b) := by
          rw [checkTarget, bind_of_ok (target_eq hf), require_eq htypes]
          rfl
        rcases ih with ⟨hall, hforM⟩ | ⟨⟨d', hd', hne⟩, hfails⟩
        · refine .inl ⟨List.forall_mem_cons.mpr ⟨by rw [hf, ← htypes]; rfl, hall⟩, ?_⟩
          rw [bind_of_ok hone, hforM]
        · refine .inr ⟨⟨d', List.mem_cons_of_mem _ hd', hne⟩, ?_⟩
          rw [bind_of_ok hone]
          exact hfails
      · refine .inr ⟨⟨d, List.mem_cons_self, ?_⟩, bind_of_fails ?_⟩
        · rw [hf, Option.map_some]
          exact fun h => htypes (Option.some.inj h)
        · rw [checkTarget, bind_of_ok (target_eq hf)]
          exact require_fails htypes

/-! ### Popping -/

/-- Whether an expression has a type that is asked for. -/
def Suits (expected : Option ValueType) (e : Expression) : Prop := ∀ type ∈ expected, e.type = type

/-- What is done with an operand that is there. -/
theorem pop_cons {e : Expression} {own : List Expression} (expected : Option ValueType)
    (hheight : f.height = below.length) :
    pop ctx expected ⟨e :: own ++ below, f :: fs, temps, label, pos⟩
      = (match expected with
          | some type => if e.type = type then pure e else fail ctx (.operandType type e.type)
          | none => pure e : Build Expression) ⟨own ++ below, f :: fs, temps, label, pos⟩ := by
  have hlt : ¬ (e :: own ++ below).length ≤ f.height := by
    simp only [List.cons_append, List.length_cons, List.length_append, hheight]
    omega
  rw [pop, bind_of_ok (frame_eq rfl), bind_of_ok (a := _) rfl, if_neg hlt]
  rfl

theorem pop_eq {e : Expression} {own : List Expression} {expected : Option ValueType}
    (hheight : f.height = below.length) (he : Suits expected e) :
    pop ctx expected ⟨e :: own ++ below, f :: fs, temps, label, pos⟩
      = .ok (e, ⟨own ++ below, f :: fs, temps, label, pos⟩) := by
  rw [pop_cons expected hheight]
  cases expected with
  | none => rfl
  | some type => exact congrFun (if_pos (he type rfl)) _

theorem pop_fails_empty {expected : Option ValueType} (hheight : f.height = below.length) :
    Fails (pop ctx expected ⟨below, f :: fs, temps, label, pos⟩) pos := by
  rw [pop, bind_of_ok (frame_eq rfl), bind_of_ok (a := _) rfl, if_pos (Nat.le_of_eq hheight.symm)]
  exact fail_fails _

theorem pop_fails_type {e : Expression} {own : List Expression} {expected : Option ValueType}
    (hheight : f.height = below.length) (he : ¬ Suits expected e) :
    Fails (pop ctx expected ⟨e :: own ++ below, f :: fs, temps, label, pos⟩) pos := by
  rw [pop_cons expected hheight]
  cases expected with
  | none => exact (he (by rintro _ ⟨⟩)).elim
  | some type =>
    have htype : e.type ≠ type := fun h => he (by rintro _ ⟨⟩; exact h)
    have hfail : (if e.type = type then pure e else fail ctx (.operandType type e.type) : Build _)
        = fail ctx (.operandType type e.type) := if_neg htype
    dsimp only
    rw [hfail]
    exact fail_fails _

section Cases

variable (ctx) (pend) (fs) (temps) (label) (pos)

/-- An operand is popped, or there is none that suits. -/
theorem pop_cases (expected : Option ValueType) (hheight : f.height = below.length) :
    (∃ rest e, pend = rest ++ [e] ∧ Suits expected e ∧
        pop ctx expected ⟨pend.reverse ++ below, f :: fs, temps, label, pos⟩
          = .ok (e, ⟨rest.reverse ++ below, f :: fs, temps, label, pos⟩)) ∨
      ((∀ rest e, pend = rest ++ [e] → ¬ Suits expected e) ∧
        Fails (pop ctx expected ⟨pend.reverse ++ below, f :: fs, temps, label, pos⟩) pos) := by
  rcases List.eq_nil_or_concat pend with rfl | ⟨rest, e, rfl⟩
  · refine .inr ⟨?_, pop_fails_empty hheight⟩
    intro rest e h
    simp at h
  rw [List.concat_eq_append, List.reverse_append]
  by_cases he : Suits expected e
  · exact .inl ⟨rest, e, rfl, he, pop_eq hheight he⟩
  · refine .inr ⟨?_, pop_fails_type hheight he⟩
    intro rest' e' h
    obtain ⟨rfl, rfl⟩ := List.append_singleton_inj.mp h
    exact he

/-- An operand of a type is popped, or there is none on top. -/
theorem pop_type_cases (type : ValueType) (hheight : f.height = below.length) :
    (∃ rest e, pend = rest ++ [e] ∧ e.type = type ∧
        pop ctx (some type) ⟨pend.reverse ++ below, f :: fs, temps, label, pos⟩
          = .ok (e, ⟨rest.reverse ++ below, f :: fs, temps, label, pos⟩)) ∨
      (¬ [type] <:+ pend.map Expression.type ∧
        Fails (pop ctx (some type) ⟨pend.reverse ++ below, f :: fs, temps, label, pos⟩) pos) := by
  rcases pop_cases ctx fs pend temps label pos (some type) hheight with
    ⟨rest, e, hpend, he, hpop⟩ | ⟨hno, hfails⟩
  · exact .inl ⟨rest, e, hpend, he type rfl, hpop⟩
  · refine .inr ⟨?_, hfails⟩
    rintro ⟨ts, hts⟩
    obtain ⟨rest, es, rfl, -, hes⟩ := List.map_eq_append_iff.mp hts.symm
    obtain ⟨e, es', rfl, he, hnil⟩ := List.map_eq_cons_iff.mp hes
    obtain rfl := List.map_eq_nil_iff.mp hnil
    refine hno rest e rfl ?_
    rintro _ ⟨⟩
    exact he

theorem popInto_cases (hheight : f.height = below.length) :
    ∀ (types : List ValueType) (pend popped : List Expression),
      (∃ rest es, pend = rest ++ es ∧ es.map Expression.type = types.reverse ∧
          popInto ctx types popped ⟨pend.reverse ++ below, f :: fs, temps, label, pos⟩
            = .ok (es ++ popped, ⟨rest.reverse ++ below, f :: fs, temps, label, pos⟩)) ∨
        (¬ types.reverse <:+ pend.map Expression.type ∧
          Fails (popInto ctx types popped ⟨pend.reverse ++ below, f :: fs, temps, label, pos⟩)
            pos) := by
  intro types
  induction types with
  | nil => exact fun pend popped => .inl ⟨_, [], (List.append_nil _).symm, rfl, rfl⟩
  | cons type types ih =>
    intro pend popped
    rw [popInto, List.reverse_cons]
    rcases pop_type_cases ctx fs pend temps label pos type hheight with
      ⟨rest, e, rfl, he, hpop⟩ | ⟨hno, hfails⟩
    · have hlast : [e].map Expression.type = [type] := congrArg (fun t => [t]) he
      rw [bind_of_ok hpop]
      -- The last type is popped first, so the expressions are put in front of those popped before.
      rcases ih rest (e :: popped) with ⟨rest', es, rfl, hes, hinto⟩ | ⟨hno, hfails⟩
      · refine .inl ⟨rest', es ++ [e], List.append_assoc .., ?_, ?_⟩
        · rw [List.map_append, hes, hlast]
        · rw [hinto, List.append_assoc, List.singleton_append]
      · refine .inr ⟨fun h => hno ?_, hfails⟩
        rw [List.map_append, hlast] at h
        exact ((List.suffix_append_inj_of_length_eq rfl).mp h).1
    · exact .inr ⟨fun h => hno ((List.suffix_append _ _).trans h), bind_of_fails hfails⟩

/-- Operands of some types are popped, or those on top have other types or are too few. -/
theorem popValues_cases (types : List ValueType) (hheight : f.height = below.length) :
    (∃ rest es, pend = rest ++ es ∧ es.map Expression.type = types ∧
        popValues ctx types ⟨pend.reverse ++ below, f :: fs, temps, label, pos⟩
          = .ok (es, ⟨rest.reverse ++ below, f :: fs, temps, label, pos⟩)) ∨
      (¬ types <:+ pend.map Expression.type ∧
        Fails (popValues ctx types ⟨pend.reverse ++ below, f :: fs, temps, label, pos⟩) pos) := by
  have h := popInto_cases ctx fs temps label pos hheight types.reverse pend []
  simp only [List.reverse_reverse, List.append_nil] at h
  exact h

/-- Operands of some types lie on top, or the build fails. -/
theorem peekValues_cases (types : List ValueType) (hheight : f.height = below.length) :
    (∃ rest es, pend = rest ++ es ∧ es.map Expression.type = types ∧
        peekValues ctx types ⟨pend.reverse ++ below, f :: fs, temps, label, pos⟩
          = .ok (es, ⟨pend.reverse ++ below, f :: fs, temps, label, pos⟩)) ∨
      (¬ types <:+ pend.map Expression.type ∧
        Fails (peekValues ctx types ⟨pend.reverse ++ below, f :: fs, temps, label, pos⟩) pos) := by
  rcases popValues_cases ctx fs pend temps label pos types hheight with
    ⟨rest, es, rfl, hes, hpop⟩ | ⟨hno, hfails⟩
  · refine .inl ⟨rest, es, rfl, hes, ?_⟩
    rw [peekValues, bind_of_ok hpop, List.reverse_append, List.append_assoc]
    rfl
  · exact .inr ⟨hno, bind_of_fails hfails⟩

end Cases

/-! ### Pushing -/

theorem push_eq {frames : List Frame} (e : Expression) :
    push e ⟨pend.reverse ++ below, frames, temps, label, pos⟩
      = .ok ((), ⟨(pend ++ [e]).reverse ++ below, frames, temps, label, pos⟩) := by
  rw [List.reverse_append]
  rfl

theorem pushAll_eq {frames : List Frame} (es : List Expression) :
    pushAll es ⟨pend.reverse ++ below, frames, temps, label, pos⟩
      = .ok ((), ⟨(pend ++ es).reverse ++ below, frames, temps, label, pos⟩) := by
  rw [List.reverse_append, List.append_assoc]
  rfl

/-! ### Temporaries -/

/-- Temporaries of some types, numbered from one on. -/
def freshTemps (kind : TempKind) : (first : Nat) → List ValueType → List Temp
  | _, [] => []
  | first, type :: types => ⟨first, type, kind⟩ :: freshTemps kind (first + 1) types

theorem newTemps_eq {stack : List Expression} {frames : List Frame} (kind : TempKind) :
    ∀ (types : List ValueType) (temps : Array Temp),
      types.mapM (newTemp kind) ⟨stack, frames, temps, label, pos⟩
        = .ok (List.range' temps.size types.length,
            ⟨stack, frames, temps ++ (freshTemps kind temps.size types).toArray, label, pos⟩) := by
  intro types
  induction types with
  | nil =>
    intro temps
    simp [freshTemps]
    rfl
  | cons type types ih =>
    intro temps
    have hone : newTemp kind type ⟨stack, frames, temps, label, pos⟩
        = .ok (temps.size, ⟨stack, frames, temps.push ⟨temps.size, type, kind⟩, label, pos⟩) := rfl
    rw [List.mapM_cons, bind_of_ok hone, bind_of_ok (ih _)]
    simp [freshTemps, List.range'_succ]
    rfl

/-! ### Binding what is pending -/

/-- What becomes of pending operands that are bound to temporaries. -/
structure Settling where
  operands : List Expression
  statements : List Statement
  temps : List Temp

/-- Binds each operand that is not stable, the oldest first, to temporaries numbered from one on. -/
def settling : (first : Nat) → List Expression → Settling
  | _, [] => ⟨[], [], []⟩
  | first, e :: es =>
    if e.isStable then
      let rest := settling first es
      ⟨e :: rest.operands, rest.statements, rest.temps⟩
    else
      let rest := settling (first + 1) es
      ⟨.tempRef e.type first :: rest.operands, .define [first] (.single e) :: rest.statements,
        ⟨first, e.type, .value⟩ :: rest.temps⟩

/-- What is stable is left as it is. -/
theorem settling_append {stable : List Expression} (h : ∀ e ∈ stable, e.isStable)
    (first : Nat) (es : List Expression) :
    settling first (stable ++ es)
      = ⟨stable ++ (settling first es).operands, (settling first es).statements,
          (settling first es).temps⟩ := by
  induction stable with
  | nil => rfl
  | cons e stable ih =>
    rw [List.cons_append, settling, if_pos (h e List.mem_cons_self),
      ih fun e he => h e (List.mem_cons_of_mem _ he)]
    rfl

theorem types_settling (first : Nat) (es : List Expression) :
    (settling first es).operands.map Expression.type = es.map Expression.type := by
  induction es generalizing first with
  | nil => rfl
  | cons e es ih =>
    unfold settling
    split
    · simp only [List.map_cons, ih]
    · simp only [List.map_cons, ih]
      rfl

theorem isStable_settling (first : Nat) (es : List Expression) :
    ∀ e ∈ (settling first es).operands, e.isStable := by
  induction es generalizing first with
  | nil => exact fun e he => absurd he List.not_mem_nil
  | cons e es ih =>
    unfold settling
    split
    · next he => exact List.forall_mem_cons.mpr ⟨he, ih first⟩
    · exact List.forall_mem_cons.mpr ⟨rfl, ih (first + 1)⟩

theorem settle_all (stack es : List Expression) :
    ∀ (f : Frame) (temps : Array Temp),
      es.mapM (settle ctx) ⟨stack, f :: fs, temps, label, pos⟩
        = .ok ((settling temps.size es).operands,
            ⟨stack, f.add (settling temps.size es).statements :: fs,
              temps ++ (settling temps.size es).temps.toArray, label, pos⟩) := by
  induction es with
  | nil =>
    intro f temps
    simp [settling]
    rfl
  | cons e es ih =>
    intro f temps
    rw [List.mapM_cons]
    -- A stable operand stays as it is, and any other is bound to the next temporary.
    by_cases he : e.isStable
    · have hone : settle ctx e ⟨stack, f :: fs, temps, label, pos⟩
          = .ok (e, ⟨stack, f :: fs, temps, label, pos⟩) := by
        rw [settle, if_pos he]
        rfl
      rw [bind_of_ok hone, bind_of_ok (ih _ _), settling, if_pos he]
      rfl
    · have hone : settle ctx e ⟨stack, f :: fs, temps, label, pos⟩
          = .ok (.tempRef e.type temps.size,
              ⟨stack, f.add [.define [temps.size] (.single e)] :: fs,
                temps.push ⟨temps.size, e.type, .value⟩, label, pos⟩) := by
        have hnew : newTemp .value e.type ⟨stack, f :: fs, temps, label, pos⟩
            = .ok (temps.size,
              ⟨stack, f :: fs, temps.push ⟨temps.size, e.type, .value⟩, label, pos⟩) :=
          rfl
        rw [settle, if_neg he, bind_of_ok hnew, bind_of_ok (emit_eq _)]
        rfl
      rw [bind_of_ok hone, bind_of_ok (ih _ _), settling, if_neg he]
      simp
      rfl

theorem flush_eq (hbelow : ∀ e ∈ below, e.isStable) :
    flush ctx ⟨pend.reverse ++ below, f :: fs, temps, label, pos⟩
      = .ok ((), ⟨(settling temps.size pend).operands.reverse ++ below,
          f.add (settling temps.size pend).statements :: fs,
          temps ++ (settling temps.size pend).temps.toArray, label, pos⟩) := by
  have hoperands : settling temps.size (pend.reverse ++ below).reverse
      = ⟨below.reverse ++ (settling temps.size pend).operands,
          (settling temps.size pend).statements, (settling temps.size pend).temps⟩ := by
    rw [List.reverse_append, List.reverse_reverse]
    exact settling_append (fun e he => hbelow e (List.mem_reverse.mp he)) _ _
  rw [flush, bind_of_ok (a := _) rfl, bind_of_ok (settle_all _ _ _ _)]
  dsimp only
  have hreversed : (below.reverse ++ (settling temps.size pend).operands).reverse
      = (settling temps.size pend).operands.reverse ++ below := by simp
  rw [hoperands, ← hreversed]
  rfl

/-! ### Dropping what is pending -/

/-- The statements that run what is dropped but has effects. -/
def effects (es : List Expression) : List Statement :=
  (es.filter Expression.hasEffects).map fun e => .evaluate (.single e)

theorem emitEffects_all {stack : List Expression} (es : List Expression) :
    ∀ f : Frame, es.forM (emitEffects ctx) ⟨stack, f :: fs, temps, label, pos⟩
      = .ok ((), ⟨stack, f.add (effects es) :: fs, temps, label, pos⟩) := by
  induction es with
  | nil =>
    intro f
    simp [effects]
    rfl
  | cons e es ih =>
    intro f
    change (do emitEffects ctx e; es.forM (emitEffects ctx) : Build PUnit) _ = _
    by_cases he : e.hasEffects
    · have hone : emitEffects ctx e ⟨stack, f :: fs, temps, label, pos⟩
          = .ok ((), ⟨stack, f.add [.evaluate (.single e)] :: fs, temps, label, pos⟩) := by
        rw [emitEffects, if_pos he]
        exact emit_eq _
      rw [bind_of_ok hone, ih, Frame.add_add, effects, effects, List.filter_cons_of_pos he]
      rfl
    · have hone : emitEffects ctx e ⟨stack, f :: fs, temps, label, pos⟩
          = .ok ((), ⟨stack, f :: fs, temps, label, pos⟩) := by
        rw [emitEffects, if_neg he]
        rfl
      rw [bind_of_ok hone, ih, effects, effects, List.filter_cons_of_neg he]

theorem discard_eq (hheight : f.height = below.length) :
    discard ctx ⟨pend.reverse ++ below, f :: fs, temps, label, pos⟩
      = .ok ((), ⟨below, f.add (effects pend) :: fs, temps, label, pos⟩) := by
  have hown : ((pend.reverse ++ below).take ((pend.reverse ++ below).length - f.height)).reverse
      = pend := by
    rw [List.length_append, hheight, Nat.add_sub_cancel, List.take_left, List.reverse_reverse]
  rw [discard, bind_of_ok (frame_eq rfl), bind_of_ok (a := _) rfl]
  dsimp only
  rw [hown, bind_of_ok (emitEffects_all _ _), hheight]
  exact cut_eq _ _

end Build
end WasmScript.IR
