/-
  WasmScript/Proofs/IR/Tables.lean
  ================================
  **Branch tables that are built** — that a depth stands for one branch.

  All branches of a table carry the same values, and the slots that they are written to are
  those of the block at their depth, so two of them to one depth are the same.  What uses a
  table may therefore take any of its branches for all to that depth.
-/
import WasmScript.Proofs.IR.Reach

namespace WasmScript.IR

/-- Branches of which those to one depth are the same. -/
def Uniform (branches : List Branch) : Prop :=
  ∀ b ∈ branches, ∀ c ∈ branches, b.depth = c.depth → b = c

/-! ### Tables in statements -/

namespace Statement

mutual
/-- The branches of each table in a statement, that of the default the first. -/
def tables : Statement → List (List Branch)
  | .block _ _ body | .loop _ _ body => tablesAll body
  | .conditional _ _ _ yes no => tablesAll yes ++ tablesAll no
  | .branchTable _ targets default => [default :: targets]
  | _ => []

def tablesAll : List Statement → List (List Branch)
  | [] => []
  | s :: ss => s.tables ++ tablesAll ss
end

theorem tablesAll_append (ss ts : List Statement) :
    tablesAll (ss ++ ts) = tablesAll ss ++ tablesAll ts := by
  induction ss with
  | nil => rfl
  | cons s ss ih => rw [List.cons_append, tablesAll, ih, tablesAll, List.append_assoc]

theorem tablesAll_singleton (s : Statement) : tablesAll [s] = s.tables := List.append_nil _

theorem tablesAll_eq_nil {ss : List Statement} (h : ∀ s ∈ ss, s.tables = []) :
    tablesAll ss = [] := by
  induction ss with
  | nil => rfl
  | cons s ss ih =>
    obtain ⟨hs, hss⟩ := List.forall_mem_cons.mp h
    rw [tablesAll, hs, ih hss]
    rfl

end Statement

open Statement (tables tablesAll tablesAll_append tablesAll_singleton tablesAll_eq_nil)

/-! ### Instructions that stay in a block -/

namespace Build

variable {ctx : Context} {i : Instruction} {d d' : Draft} {f : Frame} {pend : List Expression}
    {l : Layer}

theorem depth_branchAt (fs : List Frame) (es : List Expression) (depth : Nat) :
    (branchAt fs es depth).depth = depth := by
  unfold branchAt branchTo
  split <;> rfl

theorem uniform_branches (fs : List Frame) (es : List Expression) (depths : List Nat) :
    Uniform (depths.map (branchAt fs es)) := by
  intro b hb c hc hdepth
  obtain ⟨d, -, rfl⟩ := List.mem_map.mp hb
  obtain ⟨d', -, rfl⟩ := List.mem_map.mp hc
  rw [depth_branchAt, depth_branchAt] at hdepth
  rw [hdepth]

theorem tables_settling (first : Nat) (es : List Expression) :
    tablesAll (settling first es).statements = [] := by
  induction es generalizing first with
  | nil => rfl
  | cons e es ih =>
    unfold settling
    split
    · exact ih first
    · exact ih (first + 1)

theorem tables_settlingIf (needed : Bool) (first : Nat) (es : List Expression) :
    tablesAll (settlingIf needed first es).statements = [] := by
  cases needed with
  | true => exact tables_settling first es
  | false => rfl

theorem tables_effects (es : List Expression) : tablesAll (effects es) = [] := by
  refine tablesAll_eq_nil fun s hs => ?_
  obtain ⟨e, -, rfl⟩ := List.mem_map.mp hs
  rfl

theorem tables_assignments (slots : List Nat) (values : List Expression) :
    tablesAll (assignments slots values) = [] := by
  unfold assignments
  split <;> rfl

theorem tables_ofCall {function : Nat} {args : List Expression} {types : List ValueType}
    {s : Statement} (h : Work.ofCall function args types = .statement s) : s.tables = [] := by
  rcases types with _ | ⟨r, _ | ⟨r', rs⟩⟩ <;> cases h
  rfl

theorem tables_work {m : Module} {locals : Array ValueType} {es : List Expression} {s : Statement}
    (h : i.work m locals es = some (.statement s)) : s.tables = [] := by
  generalize hw : Work.statement s = w at h
  cases Instruction.becomes_of_work h with
  | call => exact tables_ofCall hw.symm
  | localSet | globalSet | store | memoryCopy | memoryFill =>
    cases hw
    rfl
  | _ => cases hw

theorem tables_settlingWork (first : Nat) (rest : List Expression) {m : Module}
    {locals : Array ValueType} {es : List Expression} {w : Work} (h : i.work m locals es = some w) :
    tablesAll (settlingWork first rest w).statements = [] := by
  cases w with
  | value e => rfl
  | statement s =>
    simp [settlingWork, tablesAll_append, tables_settling, tablesAll_singleton, tables_work h]
  | results function args types =>
    simp [settlingWork, tablesAll_append, tables_settling, tablesAll_singleton, tables]

theorem uniform_straight {fs : List Frame} {first : Nat} {o : Outcome}
    (h : Straight ctx fs first i pend o) :
    ∀ branches ∈ tablesAll o.statements, Uniform branches := by
  cases h with
  | nop => simp [tablesAll]
  | work signature types made gives => simp [tables_settlingWork _ _ made]
  | drop => simp [Settling.emit, tablesAll_append, tables_settlingIf, tables_effects]
  | select => simp [tables_settlingIf]
  | unreachable | br | ret => simp [tablesAll_append, tables_effects, tablesAll_singleton, tables]
  | brIf => simp [Settling.emit, tablesAll_append, tables_settling, tablesAll_singleton, tables]
  | @brTable rest rest' es default depths index type operands targets =>
    intro branches h
    have htable : branches = (default :: depths).map (branchAt fs es) := by
      simpa [Settling.emit, tablesAll_append, tables_settling, tablesAll_singleton, tables] using h
    rw [htable]
    exact uniform_branches fs es (default :: depths)

end Build

/-! ### Open blocks -/

namespace Frame

variable {f : Frame}

def tables (f : Frame) : List (List Branch) := tablesAll (f.firstArm.getD [] ++ f.body.toList)

theorem tables_add (f : Frame) (ss : List Statement) :
    (f.add ss).tables = f.tables ++ tablesAll ss := by
  have hbody : (f.add ss).body.toList = f.body.toList ++ ss := toList_body_add f ss
  rw [tables, hbody, ← List.append_assoc, tablesAll_append]
  rfl

theorem tables_toStatement (f : Frame) : f.toStatement.tables ⊆ f.tables := by
  rw [tables, tablesAll_append]
  unfold toStatement
  split
  · exact List.subset_append_right _ _
  · split
    · next yes hfirst =>
      rw [hfirst]
      exact List.Subset.refl _
    · next hfirst =>
      rw [hfirst]
      simp [Statement.tables, tablesAll]
  · exact List.subset_append_right _ _

end Frame

/-- An open block has tables in which a depth stands for one branch. -/
def Frame.Uniform (f : Frame) : Prop := ∀ branches ∈ f.tables, IR.Uniform branches

theorem Frame.Uniform.add {f : Frame} {ss : List Statement} (hf : f.Uniform)
    (hss : ∀ branches ∈ tablesAll ss, IR.Uniform branches) : (f.add ss).Uniform := by
  intro branches h
  rw [Frame.tables_add] at h
  rcases List.mem_append.mp h with h | h
  · exact hf branches h
  · exact hss branches h

theorem Frame.Uniform.add_none {f : Frame} {ss : List Statement} (hf : f.Uniform)
    (hss : tablesAll ss = []) :
    (f.add ss).Uniform := by
  refine hf.add ?_
  simp [hss]

def Draft.Uniform (d : Draft) : Prop := ∀ l ∈ d.layers, l.frame.Uniform

namespace Build

variable {ctx : Context} {i : Instruction} {d d' : Draft} {f : Frame} {pend : List Expression}
    {l : Layer}

theorem uniform_finished (hf : f.Uniform) (pend : List Expression) : (finished f pend).Uniform := by
  unfold finished
  split
  · exact hf
  · exact hf.add_none (tables_assignments f.resultSlots pend)

theorem uniform_secondArm (hf : f.Uniform) (hfirst : f.firstArm = none) :
    (secondArm f).Uniform := by
  have htables : (secondArm f).tables = f.tables := by
    rw [Frame.tables, Frame.tables, hfirst]
    exact congrArg tablesAll (List.append_nil _)
  rw [Frame.Uniform, htables]
  exact hf

theorem uniform_resumed {g : Frame} (hl : l.frame.Uniform) (hg : g.Uniform) :
    (resumed l g).frame.Uniform := by
  have hadd : (l.frame.add [g.toStatement]).Uniform := by
    refine hl.add fun branches h => ?_
    rw [tablesAll_singleton] at h
    exact hg branches (g.tables_toStatement h)
  unfold resumed
  dsimp only
  split
  · exact hadd
  · exact hadd

theorem uniform_layer {fs : List Frame} {first : Nat} {o : Outcome} (hf : f.Uniform)
    (h : Straight ctx fs first i pend o) : (o.layer f).frame.Uniform := by
  have hadd : (f.add o.statements).Uniform := hf.add (uniform_straight h)
  unfold Outcome.layer
  dsimp only
  split
  · exact hadd
  · exact hadd

theorem uniform_step (h : Step ctx i d d') (hd : d.Uniform) : d'.Uniform := by
  cases h with
  | @straight i f pend ls temps label o live outcome =>
    obtain ⟨hf, hls⟩ := List.forall_mem_cons.mp hd
    intro l hl
    obtain ⟨l₀, hl₀, targeted, rfl⟩ := Layer.exists_of_mem_target hl
    rcases List.mem_cons.mp hl₀ with rfl | hl₀
    · exact uniform_layer hf outcome
    · exact hls l₀ hl₀
  | @enter i kind type condition f pend rest params ls temps label live opens operands types =>
    obtain ⟨hf, hls⟩ := List.forall_mem_cons.mp hd
    -- Settling and copying parameters build no table of branches.
    have hsettled := hf.add_none (tables_settling temps.size pend)
    refine List.forall_mem_cons.mpr ⟨?_, List.forall_mem_cons.mpr ⟨?_, hls⟩⟩
    · intro branches h
      cases h
    · exact hsettled.add_none (tables_assignments _ _)
  | @second f pend ls temps label kind first types =>
    obtain ⟨hf, hls⟩ := List.forall_mem_cons.mp hd
    -- The first arm is put away only now, so there was none.
    have hfirst : (finished f pend).firstArm = none := by
      obtain ⟨ss, hss⟩ := exists_finished f pend
      rw [hss]
      exact first
    exact List.forall_mem_cons.mpr ⟨uniform_secondArm (uniform_finished hf pend) hfirst, hls⟩
  | @leave f pend l ls temps label kind arms types =>
    obtain ⟨hf, hl, hls⟩ := List.forall_mem_cons.mp hd |>.imp_right List.forall_mem_cons.mp
    exact List.forall_mem_cons.mpr ⟨uniform_resumed hl (uniform_finished hf pend), hls⟩

theorem uniform_path {is : List Instruction} (h : Path ctx is d d') (hd : d.Uniform) :
    d'.Uniform := by
  induction h with
  | nil => exact hd
  | cons first _ ih => exact ih (uniform_step first hd)

theorem uniform_start (type : FunctionType) : (Draft.start type).Uniform := by
  refine List.forall_mem_singleton.mpr fun branches h => ?_
  cases h

theorem uniform_finishedBody (hf : f.Uniform) :
    ∀ branches ∈ tablesAll (finishedBody f pend), Uniform branches := by
  have hbody : ∀ branches ∈ tablesAll f.body.toList, Uniform branches := by
    intro branches h
    refine hf branches ?_
    rw [Frame.tables, tablesAll_append]
    exact List.mem_append_right _ h
  unfold finishedBody
  split
  · exact hbody
  · rw [tablesAll_append, tablesAll_singleton]
    simpa [tables] using hbody

end Build

/-- In every branch table of a function that is built, a depth stands for one branch. -/
theorem built_tables_uniform {m : Module} {index : Nat} {fn : Function}
    (h : buildFunction m index = .ok fn) :
    ∀ branches ∈ tablesAll fn.body, Uniform branches := by
  obtain ⟨type, body, is, f, pend, temps, label, -, -, -, hpath, -, -, hbody, -⟩ :=
    exists_path_of_build h
  have hdraft := Build.uniform_path hpath (Build.uniform_start type)
  rw [hbody]
  exact Build.uniform_finishedBody (hdraft _ List.mem_cons_self)

end WasmScript.IR
