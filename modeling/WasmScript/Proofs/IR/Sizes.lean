/-
  WasmScript/Proofs/IR/Sizes.lean
  ===============================
  **Sizes in bodies** — offsets that fit a word, and tables that an `i32` can index.

  A script adds the offset of an access to its base as numbers, which is exact as long as
  the offset is a word, and it looks up a table by a signed index, which is right as long
  as no index that is negative is in the table.  The offsets of a module that is read from
  bytes are words, and a table has no more targets than the module has bytes; the bodies
  that are built take both from the instructions.
-/
import WasmScript.Proofs.IR.Reach
import WasmScript.Proofs.Module.Positions

namespace WasmScript

/-- An instruction whose immediates are no larger than a script can take. -/
def Instruction.Small : Instruction → Prop
  | .load _ arg | .store _ arg => arg.offset < 2 ^ 32
  | .brTable depths _ => depths.length ≤ 2 ^ 31
  | _ => True

namespace IR

namespace Expression

mutual
/-- An expression whose offsets are words. -/
def Small : Expression → Prop
  | .literal _ | .localRef .. | .tempRef .. | .globalRef .. | .memorySize => True
  | .unary _ _ a | .tee _ _ a | .load _ a | .memoryGrow a => a.Small
  | .binary _ _ a b | .compare _ a b => a.Small ∧ b.Small
  | .select _ c a b => c.Small ∧ a.Small ∧ b.Small
  | .call _ _ args => AllSmall args
  | .address a offset => a.Small ∧ offset < 2 ^ 32

def AllSmall : List Expression → Prop
  | [] => True
  | e :: es => e.Small ∧ AllSmall es
end

theorem allSmall_iff {es : List Expression} : AllSmall es ↔ ∀ e ∈ es, e.Small := by
  induction es with
  | nil => simp [AllSmall]
  | cons e es ih => simp [AllSmall, ih]

end Expression

def Operand.Small : Operand → Prop
  | .single e => e.Small
  | .multi _ args _ => ∀ e ∈ args, e.Small

def Branch.Small (b : Branch) : Prop := ∀ e ∈ b.values, e.Small

namespace Statement

mutual
/-- A statement whose offsets are words, whose tables have no index that is negative, and that
does not define nothing. -/
def Small : Statement → Prop
  | .block _ _ body | .loop _ _ body => AllSmall body
  | .conditional _ _ c yes no => c.Small ∧ AllSmall yes ∧ AllSmall no
  | .branch b => b.Small
  | .branchIf c b => c.Small ∧ b.Small
  | .branchTable e targets default =>
    e.Small ∧ targets.length ≤ 2 ^ 31 ∧ ∀ b ∈ targets ++ [default], b.Small
  | .leave es | .assign _ es => ∀ e ∈ es, e.Small
  | .unreachable => True
  | .localSet _ e | .globalSet _ e => e.Small
  | .define ids value => ids ≠ [] ∧ value.Small
  | .store _ a e => a.Small ∧ e.Small
  | .memoryCopy a b c | .memoryFill a b c => a.Small ∧ b.Small ∧ c.Small
  | .evaluate value => value.Small

def AllSmall : List Statement → Prop
  | [] => True
  | s :: ss => s.Small ∧ AllSmall ss
end

theorem allSmall_iff {ss : List Statement} : AllSmall ss ↔ ∀ s ∈ ss, s.Small := by
  induction ss with
  | nil => simp [AllSmall]
  | cons s ss ih => simp [AllSmall, ih]

theorem allSmall_append {ss ts : List Statement} :
    AllSmall (ss ++ ts) ↔ AllSmall ss ∧ AllSmall ts := by
  simp only [allSmall_iff, List.forall_mem_append]

end Statement

/-! ### What instructions become -/

theorem Expression.small_constant (type : ValueType) (n : Int) : (constant type n).Small := by
  cases type <;> trivial

theorem Expression.small_effectiveAddress {base : Expression} (h : base.Small) {offset : Nat}
    (hoffset : offset < 2 ^ 32) : (base.effectiveAddress offset).Small := by
  unfold effectiveAddress
  split
  · trivial
  · exact ⟨h, hoffset⟩

theorem Expression.small_ofOperator {op : NumericOp} {es : List Expression} {e : Expression}
    (hes : ∀ e ∈ es, e.Small) (h : ofOperator op es = some e) : e.Small := by
  unfold ofOperator at h
  split at h
  · next a =>
    have ha := hes a List.mem_cons_self
    split at h
    · cases h
      exact ⟨ha, small_constant _ _⟩
    · cases h
      exact ha
    · cases h
      exact ha
    · cases h
  · next a b =>
    have ha := hes a List.mem_cons_self
    have hb := hes b (List.mem_cons_of_mem _ List.mem_cons_self)
    split at h
    · cases h
      exact ⟨ha, hb⟩
    · cases h
      exact ⟨ha, hb⟩
    · cases h
  · cases h

def Work.Small : Work → Prop
  | .value e => e.Small
  | .statement s => s.Small
  | .results _ args types => (∀ e ∈ args, e.Small) ∧ types ≠ []

theorem Work.small_ofCall {function : Nat} {es : List Expression} (hes : ∀ e ∈ es, e.Small)
    (types : List ValueType) : (Work.ofCall function es types).Small := by
  rcases types with _ | ⟨type, _ | ⟨type', types⟩⟩
  · exact hes
  · exact Expression.allSmall_iff.mpr hes
  · exact ⟨hes, List.cons_ne_nil _ _⟩

theorem Work.small {m : Module} {locals : Array ValueType} {i : Instruction} {es : List Expression}
    {w : Work} (hi : i.Small) (hes : ∀ e ∈ es, e.Small) (h : i.work m locals es = some w) :
    w.Small := by
  cases Instruction.becomes_of_work h with
  | call found => exact Work.small_ofCall hes _
  | localGet | globalGet | memorySize => trivial
  | localSet _ e | localTee _ e | globalSet _ e | memoryGrow e => exact hes e List.mem_cons_self
  | const v => exact Expression.small_constant _ _
  | numeric _ made => exact Expression.small_ofOperator hes made
  | load found arg base =>
    exact Expression.small_effectiveAddress (hes base List.mem_cons_self) hi
  | store found arg base e =>
    simp only [List.forall_mem_cons] at hes
    exact ⟨Expression.small_effectiveAddress hes.1 hi, hes.2.1⟩
  | memoryCopy | memoryFill => simpa [Work.Small, Statement.Small] using hes

/-! ### What is settled -/

namespace Build

structure Settling.Small (s : Settling) : Prop where
  operands : ∀ e ∈ s.operands, e.Small
  statements : Statement.AllSmall s.statements

theorem small_settling {es : List Expression} (h : ∀ e ∈ es, e.Small) (first : Nat) :
    (settling first es).Small := by
  induction es generalizing first with
  | nil => exact ⟨by simp [settling], trivial⟩
  | cons e es ih =>
    obtain ⟨he, hes⟩ := List.forall_mem_cons.mp h
    unfold settling
    split
    · obtain ⟨hoperands, hstatements⟩ := ih hes first
      exact ⟨List.forall_mem_cons.mpr ⟨he, hoperands⟩, hstatements⟩
    · obtain ⟨hoperands, hstatements⟩ := ih hes (first + 1)
      refine ⟨List.forall_mem_cons.mpr ⟨trivial, hoperands⟩, ?_, hstatements⟩
      exact ⟨List.cons_ne_nil _ _, he⟩

theorem small_settlingIf (needed : Bool) {es : List Expression} (h : ∀ e ∈ es, e.Small)
    (first : Nat) : (settlingIf needed first es).Small := by
  cases needed with
  | true => exact small_settling h first
  | false => exact ⟨h, trivial⟩

theorem Settling.Small.emit {s : Settling} (h : s.Small) {ss : List Statement}
    (hss : Statement.AllSmall ss) : (s.emit ss).Small :=
  ⟨h.operands, Statement.allSmall_append.mpr ⟨h.statements, hss⟩⟩

theorem small_refs (ids : List Nat) (types : List ValueType) : ∀ e ∈ refs ids types, e.Small := by
  induction ids generalizing types with
  | nil => simp [refs]
  | cons id ids ih =>
    cases types with
    | nil => simp [refs]
    | cons type types => exact List.forall_mem_cons.mpr ⟨trivial, ih types⟩

theorem small_settlingWork {es : List Expression} {w : Work} (hes : ∀ e ∈ es, e.Small)
    (hw : w.Small) (first : Nat) : (settlingWork first es w).Small := by
  cases w with
  | value e => exact ⟨List.forall_mem_append.mpr ⟨hes, List.forall_mem_singleton.mpr hw⟩, trivial⟩
  | statement s => exact (small_settling hes first).emit ⟨hw, trivial⟩
  | results function args types =>
    obtain ⟨hoperands, hstatements⟩ := small_settling hes first
    constructor
    · exact List.forall_mem_append.mpr ⟨hoperands, small_refs _ _⟩
    · refine Statement.allSmall_append.mpr ⟨hstatements, ⟨?_, hw.1⟩, trivial⟩
      simpa using hw.2

theorem small_effects {es : List Expression} (h : ∀ e ∈ es, e.Small) :
    Statement.AllSmall (effects es) := by
  rw [Statement.allSmall_iff]
  intro s hs
  obtain ⟨e, he, rfl⟩ := List.mem_map.mp hs
  exact h e (List.mem_of_mem_filter he)

theorem small_assignments (slots : List Nat) {values : List Expression}
    (h : ∀ e ∈ values, e.Small) : Statement.AllSmall (assignments slots values) := by
  unfold assignments
  split
  · trivial
  · exact ⟨h, trivial⟩

theorem small_branchAt (fs : List Frame) {es : List Expression} (h : ∀ e ∈ es, e.Small)
    (depth : Nat) : (branchAt fs es depth).Small := by
  unfold branchAt branchTo
  split <;> exact h

theorem small_straight {ctx : Context} {fs : List Frame} {first : Nat} {i : Instruction}
    {pend : List Expression} {o : Outcome} (hi : i.Small) (hpend : ∀ e ∈ pend, e.Small)
    (h : Straight ctx fs first i pend o) : o.toSettling.Small := by
  -- What is settled is small as its operands are, and a branch takes its values from them.
  cases h with
  | nop => exact ⟨hpend, trivial⟩
  | work signature types made gives =>
    obtain ⟨hrest, hes⟩ := List.forall_mem_append.mp hpend
    exact small_settlingWork hrest (Work.small hi hes made) first
  | drop =>
    obtain ⟨hrest, he⟩ := List.forall_mem_append.mp hpend
    exact (small_settlingIf _ hrest first).emit (small_effects he)
  | select type operands same quiet =>
    obtain ⟨hrest, hc⟩ := List.forall_mem_append.mp hpend
    obtain ⟨hoperands, hstatements⟩ := small_settlingIf _ hrest first
    rw [operands] at hoperands
    simp only [List.forall_mem_append, List.forall_mem_cons] at hoperands
    refine ⟨List.forall_mem_append.mpr ⟨hoperands.1, List.forall_mem_singleton.mpr ?_⟩, hstatements⟩
    exact ⟨hc _ List.mem_cons_self, hoperands.2.1, hoperands.2.2.1⟩
  | unreachable =>
    exact ⟨by simp, Statement.allSmall_append.mpr ⟨small_effects hpend, trivial, trivial⟩⟩
  | br target =>
    obtain ⟨hrest, hes⟩ := List.forall_mem_append.mp hpend
    refine ⟨by simp, Statement.allSmall_append.mpr ⟨small_effects hrest, ?_, trivial⟩⟩
    exact small_branchAt fs hes _
  | ret types =>
    obtain ⟨hrest, hes⟩ := List.forall_mem_append.mp hpend
    exact ⟨by simp, Statement.allSmall_append.mpr ⟨small_effects hrest, hes, trivial⟩⟩
  | brIf type operands target =>
    obtain ⟨hrest, hc⟩ := List.forall_mem_append.mp hpend
    have hsettled := small_settling hrest first
    have hes := hsettled.operands
    rw [operands, List.forall_mem_append] at hes
    exact hsettled.emit ⟨⟨hc _ List.mem_cons_self, small_branchAt fs hes.2 _⟩, trivial⟩
  | @brTable rest rest' es default depths index type operands targets =>
    obtain ⟨hrest, hindex⟩ := List.forall_mem_append.mp hpend
    have hsettled := small_settling hrest first
    have hes := hsettled.operands
    rw [operands, List.forall_mem_append] at hes
    have hbranch (d : Nat) := small_branchAt fs hes.2 d
    refine ⟨by simp, Statement.allSmall_append.mpr ⟨hsettled.statements, ⟨?_, ?_, ?_⟩, trivial⟩⟩
    · exact hindex _ List.mem_cons_self
    · rwa [List.length_map]
    · intro b hb
      rcases List.mem_append.mp hb with hb | hb
      · obtain ⟨d, -, rfl⟩ := List.mem_map.mp hb
        exact hbranch d
      · rw [List.mem_singleton.mp hb]
        exact hbranch default

end Build

/-! ### Open blocks -/

structure Frame.Small (f : Frame) : Prop where
  body : Statement.AllSmall f.body.toList
  firstArm : ∀ ss ∈ f.firstArm, Statement.AllSmall ss
  condition : ∀ e ∈ f.condition, e.Small
  paramValues : ∀ e ∈ f.paramValues, e.Small

namespace Frame.Small

variable {f : Frame}

theorem add (h : f.Small) {ss : List Statement} (hss : Statement.AllSmall ss) : (f.add ss).Small :=
  { h with
    body := by
      rw [Frame.toList_body_add]
      exact Statement.allSmall_append.mpr ⟨h.body, hss⟩ }

theorem finished (h : f.Small) {pend : List Expression} (hpend : ∀ e ∈ pend, e.Small) :
    (Build.finished f pend).Small := by
  unfold Build.finished
  split
  · exact h
  · exact h.add (Build.small_assignments _ hpend)

theorem secondArm (h : f.Small) : (Build.secondArm f).Small where
  body := trivial
  firstArm := by
    rintro _ ⟨⟩
    exact h.body
  condition := h.condition
  paramValues := h.paramValues

theorem toStatement (h : f.Small) : f.toStatement.Small := by
  have hc : (f.condition.getD (.constant .i32 0)).Small := by
    cases hcondition : f.condition with
    | none => exact Expression.small_constant .i32 0
    | some c => exact h.condition c hcondition
  have hfirst := h.firstArm
  unfold Frame.toStatement
  split
  · exact h.body
  · split
    · next hyes => exact ⟨hc, hfirst _ hyes, h.body⟩
    · exact ⟨hc, h.body, trivial⟩
  · exact h.body

end Frame.Small

structure Layer.Small (l : Layer) : Prop where
  frame : l.frame.Small
  pend : ∀ e ∈ l.pend, e.Small

def Draft.Small (d : Draft) : Prop := ∀ l ∈ d.layers, l.Small

namespace Build

variable {ctx : Context}

theorem small_resumed {l : Layer} {g : Frame} (hl : l.Small) (hg : g.Small) :
    (resumed l g).Small := by
  have hadd : (l.frame.add [g.toStatement]).Small := hl.frame.add ⟨hg.toStatement, trivial⟩
  unfold resumed
  dsimp only
  split
  · exact ⟨hadd, List.forall_mem_append.mpr ⟨hl.pend, small_refs _ _⟩⟩
  · exact ⟨⟨hadd.body, hadd.firstArm, hadd.condition, hadd.paramValues⟩, by simp⟩

theorem small_step {i : Instruction} {d d' : Draft} (hi : i.Small) (h : Step ctx i d d')
    (hd : d.Small) : d'.Small := by
  cases h with
  | @straight i f pend ls temps label o live outcome =>
    obtain ⟨⟨hf, hpend⟩, hls⟩ := List.forall_mem_cons.mp hd
    obtain ⟨hoperands, hstatements⟩ := small_straight hi hpend outcome
    have hadd := hf.add hstatements
    intro l hl
    -- A step only marks the layers further out, which changes no statement of theirs.
    obtain ⟨l₀, hl₀, targeted, rfl⟩ := Layer.exists_of_mem_target hl
    have hl₀ : l₀.Small := by
      rcases List.mem_cons.mp hl₀ with rfl | hl₀
      · refine ⟨?_, hoperands⟩
        unfold Outcome.layer
        dsimp only
        split
        · exact hadd
        · exact ⟨hadd.body, hadd.firstArm, hadd.condition, hadd.paramValues⟩
      · exact hls l₀ hl₀
    obtain ⟨hframe, hpend⟩ := hl₀
    exact ⟨⟨hframe.body, hframe.firstArm, hframe.condition, hframe.paramValues⟩, hpend⟩
  | @enter i kind type condition f pend rest params ls temps label live opens operands types =>
    obtain ⟨⟨hf, hpend⟩, hls⟩ := List.forall_mem_cons.mp hd
    obtain ⟨hpend, hcondition⟩ := List.forall_mem_append.mp hpend
    -- What is pending is bound before the block is opened, and the condition is taken out of it.
    obtain ⟨hsettled, hstatements⟩ := small_settling hpend temps.size
    rw [operands, List.forall_mem_append] at hsettled
    obtain ⟨hrest, hparams⟩ := hsettled
    refine List.forall_mem_cons.mpr ⟨⟨?_, ?_⟩, List.forall_mem_cons.mpr ⟨⟨?_, hrest⟩, hls⟩⟩
    · refine ⟨trivial, by rintro _ ⟨⟩, fun e he => ?_, hparams⟩
      exact hcondition e (Option.mem_toList.mpr he)
    · -- A loop starts with the slots that its parameters were written to.
      unfold opening
      dsimp only
      split
      · exact small_refs _ _
      · exact hparams
    · refine (hf.add hstatements).add (small_assignments _ ?_)
      split
      · exact hparams
      · simp
  | @second f pend ls temps label kind first types =>
    obtain ⟨⟨hf, hpend⟩, hls⟩ := List.forall_mem_cons.mp hd
    exact List.forall_mem_cons.mpr ⟨⟨(hf.finished hpend).secondArm, hf.paramValues⟩, hls⟩
  | @leave f pend l ls temps label kind arms types =>
    obtain ⟨⟨hf, hpend⟩, hl, hls⟩ := List.forall_mem_cons.mp hd |>.imp_right List.forall_mem_cons.mp
    exact List.forall_mem_cons.mpr ⟨small_resumed hl (hf.finished hpend), hls⟩

theorem small_path {is : List Instruction} {d d' : Draft} (his : ∀ i ∈ is, i.Small)
    (h : Path ctx is d d') (hd : d.Small) : d'.Small := by
  induction h with
  | nil => exact hd
  | cons first _ ih =>
    obtain ⟨hi, his⟩ := List.forall_mem_cons.mp his
    exact ih his (small_step hi first hd)

theorem small_start (type : FunctionType) : (Draft.start type).Small := by
  refine List.forall_mem_singleton.mpr ⟨⟨trivial, ?_, ?_, ?_⟩, ?_⟩
  · rintro _ ⟨⟩
  · rintro _ ⟨⟩
  · rintro _ ⟨⟩
  · rintro _ ⟨⟩

theorem small_finishedBody {f : Frame} {pend : List Expression} (hf : f.Small)
    (hpend : ∀ e ∈ pend, e.Small) : Statement.AllSmall (finishedBody f pend) := by
  unfold finishedBody
  split
  · exact hf.body
  · exact Statement.allSmall_append.mpr ⟨hf.body, hpend, trivial⟩

end Build

end IR

/-! ### Functions -/

theorem Reach.mem_of_mem_reached {i : Instruction} {is : List Instruction} {ls : List Level}
    (h : i ∈ reached is ls) : i ∈ is := by
  induction is generalizing ls with
  | nil => exact h
  | cons j is ih =>
    unfold reached at h
    split at h
    · rcases List.mem_cons.mp h with rfl | h
      · exact List.mem_cons_self
      · exact List.mem_cons_of_mem _ (ih h)
    · exact List.mem_cons_of_mem _ (ih h)

theorem Instruction.small_of_closes {i : Instruction} (h : i.closesBlock) : i.Small := by
  cases i <;> trivial

/-- Where the immediates of a body are small, the function that is built of it is so. -/
theorem IR.Function.small_of_build {m : Module} {index : Nat} {fn : Function}
    (hsmall : ∀ body ∈ m.bodies, ∀ l ∈ body.instructions, l.instruction.Small)
    (h : buildFunction m index = .ok fn) : Statement.AllSmall fn.body := by
  obtain ⟨type, body, is, f, pend, temps, label, -, hfound, -, hpath, -, -, hbody, his⟩ :=
    exists_path_of_build h
  have hall : ∀ i ∈ is, i.Small := by
    intro i hi
    by_cases hcloses : i.closesBlock
    · exact Instruction.small_of_closes hcloses
    · have hmem : i ∈ is.filter (!·.closesBlock) := List.mem_filter.mpr ⟨hi, by simpa using hcloses⟩
      rw [his] at hmem
      obtain ⟨l, hl, rfl⟩ :=
        List.mem_map.mp (Reach.mem_of_mem_reached (List.mem_of_mem_filter hmem))
      exact hsmall body (Array.mem_of_getElem? hfound) l (Array.mem_toList_iff.mp hl)
  obtain ⟨hf, hpend⟩ := Build.small_path hall hpath (Build.small_start type) _ List.mem_cons_self
  rw [hbody]
  exact Build.small_finishedBody hf hpend

/-! ### What is read from bytes -/

namespace Decode

open WasmScript.Parser

variable {r r' : Reader} {bs : List UInt8}

theorem exists_of_u32 {n : Nat} (h : r.BytesLeft bs) (hok : u32 r = .ok n r') :
    n < 2 ^ 32 ∧ ∃ rest, r'.BytesLeft rest ∧ rest.length ≤ bs.length := by
  obtain ⟨code, ⟨rest, rfl⟩, hcode, rfl⟩ := (recognizes_u32.accepts_iff h n r').mp hok
  refine ⟨hcode.lt, rest, h.skip, ?_⟩
  simp

/-- The offset of an access is a word. -/
theorem offset_of_memArg {a : Access} {arg : MemArg} (h : r.BytesLeft bs)
    (hok : memArg a r = .ok arg r') :
    arg.offset < 2 ^ 32 := by
  obtain ⟨pos, _, hpos, hok⟩ := bind_at_eq_ok hok
  cases hpos
  obtain ⟨align, r₁, halign, hok⟩ := bind_at_eq_ok hok
  obtain ⟨-, rest, hrest, -⟩ := exists_of_u32 h halign
  split at hok
  · cases hok
  split at hok
  · cases hok
  · obtain ⟨offset, r₂, hoffset, hok⟩ := bind_at_eq_ok hok
    cases hok
    exact (exists_of_u32 hrest hoffset).1

/-- A vector has no more items than there are bytes. -/
theorem size_of_vector {α : Type} {item : Parser α} {items : Array α} (h : r.BytesLeft bs)
    (hok : vector item r = .ok items r') : items.size ≤ bs.length := by
  obtain ⟨count, r₁, hcount, hitems⟩ := bind_at_eq_ok hok
  obtain ⟨n, r₂, hn, hcount⟩ := bind_at_eq_ok hcount
  obtain ⟨-, rest, hrest, hle⟩ := exists_of_u32 h hn
  obtain ⟨left, _, hleft, hcount⟩ := bind_at_eq_ok hcount
  cases hleft
  split at hcount
  · cases hcount
  · next hnot =>
    cases hcount
    have hsize : items.size = #[].size + count := ensures_size_repeated count #[] _ _ _ hitems
    rw [hrest.remaining] at hnot
    rw [Array.size_empty] at hsize
    omega

theorem ensures_escaped_small (pos : Nat) : (escaped pos).Ensures Instruction.Small := by
  refine .next fun number => ?_
  split
  · exact .next fun _ => .next fun _ => ensures_pure trivial
  · exact .next fun _ => ensures_pure trivial
  · exact ensures_failAt _ _
  · exact ensures_failAt _ _
  · split
    · exact ensures_failAt _ _
    split
    · exact ensures_failAt _ _
    · exact ensures_failAt _ _

theorem ensures_plain_small (pos byte : Nat) : (plain pos byte).Ensures Instruction.Small := by
  unfold plain
  repeat' split
  all_goals first
    | exact ensures_failAt _ _
    | exact ensures_pure trivial

/-- What is read from few enough bytes has small immediates. -/
def EnsuresSmall (p : Parser Instruction) : Prop :=
  ∀ ⦃r r' : Reader⦄ ⦃bs : List UInt8⦄ ⦃i : Instruction⦄, r.BytesLeft bs → bs.length ≤ 2 ^ 31 →
    p r = .ok i r' → i.Small

theorem ensuresSmall_of_ensures {p : Parser Instruction} (h : p.Ensures Instruction.Small) :
    EnsuresSmall p := by
  intro r r' bs i _ _ hok
  exact h r i r' hok

theorem ensuresSmall_access (pos byte : Nat) : EnsuresSmall (access pos byte) := by
  unfold access
  split
  · next a ha =>
    intro r r' bs i h _ hok
    obtain ⟨arg, r₁, harg, hok⟩ := bind_at_eq_ok hok
    have hoffset := offset_of_memArg h harg
    cases hok
    split <;> exact hoffset
  · exact ensuresSmall_of_ensures (ensures_failAt _ _)

theorem ensuresSmall_brTable : EnsuresSmall (do
    let depths ← vector u32
    pure (.brTable depths.toList (← u32))) := by
  intro r r' bs i h hsize hok
  obtain ⟨depths, r₁, hdepths, hok⟩ := bind_at_eq_ok hok
  obtain ⟨default, r₂, -, hok⟩ := bind_at_eq_ok hok
  cases hok
  have hcount : depths.toList.length ≤ bs.length := size_of_vector h hdepths
  exact Nat.le_trans hcount hsize

theorem ensuresSmall_operation (scope : Scope) (pos first : Nat) :
    EnsuresSmall (operation scope pos first) := by
  unfold operation
  split
  case h_10 => exact ensuresSmall_brTable
  case h_12 =>
    refine ensuresSmall_of_ensures (.next fun index => ?_)
    split
    · exact ensures_pure trivial
    · exact ensures_failAt _ _
  case h_16 =>
    refine ensuresSmall_of_ensures (.next fun types => ?_)
    split
    · exact ensures_pure trivial
    · exact ensures_failAt _ _
  case h_28 => exact ensuresSmall_of_ensures (ensures_escaped_small pos)
  case h_31 => exact ensuresSmall_access pos first
  case h_32 => exact ensuresSmall_of_ensures (ensures_plain_small pos first)
  all_goals
    refine ensuresSmall_of_ensures ?_
    first
    | exact ensures_pure trivial
    | exact .mapped fun _ => trivial
    | exact ensures_failAt _ _

theorem small_of_readAt {bytes : ByteArray} (hsize : bytes.size ≤ 2 ^ 31) {l : Located}
    (h : l.ReadAt bytes) : l.instruction.Small := by
  obtain ⟨scope, r, r', hr, -, hok⟩ := h
  obtain ⟨bs, hbs⟩ := hr.exists_bytesLeft
  obtain ⟨pos, _, hpos, hok⟩ := bind_at_eq_ok hok
  cases hpos
  obtain ⟨first, r₁, hbyte, hok⟩ := bind_at_eq_ok hok
  obtain ⟨i, r₂, hi, hok⟩ := bind_at_eq_ok hok
  cases hok
  rcases bs with _ | ⟨b, rest⟩
  · rw [byte_of_nil hbs] at hbyte
    cases hbyte
  · rw [byte_of_bytesLeft hbs] at hbyte
    cases hbyte
    have hlimit := hbs.1
    have hinside := hr.limit
    rw [List.length_cons] at hlimit
    exact ensuresSmall_operation scope _ b.toNat hbs.tail (by omega) hi

end Decode

/-- The functions of a module that is read from no more than 2 GiB. -/
theorem IR.Function.small_of_decode {bytes : ByteArray} (hsize : bytes.size ≤ 2 ^ 31) {m : Module}
    (h : Module.decode bytes = .ok m) {index : Nat} {fn : Function}
    (hbuild : buildFunction m index = .ok fn) : Statement.AllSmall fn.body := by
  refine small_of_build (fun body hbody l hl => ?_) hbuild
  exact Decode.small_of_readAt hsize (Module.readAt_of_decode h body hbody l hl)

end WasmScript
