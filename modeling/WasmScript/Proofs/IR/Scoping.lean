/-
  WasmScript/Proofs/IR/Scoping.lean
  =================================
  **Names in bodies** — where temporaries are bound and used, and which labels branches name.

  A temporary that is bound in a list of statements is known in what follows in that list,
  also inside, and nowhere else.  A branch names the label of a block around it.  A `Place`
  is what may be named somewhere in a body, and `Placed` says that a statement only names
  that, and that exactly the blocks which some branch inside names are marked as targets.
-/
import WasmScript.Run.Structured

namespace WasmScript.IR

/-! ### What is used -/

namespace Expression

mutual
def uses : Expression → List Nat
  | .literal _ | .localRef .. | .globalRef .. | .memorySize => []
  | .tempRef _ id => [id]
  | .unary _ _ a | .tee _ _ a | .address a _ | .load _ a | .memoryGrow a => a.uses
  | .binary _ _ a b | .compare _ a b => a.uses ++ b.uses
  | .select _ c a b => c.uses ++ a.uses ++ b.uses
  | .call _ _ args => usesAll args

def usesAll : List Expression → List Nat
  | [] => []
  | e :: es => e.uses ++ usesAll es
end

theorem mem_usesAll {id : Nat} {es : List Expression} :
    id ∈ usesAll es ↔ ∃ e ∈ es, id ∈ e.uses := by
  induction es with
  | nil => simp [usesAll]
  | cons e es ih => simp [usesAll, ih]

theorem usesAll_subset {es : List Expression} {ids : List Nat} :
    usesAll es ⊆ ids ↔ ∀ e ∈ es, e.uses ⊆ ids := by
  refine ⟨fun h e he id hid => h (mem_usesAll.mpr ⟨e, he, hid⟩), fun h id hid => ?_⟩
  obtain ⟨e, he, hid⟩ := mem_usesAll.mp hid
  exact h e he hid

end Expression

open Expression (usesAll)

def Operand.uses : Operand → List Nat
  | .single e => e.uses
  | .multi _ args _ => usesAll args

namespace Statement

/-- The temporaries that a statement uses in its own expressions, not in statements inside it. -/
def uses : Statement → List Nat
  | .block .. | .loop .. | .unreachable => []
  | .conditional _ _ c .. => c.uses
  | .branch b => usesAll b.values
  | .branchIf c b => c.uses ++ usesAll b.values
  | .branchTable index targets default =>
    index.uses ++ (targets ++ [default]).flatMap fun b => usesAll b.values
  | .leave values | .assign _ values => usesAll values
  | .localSet _ value | .globalSet _ value => value.uses
  | .define _ value | .evaluate value => value.uses
  | .store _ a b => a.uses ++ b.uses
  | .memoryCopy a b c | .memoryFill a b c => a.uses ++ b.uses ++ c.uses

def binds : Statement → List Nat
  | .define ids _ => ids
  | _ => []

def branches : Statement → List Branch
  | .branch b | .branchIf _ b => [b]
  | .branchTable _ targets default => targets ++ [default]
  | _ => []

/-- The temporaries that a statement writes to, apart from those that it binds. -/
def assigns : Statement → List Nat
  | .assign ids _ => ids
  | s => s.branches.flatMap Branch.slots

def label? : Statement → Option Int
  | .block label .. | .loop label .. | .conditional label .. => some label
  | _ => none

/-! ### What is inside -/

mutual
/-- A statement and all statements inside it, at whatever depth. -/
def within : Statement → List Statement
  | s@(.block _ _ body) | s@(.loop _ _ body) => s :: withinAll body
  | s@(.conditional _ _ _ yes no) => s :: (withinAll yes ++ withinAll no)
  | s => [s]

def withinAll : List Statement → List Statement
  | [] => []
  | s :: ss => within s ++ withinAll ss
end

/-- The temporaries bound in some statements and inside them, as often as they are. -/
def bindsIn (ss : List Statement) : List Nat := (withinAll ss).flatMap binds

/-- The labels of the blocks among some statements and inside them. -/
def labelsIn (ss : List Statement) : List Int := (withinAll ss).filterMap label?

def branchesIn (ss : List Statement) : List Branch := (withinAll ss).flatMap branches

/-- Whether some branch in statements or inside them names a label. -/
def Names (label : Int) (ss : List Statement) : Prop := ∃ b ∈ branchesIn ss, b.label = label

end Statement

open Statement

/-- What may be named somewhere in a body. -/
structure Place where
  /-- The temporaries that hold something. -/
  known : List Nat
  /-- The labels of the blocks and choices around. -/
  exits : List Int := []
  /-- The labels of the loops around. -/
  restarts : List Int := []

namespace Place

/-- A place where more temporaries hold something. -/
def learn (p : Place) (ids : List Nat) : Place := { p with known := p.known ++ ids }

def inBlock (p : Place) (label : Int) : Place := { p with exits := label :: p.exits }

def inLoop (p : Place) (label : Int) : Place := { p with restarts := label :: p.restarts }

/-- Whether the target of a branch is around. -/
def Reaches (p : Place) (b : Branch) : Prop :=
  match b.mode with
  | .exit => b.label ∈ p.exits
  | .restart => b.label ∈ p.restarts
  | .leave => True

/-- A place where everything may be named that may be in another one. -/
structure Le (p q : Place) : Prop where
  known : p.known ⊆ q.known
  exits : p.exits ⊆ q.exits
  restarts : p.restarts ⊆ q.restarts

end Place

namespace Statement

mutual
/-- Whether a statement only names what it may, and marks the blocks that branches name. -/
def Placed (p : Place) : Statement → Prop
  | .block label targeted body =>
    (targeted = true ↔ Names label body) ∧ PlacedAll (p.inBlock label) body
  | .loop label targeted body =>
    (targeted = true ↔ Names label body) ∧ PlacedAll (p.inLoop label) body
  | .conditional label targeted condition yes no =>
    condition.uses ⊆ p.known ∧ (targeted = true ↔ Names label (yes ++ no)) ∧
      PlacedAll (p.inBlock label) yes ∧ PlacedAll (p.inBlock label) no
  | s => s.uses ⊆ p.known ∧ ∀ b ∈ s.branches, p.Reaches b

/-- As `Placed`, for statements one after another: each knows what the ones before it bind. -/
def PlacedAll (p : Place) : List Statement → Prop
  | [] => True
  | s :: ss => s.Placed p ∧ PlacedAll (p.learn s.binds) ss
end

/-! ### Statements one after another -/

theorem withinAll_append (ss ts : List Statement) :
    withinAll (ss ++ ts) = withinAll ss ++ withinAll ts := by
  induction ss with
  | nil => rfl
  | cons s ss ih => rw [List.cons_append, withinAll, withinAll, ih, List.append_assoc]

@[simp] theorem bindsIn_append (ss ts : List Statement) :
    bindsIn (ss ++ ts) = bindsIn ss ++ bindsIn ts := by
  rw [bindsIn, withinAll_append, List.flatMap_append]
  rfl

@[simp] theorem labelsIn_append (ss ts : List Statement) :
    labelsIn (ss ++ ts) = labelsIn ss ++ labelsIn ts := by
  rw [labelsIn, withinAll_append, List.filterMap_append]
  rfl

@[simp] theorem branchesIn_append (ss ts : List Statement) :
    branchesIn (ss ++ ts) = branchesIn ss ++ branchesIn ts := by
  rw [branchesIn, withinAll_append, List.flatMap_append]
  rfl

theorem branchesIn_cons (s : Statement) (ss : List Statement) :
    branchesIn (s :: ss) = branchesIn [s] ++ branchesIn ss := branchesIn_append [s] ss

theorem names_append {label : Int} {ss ts : List Statement} :
    Names label (ss ++ ts) ↔ Names label ss ∨ Names label ts := by
  simp [Names, or_and_right, exists_or]

theorem bound_eq_flatMap (ss : List Statement) : bound ss = ss.flatMap binds := by
  induction ss with
  | nil => rfl
  | cons s ss ih =>
    rw [List.flatMap_cons, ← ih]
    cases s <;> rfl

@[simp] theorem bound_append (ss ts : List Statement) :
    bound (ss ++ ts) = bound ss ++ bound ts := by
  simp [bound_eq_flatMap]

end Statement

namespace Place

variable {p q : Place}

@[simp] theorem learn_nil (p : Place) : p.learn [] = p := by simp [learn]

@[simp] theorem learn_learn (p : Place) (ids ids' : List Nat) :
    (p.learn ids).learn ids' = p.learn (ids ++ ids') := by simp [learn]

theorem le_learn (p : Place) (ids : List Nat) : p.Le (p.learn ids) :=
  ⟨List.subset_append_left _ _, List.Subset.refl _, List.Subset.refl _⟩

theorem le_inBlock (p : Place) (label : Int) : p.Le (p.inBlock label) :=
  ⟨List.Subset.refl _, List.subset_cons_self _ _, List.Subset.refl _⟩

theorem le_inLoop (p : Place) (label : Int) : p.Le (p.inLoop label) :=
  ⟨List.Subset.refl _, List.Subset.refl _, List.subset_cons_self _ _⟩

theorem Le.refl (p : Place) : p.Le p :=
  ⟨List.Subset.refl _, List.Subset.refl _, List.Subset.refl _⟩

theorem Le.trans {r : Place} (h : p.Le q) (h' : q.Le r) : p.Le r :=
  ⟨List.Subset.trans h.known h'.known, List.Subset.trans h.exits h'.exits,
    List.Subset.trans h.restarts h'.restarts⟩

theorem Le.learn (h : p.Le q) (ids : List Nat) : (p.learn ids).Le (q.learn ids) :=
  ⟨List.append_subset.mpr
      ⟨List.subset_append_of_subset_left _ h.known, List.subset_append_right _ _⟩,
    h.exits, h.restarts⟩

theorem Le.inBlock (h : p.Le q) (label : Int) : (p.inBlock label).Le (q.inBlock label) :=
  ⟨h.known, List.cons_subset_cons label h.exits, h.restarts⟩

theorem Le.inLoop (h : p.Le q) (label : Int) : (p.inLoop label).Le (q.inLoop label) :=
  ⟨h.known, h.exits, List.cons_subset_cons label h.restarts⟩

theorem Le.reaches (h : p.Le q) {b : Branch} (hb : p.Reaches b) : q.Reaches b := by
  unfold Reaches at hb ⊢
  split
  · next hmode =>
    rw [hmode] at hb
    exact h.exits hb
  · next hmode =>
    rw [hmode] at hb
    exact h.restarts hb
  · trivial

theorem reaches_inBlock {label : Int} {b : Branch} (h : (p.inBlock label).Reaches b) :
    p.Reaches b ∨ b.mode = .exit ∧ b.label = label := by
  unfold Reaches at h ⊢
  cases hmode : b.mode with
  | exit =>
    rw [hmode] at h
    exact (List.mem_cons.mp h).symm.imp_right fun heq => ⟨rfl, heq⟩
  | restart =>
    rw [hmode] at h
    exact .inl h
  | leave => exact .inl trivial

theorem reaches_inLoop {label : Int} {b : Branch} (h : (p.inLoop label).Reaches b) :
    p.Reaches b ∨ b.mode = .restart ∧ b.label = label := by
  unfold Reaches at h ⊢
  cases hmode : b.mode with
  | exit =>
    rw [hmode] at h
    exact .inl h
  | restart =>
    rw [hmode] at h
    exact (List.mem_cons.mp h).symm.imp_right fun heq => ⟨rfl, heq⟩
  | leave => exact .inl trivial

end Place

namespace Statement

theorem placedAll_append {p : Place} {ss ts : List Statement} :
    PlacedAll p (ss ++ ts) ↔ PlacedAll p ss ∧ PlacedAll (p.learn (bound ss)) ts := by
  induction ss generalizing p with
  | nil => simp [PlacedAll, bound]
  | cons s ss ih =>
    have hbound : bound (s :: ss) = s.binds ++ bound ss := by simp [bound_eq_flatMap]
    rw [List.cons_append, PlacedAll, PlacedAll, ih, hbound, Place.learn_learn, and_assoc]

/-- A statement that has no other inside. -/
theorem placed_iff_of_label? {s : Statement} (h : s.label? = none) {p : Place} :
    s.Placed p ↔ s.uses ⊆ p.known ∧ ∀ b ∈ s.branches, p.Reaches b := by
  cases s <;> first | exact Iff.rfl | cases h

theorem within_of_label? {s : Statement} (h : s.label? = none) : s.within = [s] := by
  cases s <;> first | rfl | cases h

theorem branchesIn_of_label? {s : Statement} (h : s.label? = none) :
    branchesIn [s] = s.branches := by
  simp [branchesIn, withinAll, within_of_label? h]

theorem branchesIn_block (label : Int) (targeted : Bool) (body : List Statement) :
    branchesIn [.block label targeted body] = branchesIn body := by
  simp [branchesIn, withinAll, within, branches]

theorem branchesIn_loop (label : Int) (targeted : Bool) (body : List Statement) :
    branchesIn [.loop label targeted body] = branchesIn body := by
  simp [branchesIn, withinAll, within, branches]

theorem branchesIn_conditional (label : Int) (targeted : Bool) (c : Expression)
    (yes no : List Statement) :
    branchesIn [.conditional label targeted c yes no] = branchesIn (yes ++ no) := by
  rw [branchesIn_append]
  simp [branchesIn, withinAll, within, branches]

theorem bindsIn_block (label : Int) (targeted : Bool) (body : List Statement) :
    bindsIn [.block label targeted body] = bindsIn body := by
  simp [bindsIn, withinAll, within, binds]

theorem bindsIn_loop (label : Int) (targeted : Bool) (body : List Statement) :
    bindsIn [.loop label targeted body] = bindsIn body := by
  simp [bindsIn, withinAll, within, binds]

theorem bindsIn_conditional (label : Int) (targeted : Bool) (c : Expression)
    (yes no : List Statement) :
    bindsIn [.conditional label targeted c yes no] = bindsIn (yes ++ no) := by
  rw [bindsIn_append]
  simp [bindsIn, withinAll, within, binds]

mutual
/-- What is placed stays so where more may be named. -/
theorem Placed.mono {s : Statement} {p q : Place} (h : s.Placed p) (hle : p.Le q) : s.Placed q := by
  cases s with
  | block label targeted body => exact ⟨h.1, PlacedAll.mono h.2 (hle.inBlock label)⟩
  | loop label targeted body => exact ⟨h.1, PlacedAll.mono h.2 (hle.inLoop label)⟩
  | conditional label targeted condition yes no =>
    obtain ⟨hcondition, htargeted, hyes, hno⟩ := h
    exact ⟨List.Subset.trans hcondition hle.known, htargeted,
      PlacedAll.mono hyes (hle.inBlock label), PlacedAll.mono hno (hle.inBlock label)⟩
  | _ =>
    rw [placed_iff_of_label? rfl] at h ⊢
    exact ⟨List.Subset.trans h.1 hle.known, fun b hb => hle.reaches (h.2 b hb)⟩

theorem PlacedAll.mono {ss : List Statement} {p q : Place} (h : PlacedAll p ss) (hle : p.Le q) :
    PlacedAll q ss := by
  cases ss with
  | nil => trivial
  | cons s ss => exact ⟨Placed.mono h.1 hle, PlacedAll.mono h.2 (hle.learn _)⟩
end

end Statement

/-! ### Functions -/

def Temp.ids (kind : TempKind) (temps : List Temp) : List Nat :=
  (temps.filter fun t => t.kind = kind).map Temp.id

theorem Temp.ids_append (kind : TempKind) (ts us : List Temp) :
    Temp.ids kind (ts ++ us) = Temp.ids kind ts ++ Temp.ids kind us := by
  simp [Temp.ids]

/-- A function in whose body each value is bound once and used only where it is known, slots are
written by assignments and branches, no two blocks have the same label, and branches name blocks
around them, which are marked as targets. -/
structure Function.Scoped (f : Function) : Prop where
  binds : ∀ id, (bindsIn f.body).count id = if id ∈ Temp.ids .value f.temps then 1 else 0
  slots : ∀ id ∈ Temp.ids .slot f.temps, id ∉ bindsIn f.body
  assigns : ∀ s ∈ withinAll f.body, s.assigns ⊆ Temp.ids .slot f.temps
  labels : (labelsIn f.body).Nodup
  placed : PlacedAll { known := Temp.ids .slot f.temps } f.body

end WasmScript.IR
