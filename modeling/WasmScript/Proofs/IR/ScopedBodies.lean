/-
  WasmScript/Proofs/IR/ScopedBodies.lean
  ======================================
  **Names in built bodies** — values are bound once and known where they are used, and
  branches name blocks around them.

  What is pending in a block may use what the bodies of that block and of the blocks
  around it have bound so far.  An instruction binds pending operands inside the innermost
  block, and this never moves one from a block around it: those are all stable by then.

  Each value that is made is bound in one place, whichever block that is, and each label
  belongs to one block, closed or still open.  A block is marked as soon as the statement
  that branches to it is there.
-/
import Mathlib.Data.List.Nodup
import WasmScript.Proofs.IR.PlacedStatements

namespace WasmScript.IR

open Expression (usesAll usesAll_subset)
open Statement

/-! ### Open blocks -/

def Place.inside (p : Place) (f : Frame) : Place :=
  match f.kind with
  | .function => p
  | .loop => p.inLoop f.label
  | _ => p.inBlock f.label

theorem Place.known_inside (p : Place) (f : Frame) : (p.inside f).known = p.known := by
  unfold inside
  split <;> rfl

theorem Place.Le.inside {p q : Place} (h : p.Le q) (f : Frame) : (p.inside f).Le (q.inside f) := by
  unfold Place.inside
  split
  · exact h
  · exact h.inLoop _
  · exact h.inBlock _

theorem Place.le_inside (p : Place) (f : Frame) : p.Le (p.inside f) := by
  unfold inside
  split
  · exact .refl p
  · exact p.le_inLoop _
  · exact p.le_inBlock _

namespace Frame

/-- All that an open block has been filled with. -/
def built (f : Frame) : List Statement := f.firstArm.getD [] ++ f.body.toList

/-- An open block that fits its place. -/
structure Placed (p : Place) (f : Frame) : Prop where
  body : PlacedAll (p.inside f) f.body.toList
  firstArm : ∀ ss ∈ f.firstArm, f.kind = .conditional ∧ PlacedAll (p.inside f) ss
  condition : ∀ e ∈ f.condition, e.uses ⊆ p.known
  paramValues : ∀ e ∈ f.paramValues, e.uses ⊆ p.known

variable {f : Frame} {p q : Place}

theorem Placed.mono (h : f.Placed p) (hle : p.Le q) : f.Placed q where
  body := h.body.mono (hle.inside f)
  firstArm ss hss := ⟨(h.firstArm ss hss).1, (h.firstArm ss hss).2.mono (hle.inside f)⟩
  condition e he := List.Subset.trans (h.condition e he) hle.known
  paramValues e he := List.Subset.trans (h.paramValues e he) hle.known

theorem Placed.add (h : f.Placed p) {ss : List Statement}
    (hss : PlacedAll ((p.inside f).learn (bound f.body.toList)) ss) : (f.add ss).Placed p where
  body := by
    rw [toList_body_add, placedAll_append]
    exact ⟨h.body, hss⟩
  firstArm := h.firstArm
  condition := h.condition
  paramValues := h.paramValues

theorem built_add (f : Frame) (ss : List Statement) : (f.add ss).built = f.built ++ ss := by
  simp [built, add]

theorem built_mark (targeted : Bool) (f : Frame) : (f.mark targeted).built = f.built := rfl

theorem targeted_mark (targeted : Bool) (f : Frame) :
    (f.mark targeted).targeted = true ↔ f.targeted = true ∨ targeted = true := by simp [mark]

/-- What an open block has been filled with is inside it once it is closed. -/
theorem within_toStatement (h : f.Placed p) :
    f.toStatement.within = f.toStatement :: withinAll f.built := by
  have hnone (hkind : f.kind ≠ .conditional) : f.built = f.body.toList := by
    cases hfirst : f.firstArm with
    | none => rw [built, hfirst, Option.getD_none, List.nil_append]
    | some yes => exact (hkind (h.firstArm yes hfirst).1).elim
  unfold toStatement
  split
  · next hkind =>
    rw [within, hnone (by rw [hkind]; rintro ⟨⟩)]
  · split
    · next hfirst => rw [within, built, hfirst, Option.getD_some, withinAll_append]
    · next hfirst =>
      rw [within, built, hfirst, Option.getD_none, List.nil_append]
      simp [withinAll]
  · next hloop hconditional => rw [within, hnone hconditional]

theorem label?_toStatement (f : Frame) : f.toStatement.label? = some f.label := by
  unfold toStatement
  split <;> first | rfl | (split <;> rfl)

theorem binds_toStatement (f : Frame) : f.toStatement.binds = [] := by
  unfold toStatement
  split <;> first | rfl | (split <;> rfl)

theorem branches_toStatement (f : Frame) : f.toStatement.branches = [] := by
  unfold toStatement
  split <;> first | rfl | (split <;> rfl)

theorem bindsIn_toStatement (h : f.Placed p) : bindsIn [f.toStatement] = bindsIn f.built := by
  simp [bindsIn, withinAll, within_toStatement h, binds_toStatement]

theorem branchesIn_toStatement (h : f.Placed p) :
    branchesIn [f.toStatement] = branchesIn f.built := by
  simp [branchesIn, withinAll, within_toStatement h, branches_toStatement]

theorem labelsIn_toStatement (h : f.Placed p) :
    labelsIn [f.toStatement] = f.label :: labelsIn f.built := by
  simp [labelsIn, withinAll, within_toStatement h, label?_toStatement]

/-- A block that fits its place still does once it is closed. -/
theorem Placed.toStatement (h : f.Placed p) (hkind : f.kind ≠ .function)
    (htargeted : f.targeted = true ↔ Names f.label f.built) : f.toStatement.Placed p := by
  have hcondition : (f.condition.getD (.constant .i32 0)).uses ⊆ p.known := by
    cases hc : f.condition with
    | none => exact List.nil_subset _
    | some c => exact h.condition c hc
  obtain ⟨hbody, hfirst, -, -⟩ := h
  rw [Place.inside] at hbody hfirst
  rw [built] at htargeted
  -- Only an `if` has a first arm.
  cases hk : f.kind with
  | function => exact (hkind hk).elim
  | loop =>
    rw [hk] at hbody hfirst
    cases hf : f.firstArm with
    | some yes => cases (hfirst yes hf).1
    | none =>
      rw [hf] at htargeted
      rw [Frame.toStatement, hk]
      exact ⟨htargeted, hbody⟩
  | block =>
    rw [hk] at hbody hfirst
    cases hf : f.firstArm with
    | some yes => cases (hfirst yes hf).1
    | none =>
      rw [hf] at htargeted
      rw [Frame.toStatement, hk]
      exact ⟨htargeted, hbody⟩
  | conditional =>
    rw [hk] at hbody hfirst
    rw [Frame.toStatement, hk]
    cases hf : f.firstArm with
    | some yes =>
      rw [hf] at htargeted
      exact ⟨hcondition, htargeted, (hfirst yes hf).2, hbody⟩
    | none =>
      rw [hf, Option.getD_none, List.nil_append] at htargeted
      exact ⟨hcondition, by rwa [List.append_nil], hbody, trivial⟩

end Frame

namespace Layer

/-- Where the innermost of some open blocks goes on. -/
def place (slots : List Nat) : List Layer → Place
  | [] => { known := slots }
  | l :: ls => ((place slots ls).inside l.frame).learn (bound l.frame.body.toList)

/-- Whether open blocks and their operands fit the places where they are. -/
def Placed (slots : List Nat) : List Layer → Prop
  | [] => True
  | l :: ls => l.frame.Placed (place slots ls)
    ∧ (∀ e ∈ l.pend, e.uses ⊆ (place slots (l :: ls)).known) ∧ Placed slots ls

/-- All that some open blocks have been filled with. -/
def built (ls : List Layer) : List Statement := ls.flatMap fun l => l.frame.built

/-- Whether open blocks are marked if there are branches to them, in themselves or further
inside. -/
def Targeted (inner : List Statement) : List Layer → Prop
  | [] => True
  | l :: ls => (l.frame.targeted = true ↔ Names l.frame.label (inner ++ l.frame.built))
    ∧ Targeted (inner ++ l.frame.built) ls

variable {slots slots' : List Nat} {ls : List Layer} {l : Layer}

@[simp] theorem built_cons (l : Layer) (ls : List Layer) :
    built (l :: ls) = l.frame.built ++ built ls :=
  List.flatMap_cons

theorem subset_known (slots : List Nat) (ls : List Layer) : slots ⊆ (place slots ls).known := by
  induction ls with
  | nil => exact List.Subset.refl _
  | cons l ls ih =>
    rw [place, Place.learn, Place.known_inside]
    exact List.Subset.trans ih (List.subset_append_left _ _)

theorem place_le (h : slots ⊆ slots') (ls : List Layer) :
    (place slots ls).Le (place slots' ls) := by
  induction ls with
  | nil => exact ⟨h, List.Subset.refl _, List.Subset.refl _⟩
  | cons l ls ih => exact (ih.inside l.frame).learn _

theorem Placed.more (hs : slots ⊆ slots') (h : Placed slots ls) : Placed slots' ls := by
  induction ls with
  | nil => trivial
  | cons l ls ih =>
    obtain ⟨hframe, hpend, hls⟩ := h
    exact ⟨hframe.mono (place_le hs ls), fun e he =>
      List.Subset.trans (hpend e he) (place_le hs (l :: ls)).known, ih hls⟩

theorem target_nil (ls : List Layer) : target (decide <| · ∈ ([] : List Nat)) ls = ls := by
  have hnone (ls : List Layer) : target (fun _ => false) ls = ls := by
    induction ls with
    | nil => rfl
    | cons l ls ih =>
      rw [target, ih]
      simp [Frame.mark]
  simpa using hnone ls

@[simp] theorem place_target (targets : Nat → Bool) (ls : List Layer) :
    place slots (target targets ls) = place slots ls := by
  induction ls generalizing targets with
  | nil => rfl
  | cons l ls ih =>
    rw [target, place, ih]
    rfl

theorem Placed.target (h : Placed slots ls) (targets : Nat → Bool) :
    Placed slots (target targets ls) := by
  induction ls generalizing targets with
  | nil => trivial
  | cons l ls ih =>
    obtain ⟨hframe, hpend, hls⟩ := h
    rw [Layer.target, Placed, place, place_target]
    exact ⟨{ hframe with }, hpend, ih hls _⟩

@[simp] theorem built_target (targets : Nat → Bool) (ls : List Layer) :
    built (target targets ls) = built ls := by
  induction ls generalizing targets with
  | nil => rfl
  | cons l ls ih =>
    rw [target, built_cons, ih]
    rfl

@[simp] theorem labels_target (targets : Nat → Bool) (ls : List Layer) :
    (target targets ls).map (fun l => l.frame.label) = ls.map fun l => l.frame.label := by
  induction ls generalizing targets with
  | nil => rfl
  | cons l ls ih =>
    rw [target, List.map_cons, ih]
    rfl

theorem place_add (slots : List Nat) (f : Frame) (ss : List Statement) (pend es : List Expression)
    (ls : List Layer) :
    place slots (⟨f.add ss, es⟩ :: ls) = (place slots (⟨f, pend⟩ :: ls)).learn (bound ss) := by
  rw [place, place, Place.learn_learn, Frame.toList_body_add, bound_append]
  rfl

/-- Branches to open blocks name blocks that are around. -/
theorem reaches_branchTo {d : Nat} (h : ls[d]? = some l) (slots : List Nat) (depth : Nat)
    (es : List Expression) : (place slots ls).Reaches (Build.branchTo depth l.frame es) := by
  induction ls generalizing d with
  | nil => cases h
  | cons l' ls ih =>
    cases d with
    | zero =>
      obtain rfl := Option.some.inj h
      rw [place, Place.inside]
      unfold Place.Reaches Build.branchTo
      cases l'.frame.kind with
      | function => trivial
      | _ => exact List.mem_cons_self
    | succ d =>
      have hle : (place slots ls).Le (place slots (l' :: ls)) :=
        ((place slots ls).le_inside l'.frame).trans (Place.le_learn _ _)
      exact hle.reaches (ih h)

/-- What is inside matters only by the labels that it names. -/
theorem Targeted.congr {inner inner' : List Statement}
    (hinner : ∀ label, Names label inner ↔ Names label inner') (h : Targeted inner ls) :
    Targeted inner' ls := by
  induction ls generalizing inner inner' with
  | nil => trivial
  | cons l ls ih =>
    obtain ⟨hl, hls⟩ := h
    have hbuilt (label : Int) : Names label (inner ++ l.frame.built) ↔
        Names label (inner' ++ l.frame.built) := by
      rw [names_append, names_append, hinner]
    exact ⟨hl.trans (hbuilt _), ih hbuilt hls⟩

/-- Blocks that new branches go to are marked. -/
theorem Targeted.target {inner inner' : List Statement} {targets : Nat → Bool}
    (hinner : ∀ i l, ls[i]? = some l →
      (Names l.frame.label inner' ↔ Names l.frame.label inner ∨ targets i = true))
    (h : Targeted inner ls) : Targeted inner' (target targets ls) := by
  induction ls generalizing inner inner' targets with
  | nil => trivial
  | cons l ls ih =>
    obtain ⟨hl, hls⟩ := h
    refine ⟨?_, ih (fun i l' hl' => ?_) hls⟩
    · rw [names_append] at hl ⊢
      have hhead := hinner 0 l rfl
      simp only [Frame.mark, Bool.or_eq_true]
      rw [hl, hhead]
      exact or_right_comm
    · have hrest := hinner (i + 1) l' hl'
      rw [names_append, names_append, hrest]
      exact or_right_comm

end Layer

/-! ### Drafts -/

/-- The labels of all blocks of a draft, those that are closed and those that are open. -/
def Draft.labels (d : Draft) : List Int :=
  labelsIn (Layer.built d.layers) ++ d.layers.map fun l => l.frame.label

def Draft.slots (d : Draft) : List Nat := Temp.ids .slot d.temps.toList

/-- Each value that has been made is bound once, no label is given twice, and what is open or
pending fits the place where it is. -/
structure Draft.Scoped (d : Draft) : Prop where
  binds : (bindsIn (Layer.built d.layers)).Perm (Temp.ids .value d.temps.toList)
  labels : d.labels.Nodup
  fresh : ∀ label ∈ d.labels, label < d.label
  placed : Layer.Placed d.slots d.layers
  targeted : Layer.Targeted [] d.layers

namespace Draft.Scoped

open Layer

variable {f : Frame} {pend es : List Expression} {l : Layer} {ls : List Layer} {temps : Array Temp}
variable {label : Nat} {ss : List Statement} {ts : List Temp}

theorem slots_append (temps : Array Temp) (ts : List Temp) :
    Temp.ids .slot (temps ++ ts.toArray).toList = Temp.ids .slot temps.toList ++
      Temp.ids .slot ts := by
  simp [Temp.ids_append]

/-- Branches to some of the open blocks name those and no others, as no two have the same label. -/
theorem names_branchAt {p : Place} {ids : List Nat} {fs : List Frame} {depths : List Nat}
    {values : List Expression} (hlabels : (fs.map Frame.label).Nodup)
    (hdepths : ∀ d ∈ depths, d < fs.length)
    (hss : Plain p (depths.map (Build.branchAt fs values)) ids ss) {i : Nat}
    (hf : fs[i]? = some f) :
    Names f.label ss ↔ i ∈ depths := by
  have hbranch (d : Nat) : (Build.branchAt fs values d).label = (fs[d]?.getD default).label := by
    unfold Build.branchAt Build.branchTo
    split <;> rfl
  rw [Names, hss.branchesIn_eq]
  constructor
  · rintro ⟨b, hb, hlabel⟩
    obtain ⟨d, hd, rfl⟩ := List.mem_map.mp hb
    have hlt := hdepths d hd
    rw [hbranch, List.getElem?_eq_getElem hlt, Option.getD_some] at hlabel
    have hsame : (fs.map Frame.label)[d]? = (fs.map Frame.label)[i]? := by
      rw [List.getElem?_map, List.getElem?_map, hf, List.getElem?_eq_getElem hlt]
      exact congrArg some hlabel
    have hlt' : d < (fs.map Frame.label).length := by rwa [List.length_map]
    rwa [← (List.getElem?_inj hlt' hlabels).mp hsame]
  · intro hi
    refine ⟨_, List.mem_map_of_mem hi, ?_⟩
    rw [hbranch, hf, Option.getD_some]

/-- Statements without others inside are added to the innermost block. -/
theorem add (h : Draft.Scoped ⟨⟨f, pend⟩ :: ls, temps, label⟩) (depths : List Nat)
    (values es : List Expression)
    (hdepths : ∀ d ∈ depths, d < (f :: ls.map Layer.frame).length)
    (hss : Plain (place (Temp.ids .slot temps.toList) (⟨f, pend⟩ :: ls))
      (depths.map (Build.branchAt (f :: ls.map Layer.frame) values)) (Temp.ids .value ts) ss)
    (hes : ∀ e ∈ es, e.uses ⊆ ((place (Temp.ids .slot temps.toList) (⟨f, pend⟩ :: ls)).learn
      (Temp.ids .value ts)).known) :
    Draft.Scoped
      ⟨target (decide <| · ∈ depths) (⟨f.add ss, es⟩ :: ls), temps ++ ts.toArray, label⟩ := by
  obtain ⟨binds, labels, fresh, ⟨hframe, -, hls⟩, htargeted, htargets⟩ := h
  have hlabels : Draft.labels ⟨target (decide <| · ∈ depths) (⟨f.add ss, es⟩ :: ls),
      temps ++ ts.toArray, label⟩ = Draft.labels ⟨⟨f, pend⟩ :: ls, temps, label⟩ := by
    rw [Draft.labels, Draft.labels, built_target, labels_target, built_cons, built_cons]
    simp only [Frame.built_add, labelsIn_append, hss.labelsIn_eq, List.append_nil]
    rfl
  have hslots : Temp.ids .slot temps.toList ⊆ Temp.ids .slot (temps ++ ts.toArray).toList := by
    rw [slots_append]
    exact List.subset_append_left _ _
  -- As the labels of the open blocks differ, a branch names the one at its depth alone.
  have hnames {i : Nat} {g : Frame} (hg : (f :: ls.map Layer.frame)[i]? = some g) :
      Names g.label ss ↔ i ∈ depths := by
    refine names_branchAt ?_ hdepths hss hg
    have hopen := (List.nodup_append.mp labels).2.1
    rwa [← List.map_cons (f := Layer.frame) (a := ⟨f, pend⟩), List.map_map]
  refine ⟨?_, hlabels ▸ labels, fun label' h' => fresh label' (hlabels ▸ h'), ?_, ?_⟩
  · rw [built_target, built_cons, Frame.built_add, bindsIn_append, bindsIn_append, hss.bindsIn_eq,
      Array.toList_append, Temp.ids_append]
    rw [built_cons, bindsIn_append] at binds
    refine List.Perm.trans ?_ (binds.append_right _)
    rw [List.append_assoc, List.append_assoc]
    exact List.perm_append_comm.append_left _
  · have hplaced :
        Layer.Placed (Temp.ids .slot (temps ++ ts.toArray).toList) (⟨f.add ss, es⟩ :: ls) := by
      refine ⟨?_, fun e he => ?_, hls.more hslots⟩
      · exact (hframe.mono (place_le hslots ls)).add
          (hss.placed.mono (place_le hslots (⟨f, pend⟩ :: ls)))
      · rw [place_add _ _ _ pend, hss.binds]
        exact List.Subset.trans (hes e he) ((place_le hslots (⟨f, pend⟩ :: ls)).learn _).known
    exact hplaced.target (decide <| · ∈ depths)
  · refine ⟨?_, htargets.target fun i l hl => ?_⟩
    · have hhead : Names f.label ss ↔ 0 ∈ depths := hnames rfl
      rw [Frame.targeted_mark, Frame.built_mark, Frame.built_add, List.nil_append,
        decide_eq_true_eq]
      exact (or_congr htargeted hhead.symm).trans names_append.symm
    · have htail : Names l.frame.label ss ↔ i + 1 ∈ depths := hnames (by simp [hl])
      rw [Frame.built_mark, List.nil_append, List.nil_append, Frame.built_add, names_append, htail,
        decide_eq_true_eq]

theorem dead (h : Draft.Scoped ⟨⟨f, pend⟩ :: ls, temps, label⟩) :
    Draft.Scoped ⟨⟨f.dead, pend⟩ :: ls, temps, label⟩ :=
  ⟨h.binds, h.labels, h.fresh, ⟨{ h.placed.1 with }, h.placed.2⟩, h.targeted⟩

/-- As `add`, for statements without branches. -/
theorem extend (h : Draft.Scoped ⟨⟨f, pend⟩ :: ls, temps, label⟩) (ts : List Temp)
    (es : List Expression)
    (hss : Plain (place (Temp.ids .slot temps.toList) (⟨f, pend⟩ :: ls)) [] (Temp.ids .value ts) ss)
    (hes : ∀ e ∈ es, e.uses ⊆ ((place (Temp.ids .slot temps.toList) (⟨f, pend⟩ :: ls)).learn
      (Temp.ids .value ts)).known) :
    Draft.Scoped ⟨⟨f.add ss, es⟩ :: ls, temps ++ ts.toArray, label⟩ := by
  have hadd := h.add [] [] es (fun d hd => absurd hd List.not_mem_nil) hss hes
  rwa [target_nil] at hadd

/-- A block is opened in the innermost one. -/
theorem enter {g : Frame} {rest : List Expression}
    (h : Draft.Scoped ⟨⟨f, pend⟩ :: ls, temps, label⟩) (hlabel : g.label = label)
    (hbuilt : g.body = #[]) (hfirst : g.firstArm = none) (htargeted : g.targeted = false)
    (hcondition : ∀ e ∈ g.condition,
      e.uses ⊆ (place (Temp.ids .slot temps.toList) (⟨f, pend⟩ :: ls)).known)
    (hparams : ∀ e ∈ g.paramValues,
      e.uses ⊆ (place (Temp.ids .slot temps.toList) (⟨f, pend⟩ :: ls)).known)
    (hes : ∀ e ∈ es, e.uses ⊆ (place (Temp.ids .slot temps.toList) (⟨f, pend⟩ :: ls)).known)
    (hrest : ∀ e ∈ rest, e.uses ⊆ (place (Temp.ids .slot temps.toList) (⟨f, pend⟩ :: ls)).known) :
    Draft.Scoped ⟨⟨g, es⟩ :: ⟨f, rest⟩ :: ls, temps, label + 1⟩ := by
  obtain ⟨binds, labels, fresh, ⟨hframe, -, hls⟩, htargets⟩ := h
  have hempty : g.built = [] := by rw [Frame.built, hfirst, hbuilt]; rfl
  have hlabels : (Draft.labels ⟨⟨g, es⟩ :: ⟨f, rest⟩ :: ls, temps, label + 1⟩).Perm
      (↑label :: Draft.labels ⟨⟨f, pend⟩ :: ls, temps, label⟩) := by
    rw [Draft.labels, built_cons, hempty, List.map_cons, hlabel]
    exact List.perm_middle
  refine ⟨?_, ?_, fun label' h' => ?_, ⟨?_, ?_, hframe, hrest, hls⟩, ?_⟩
  · rw [built_cons, hempty]
    exact binds
  -- The label is the next one, so no other block has it.
  · refine hlabels.nodup_iff.mpr (List.nodup_cons.mpr ⟨fun h' => ?_, labels⟩)
    exact absurd (fresh _ h') (lt_irrefl _)
  · have hlt : (label : Int) < (label + 1 : Nat) := by omega
    rcases List.mem_cons.mp (hlabels.mem_iff.mp h') with rfl | h'
    · exact hlt
    · exact (fresh label' h').trans hlt
  · refine ⟨?_, ?_, hcondition, hparams⟩
    · rw [hbuilt]
      trivial
    · rw [hfirst]
      rintro _ ⟨⟩
  · intro e he
    rw [place, hbuilt, Place.learn, Place.known_inside]
    exact List.Subset.trans (hes e he) (List.subset_append_left _ _)
  · refine ⟨?_, ?_⟩
    · rw [htargeted, hempty]
      exact iff_of_false Bool.false_ne_true (by rintro ⟨b, hb, -⟩; exact absurd hb List.not_mem_nil)
    · rw [hempty]
      exact htargets

/-- The second arm of the innermost block starts with its parameters again. -/
theorem second (h : Draft.Scoped ⟨⟨f, pend⟩ :: ls, temps, label⟩) (hkind : f.kind = .conditional)
    (hfirst : f.firstArm = none) :
    Draft.Scoped ⟨⟨Build.secondArm f, f.paramValues⟩ :: ls, temps, label⟩ := by
  obtain ⟨binds, labels, fresh, ⟨hframe, -, hls⟩, htargeted, htargets⟩ := h
  have hbuilt : (Build.secondArm f).built = f.built := by
    simp [Frame.built, Build.secondArm, hfirst]
  refine ⟨?_, ?_, ?_, ⟨?_, ?_, hls⟩, ?_, ?_⟩
  · rw [built_cons, hbuilt]
    exact binds
  · rw [Draft.labels, built_cons, hbuilt]
    exact labels
  · rw [Draft.labels, built_cons, hbuilt]
    exact fresh
  · refine ⟨trivial, ?_, hframe.condition, hframe.paramValues⟩
    rintro _ ⟨⟩
    exact ⟨hkind, hframe.body⟩
  · intro e he
    rw [place, Place.learn, Place.known_inside]
    exact List.Subset.trans (hframe.paramValues e he) (List.subset_append_left _ _)
  · rw [hbuilt]
    exact htargeted
  · rw [hbuilt]
    exact htargets

/-- The innermost block is closed, and its results are pending in the block around it. -/
theorem close (h : Draft.Scoped ⟨⟨f, pend⟩ :: l :: ls, temps, label⟩) (es : List Expression)
    (hkind : f.kind ≠ .function)
    (hes : ∀ e ∈ es, e.uses ⊆ (place (Temp.ids .slot temps.toList) (l :: ls)).known) :
    Draft.Scoped ⟨⟨l.frame.add [f.toStatement], es⟩ :: ls, temps, label⟩ := by
  obtain ⟨binds, labels, fresh, ⟨hf, -, hl, -, hls⟩, htargeted, htargets, htargets'⟩ := h
  rw [List.nil_append] at htargeted htargets htargets'
  -- The block becomes one statement, so its labels come after those before it and not ahead of
  -- them.
  have hlabels : (Draft.labels ⟨⟨l.frame.add [f.toStatement], es⟩ :: ls, temps, label⟩).Perm
      (Draft.labels ⟨⟨f, pend⟩ :: l :: ls, temps, label⟩) := by
    rw [Draft.labels, Draft.labels, built_cons, built_cons, built_cons, List.map_cons,
      List.map_cons, List.map_cons, Frame.built_add]
    simp only [labelsIn_append, Frame.labelsIn_toStatement hf]
    have hsame : (l.frame.add [f.toStatement]).label = l.frame.label := rfl
    refine List.perm_iff_count.mpr fun a => ?_
    rw [hsame]
    simp only [List.count_append, List.count_cons]
    omega
  have hnames (label : Int) : Names label (f.built ++ l.frame.built)
      ↔ Names label (l.frame.add [f.toStatement]).built := by
    rw [Frame.built_add, names_append, names_append, Names, Names, Names,
      Frame.branchesIn_toStatement hf]
    exact or_comm
  -- It is the same with what the block binds, and a branch names a label wherever it stands.
  refine ⟨?_, hlabels.nodup_iff.mpr labels, fun label' h' => fresh label' (hlabels.mem_iff.mp h'),
    ⟨?_, ?_, hls⟩, ?_, ?_⟩
  · refine List.Perm.trans ?_ binds
    rw [built_cons, built_cons, built_cons, Frame.built_add]
    simp only [bindsIn_append, Frame.bindsIn_toStatement hf]
    refine List.perm_iff_count.mpr fun a => ?_
    simp only [List.count_append]
    omega
  · exact hl.add ⟨hf.toStatement hkind htargeted, trivial⟩
  · intro e he
    rw [place_add _ _ _ l.pend]
    exact List.Subset.trans (hes e he) (List.subset_append_left _ _)
  · exact htargets.trans (hnames _)
  · exact htargets'.congr hnames

/-- The end of an arm writes the results to their slots. -/
theorem finished (h : Draft.Scoped ⟨⟨f, pend⟩ :: ls, temps, label⟩) :
    Draft.Scoped ⟨⟨Build.finished f pend, pend⟩ :: ls, temps, label⟩ := by
  unfold Build.finished
  split
  · exact h
  · have hpend := h.placed.2.1
    have hextend := h.extend [] pend (Build.plain_assignments f.resultSlots hpend)
      fun e he => List.Subset.trans (hpend e he) (List.subset_append_left _ _)
    have hnone : temps ++ ([] : List Temp).toArray = temps := Array.append_empty
    rwa [hnone] at hextend

/-- A block is opened with slots of its own. -/
theorem opening {kind : FrameKind} {type : BlockType} {condition : Option Expression}
    {rest params : List Expression} {height : Nat}
    (h : Draft.Scoped ⟨⟨f, rest ++ params ++ condition.toList⟩ :: ls, temps, label⟩) :
    ((Build.opening kind type condition params height label temps).draft f rest ls
      label).Scoped := by
  let carried := if kind = .loop then type.params else []
  let ts := Build.freshTemps .slot temps.size type.results
  let us := Build.freshTemps .slot (temps ++ ts.toArray).size carried
  let o := Build.opening kind type condition params height label temps
  have htemps : temps ++ (ts ++ us).toArray = o.temps := by
    rw [← List.append_toArray, ← Array.append_assoc]
    rfl
  have hvalues : Temp.ids .value (ts ++ us) = [] := by
    simp [ts, us, Temp.ids_append, Build.ids_freshTemps]
  have hslots : o.frame.paramSlots ⊆ Temp.ids .slot o.temps.toList := by
    have hids : Temp.ids .slot us = o.frame.paramSlots := by
      simp only [us, Build.ids_freshTemps, if_pos]
      rfl
    rw [← htemps, slots_append, Temp.ids_append, hids]
    exact List.subset_append_of_subset_right _ (List.subset_append_right _ _)
  have hpend := h.placed.2.1
  have hparams : ∀ e ∈ params,
      e.uses ⊆ (place (Temp.ids .slot temps.toList)
        (⟨f, rest ++ params ++ condition.toList⟩ :: ls)).known :=
    fun e he => hpend e (List.mem_append_left _ (List.mem_append_right _ he))
  -- Only a loop copies its parameters, and it does so before it starts.
  have hbefore :
      Plain (place (Temp.ids .slot temps.toList) (⟨f, rest ++ params ++ condition.toList⟩ :: ls))
      [] (Temp.ids .value (ts ++ us)) o.before := by
    rw [hvalues]
    refine Build.plain_assignments _ fun e he => ?_
    split at he
    · exact hparams e he
    · exact absurd he List.not_mem_nil
  have hextend := h.extend (ts ++ us) (rest ++ params ++ condition.toList) hbefore fun e he =>
    List.Subset.trans (hpend e he) (List.subset_append_left _ _)
  rw [htemps] at hextend
  obtain ⟨hown, hcondition⟩ := List.forall_mem_append.mp hextend.placed.2.1
  obtain ⟨hrest, hparams'⟩ := List.forall_mem_append.mp hown
  refine hextend.enter rfl rfl rfl rfl
    (fun e he => hcondition e (Option.mem_toList.mpr he)) hparams' (fun e he => ?_) hrest
  have he : e ∈ if kind = .loop then Build.refs o.frame.paramSlots type.params else params := he
  split at he
  · exact List.Subset.trans (Build.uses_refs he) (List.Subset.trans hslots (subset_known _ _))
  · exact hparams' e he

end Draft.Scoped

theorem Scope.Declares.subset_ids {Γ : Scope} {kind : TempKind} {ids : List Nat}
    {types : List ValueType} (h : Γ.Declares kind ids types) :
    ids ⊆ Temp.ids kind Γ.temps.toList := by
  induction h with
  | nil => exact List.nil_subset _
  | @cons id type ids types found _ ih =>
    have hmem := Array.mem_toList_iff.mpr (Array.mem_of_getElem? found)
    refine List.cons_subset.mpr ⟨List.mem_map.mpr ⟨_, List.mem_filter.mpr ⟨hmem, ?_⟩, rfl⟩, ih⟩
    exact decide_eq_true rfl

namespace Build

variable {ctx : Context}

/-- Each step keeps the names of a draft in order. -/
theorem scoped_step {i : Instruction} {d d' : Draft} (htyped : d.Typed ctx) (h : d.Scoped)
    (hstep : Step ctx i d d') : d'.Scoped := by
  cases hstep with
  | @straight i f pend ls temps label o live outcome =>
    -- A branch goes to an open block, which is around the place where it stands.
    have hreaches (es : List Expression) (d : Nat) (hd : d < (f :: ls.map Layer.frame).length) :
        (Layer.place (Temp.ids .slot temps.toList) (⟨f, pend⟩ :: ls)).Reaches
          (branchAt (f :: ls.map Layer.frame) es d) := by
      have hlength : (f :: ls.map Layer.frame).length = (Layer.mk f pend :: ls).length := by simp
      have hlayer := List.getElem?_eq_getElem (hlength ▸ hd)
      have hframe : (f :: ls.map Layer.frame)[d]? = some (Layer.mk f pend :: ls)[d].frame := by
        rw [← List.map_cons (f := Layer.frame) (a := ⟨f, pend⟩), List.getElem?_map, hlayer]
        rfl
      rw [branchAt, hframe]
      exact Layer.reaches_branchTo hlayer _ d es
    obtain ⟨values, hdepths, operands, statements⟩ := placed_straight h.placed.2.1 hreaches outcome
    have hadd := h.add o.depths values o.operands hdepths statements operands
    rw [Outcome.draft, Outcome.layer]
    cases o.live with
    | true => exact hadd
    | false => exact hadd.dead
  | @enter i kind type condition f pend rest params ls temps label live opens operands types =>
    obtain ⟨hpend, hcondition⟩ := List.forall_mem_append.mp h.placed.2.1
    obtain ⟨hoperands, hsettled⟩ := placed_settling pend temps.size _ hpend
    rw [operands] at hoperands
    have hextend := h.extend _ (rest ++ params ++ condition.toList) hsettled
      (List.forall_mem_append.mpr ⟨hoperands, fun e he =>
        List.Subset.trans (hcondition e he) (List.subset_append_left _ _)⟩)
    exact hextend.opening
  | @second f pend ls temps label kind first types =>
    obtain ⟨ss, hss⟩ := exists_finished f pend
    have hfinished := h.finished
    rw [hss] at hfinished ⊢
    exact hfinished.second kind first
  | @leave f pend l ls temps label kind arms types =>
    -- The results are read from slots, and a slot may be read anywhere.
    have hslots : f.resultSlots ⊆ Temp.ids .slot temps.toList :=
      ((htyped.layers _ List.mem_cons_self).frame.resultSlots kind).subset_ids
    have hpend := h.placed.2.2.2.1
    obtain ⟨ss, hss⟩ := exists_finished f pend
    have hfinished := h.finished
    rw [hss] at hfinished ⊢
    unfold resumed
    dsimp only
    split
    · refine hfinished.close _ kind (List.forall_mem_append.mpr ⟨hpend, fun e he => ?_⟩)
      exact List.Subset.trans (List.Subset.trans (uses_refs he) hslots) (Layer.subset_known _ _)
    · have hclose := hfinished.close [] kind fun e he => absurd he List.not_mem_nil
      exact hclose.dead

theorem scoped_start (type : FunctionType) : (Draft.start type).Scoped where
  binds := List.Perm.refl _
  labels := List.nodup_singleton _
  fresh label h := by
    rw [List.mem_singleton.mp h]
    exact show (-1 : Int) < 0 by decide
  placed := by
    refine ⟨⟨trivial, ?_, ?_, fun e he => absurd he List.not_mem_nil⟩,
      fun e he => absurd he List.not_mem_nil, trivial⟩ <;> rintro _ ⟨⟩
  targeted :=
    ⟨iff_of_false Bool.false_ne_true (by rintro ⟨b, hb, -⟩; exact absurd hb List.not_mem_nil),
      trivial⟩

end Build

/-! ### Functions -/

/-- What a typed statement writes to are slots. -/
theorem Statement.Typed.assigns_subset {Γ : Scope} {s : Statement} (h : s.Typed Γ) :
    s.assigns ⊆ Temp.ids .slot Γ.temps.toList := by
  have hslots {b : Branch} (hb : b.Typed Γ) : b.slots ⊆ Temp.ids .slot Γ.temps.toList := by
    by_cases hmode : b.mode = .leave
    · rw [(hb.results hmode).1]
      exact List.nil_subset _
    · exact (hb.slots hmode).subset_ids
  have hbranches {s : Statement} (hs : ∀ b ∈ s.branches, b.Typed Γ) :
      s.branches.flatMap Branch.slots ⊆ Temp.ids .slot Γ.temps.toList := by
    intro id hid
    obtain ⟨b, hb, hid⟩ := List.mem_flatMap.mp hid
    exact hslots (hs b hb) hid
  cases h with
  | assign values temps => exact temps.subset_ids
  | branch branch => exact hbranches (s := .branch _) (List.forall_mem_singleton.mpr branch)
  | branchIf condition type branch =>
    exact hbranches (s := .branchIf ..) (List.forall_mem_singleton.mpr branch)
  | branchTable index type targets default =>
    exact hbranches (s := .branchTable ..)
      (List.forall_mem_append.mpr ⟨targets, List.forall_mem_singleton.mpr default⟩)
  | _ => exact List.nil_subset _

mutual
/-- What is inside a typed statement is typed. -/
theorem Statement.Typed.within {Γ : Scope} {s : Statement} (h : s.Typed Γ) :
    ∀ t ∈ s.within, t.Typed Γ := by
  cases s with
  | block label targeted body =>
    cases h with
    | block hbody => exact List.forall_mem_cons.mpr ⟨.block hbody, Statement.typed_withinAll hbody⟩
  | loop label targeted body =>
    cases h with
    | loop hbody => exact List.forall_mem_cons.mpr ⟨.loop hbody, Statement.typed_withinAll hbody⟩
  | conditional label targeted condition yes no =>
    cases h with
    | conditional hcondition type hyes hno =>
      exact List.forall_mem_cons.mpr ⟨.conditional hcondition type hyes hno,
        List.forall_mem_append.mpr ⟨Statement.typed_withinAll hyes, Statement.typed_withinAll hno⟩⟩
  | _ => exact List.forall_mem_singleton.mpr h

theorem Statement.typed_withinAll {Γ : Scope} {ss : List Statement} (h : ∀ s ∈ ss, s.Typed Γ) :
    ∀ t ∈ withinAll ss, t.Typed Γ := by
  cases ss with
  | nil => exact fun t ht => absurd ht List.not_mem_nil
  | cons s ss =>
    obtain ⟨hs, hss⟩ := List.forall_mem_cons.mp h
    exact List.forall_mem_append.mpr ⟨hs.within, Statement.typed_withinAll hss⟩
end

theorem Temp.nodup_ids {ts : List Temp} (hids : (ts.map Temp.id).Nodup) (kind : TempKind) :
    (Temp.ids kind ts).Nodup := hids.sublist (List.filter_sublist.map _)

/-- No temporary is a value and a slot. -/
theorem Temp.kind_eq_of_mem_ids {ts : List Temp} (hids : (ts.map Temp.id).Nodup)
    {kind other : TempKind} {id : Nat} (h : id ∈ Temp.ids kind ts) (h' : id ∈ Temp.ids other ts) :
    kind = other := by
  obtain ⟨t, ht, rfl⟩ := List.mem_map.mp h
  obtain ⟨u, hu, hid⟩ := List.mem_map.mp h'
  obtain ⟨ht, hkind⟩ := List.mem_filter.mp ht
  obtain ⟨hu, hother⟩ := List.mem_filter.mp hu
  have hsame : u = t := List.inj_on_of_nodup_map hids hu ht hid
  rw [← of_decide_eq_true hkind, ← of_decide_eq_true hother, hsame]

/-- What is left of a draft when only the function is open. -/
theorem Draft.Scoped.root {f : Frame} {pend : List Expression} {temps : Array Temp} {label : Nat}
    (h : Draft.Scoped ⟨[⟨f, pend⟩], temps, label⟩) (hkind : f.kind = .function) :
    (bindsIn f.body.toList).Perm (Temp.ids .value temps.toList) ∧ (labelsIn f.body.toList).Nodup
      ∧ PlacedAll { known := Temp.ids .slot temps.toList } f.body.toList := by
  obtain ⟨binds, labels, -, ⟨hframe, -⟩, -⟩ := h
  have hbuilt : Layer.built [⟨f, pend⟩] = f.body.toList := by
    cases hfirst : f.firstArm with
    | none => simp [Layer.built, Frame.built, hfirst]
    | some yes => cases hkind.symm.trans (hframe.firstArm yes hfirst).1
  have hbody := hframe.body
  rw [Place.inside, hkind] at hbody
  rw [Draft.labels, hbuilt] at labels
  rw [hbuilt] at binds
  exact ⟨binds, (List.nodup_append.mp labels).1, hbody⟩

open Build

/-- Each function that is built has its names in order. -/
theorem Function.scoped_of_build {m : Module} {index : Nat} {fn : Function}
    (h : buildFunction m index = .ok fn) : fn.Scoped := by
  obtain ⟨-, htemps, htyped⟩ := Function.typed_of_build h
  obtain ⟨type, body, f, pend, temps, label, -, hsteps, hkind, -, hfn⟩ := exists_steps_of_build h
  obtain ⟨-, hscoped⟩ := hsteps.keeps (P := fun d => d.Typed _ ∧ d.Scoped)
    (fun hd hstep => ⟨typed_step hd.1 hstep, scoped_step hd.1 hd.2 hstep⟩)
    ⟨typed_start type rfl, scoped_start type⟩
  -- The final `leave` reads what is pending at the end.
  have hleave : Draft.Scoped ⟨[⟨f.add [.leave pend], []⟩], temps, label⟩ := by
    have hplain :=
      Plain.single (s := .leave pend) rfl (usesAll_subset.mpr hscoped.placed.2.1) fun b hb =>
        absurd hb List.not_mem_nil
    have hextend := hscoped.extend [] [] hplain fun e he => absurd he List.not_mem_nil
    have hnone : temps ++ ([] : List Temp).toArray = temps := Array.append_empty
    rwa [hnone] at hextend
  have hbody : fn.body = finishedBody f pend := by rw [hfn]
  have hids : fn.temps = temps.toList := by rw [hfn]
  obtain ⟨binds, labels, placed⟩ : (bindsIn fn.body).Perm (Temp.ids .value fn.temps)
      ∧ (labelsIn fn.body).Nodup ∧ PlacedAll { known := Temp.ids .slot fn.temps } fn.body := by
    rw [hbody, hids]
    unfold finishedBody
    split
    · exact hscoped.root hkind
    · rw [← Frame.toList_body_add]
      exact hleave.root hkind
  have hnodup : (fn.temps.map Temp.id).Nodup := htemps ▸ List.nodup_range
  refine ⟨fun id => ?_, fun id hslot hbound => ?_, fun s hs => ?_, labels, placed⟩
  · rw [binds.count_eq]
    exact (Temp.nodup_ids hnodup .value).count
  · cases Temp.kind_eq_of_mem_ids hnodup hslot (binds.mem_iff.mp hbound)
  · have hassigns := (Statement.typed_withinAll htyped s hs).assigns_subset
    rwa [Function.scope, List.toList_toArray] at hassigns

end WasmScript.IR
