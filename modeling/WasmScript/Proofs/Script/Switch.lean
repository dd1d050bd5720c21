/-
  WasmScript/Proofs/Script/Switch.lean
  ====================================
  **Branch tables as switches** — that every index reaches the branch it selects.

  The cases of a `switch` are grouped by the depth that they branch to, and those that share
  the depth of the default stand with it at the end.  `runSwitch` says what a `switch` runs
  for a value: the clauses from the one with its label on, through the labels in between, up
  to the first jump.  `runs_branch_table` compares that with the table.

  A clause is a label with the statements up to the next label, so that only the last label of
  a group has a body.
-/
import WasmScript.Proofs.IR.Tables
import WasmScript.Script.Statement
import Mathlib.Data.List.Nodup
import Mathlib.Data.List.TakeWhile

namespace WasmScript.Script

open WasmScript.IR (Branch Expression Uniform)

/-! ### The meaning of a switch -/

/-- A clause of a `switch`.  That without a number is the default. -/
structure Clause where
  label : Option Nat
  body : List Statement

namespace Clause

def write (c : Clause) (s : Sheet) : Sheet :=
  (s.line (c.label.elim "default:" caseLine)).indent (Statement.writeAll c.body)

def sharing (body : List Statement) : List (Option Nat) → List Clause
  | [] => []
  | [label] => [⟨label, body⟩]
  | label :: rest => ⟨label, []⟩ :: sharing body rest

/-- The clauses of several bodies, each with its labels. -/
def ofGroups (groups : List (List (Option Nat) × List Statement)) : List Clause :=
  groups.flatMap fun g => sharing g.2 g.1

/-- Where a `switch` enters its clauses for a value. -/
def entered (v : Int) (clauses : List Clause) : List Clause :=
  match clauses.dropWhile fun c => c.label.map Int.ofNat ≠ some v with
  | [] => clauses.dropWhile fun c => c.label ≠ none
  | reached => reached

end Clause

namespace Statement

/-- Whether nothing after a statement is run. -/
def jumps : Statement → Bool
  | .jump _ => true
  | _ => false

/-- What is run of some statements. -/
def untilJump : List Statement → List Statement
  | [] => []
  | s :: rest => if s.jumps then [s] else s :: untilJump rest

/-- Statements of which only the last jumps. -/
def EndsWithJump (body : List Statement) : Prop :=
  ∃ front j, body = front ++ [.jump j] ∧ ∀ s ∈ front, s.jumps = false

theorem untilJump_append {body : List Statement} (h : EndsWithJump body) (rest : List Statement) :
    untilJump (body ++ rest) = body := by
  obtain ⟨front, j, rfl, hfront⟩ := h
  induction front with
  | nil => rfl
  | cons s front ih =>
    have hs : s.jumps = false := hfront s List.mem_cons_self
    have ih := ih fun t ht => hfront t (List.mem_cons_of_mem s ht)
    simp only [List.cons_append, untilJump, hs, Bool.false_eq_true, if_false, ih]

theorem endsWithJump_ofBranch {b : Branch} {body : List Statement} (h : ofBranch b = .ok body) :
    EndsWithJump body := by
  unfold ofBranch at h
  cases hvalues : ofExpressions b.values with
  | error e =>
    rw [hvalues] at h
    cases h
  | ok values =>
    rw [hvalues] at h
    cases h
    split
    · exact ⟨[.assign b.slots values], _, rfl, by simp [jumps]⟩
    · exact ⟨[], _, rfl, by simp⟩

end Statement

open Statement (EndsWithJump untilJump untilJump_append endsWithJump_ofBranch)

/-- What a `switch` runs for a value. -/
def runSwitch (v : Int) (clauses : List Clause) : List Statement :=
  untilJump ((Clause.entered v clauses).flatMap Clause.body)

/-! ### Entering a group -/

namespace Clause

variable {groups : List (List (Option Nat) × List Statement)} {p : Option Nat → Bool}

theorem labels_sharing (body : List Statement) (labels : List (Option Nat)) :
    (sharing body labels).map label = labels := by
  induction labels using sharing.induct with
  | case1 => rfl
  | case2 l => rfl
  | case3 l rest hrest ih => rw [sharing.eq_3 _ _ _ hrest, List.map_cons, ih]

theorem labels_ofGroups : (ofGroups groups).map label = groups.flatMap Prod.fst := by
  rw [ofGroups, List.map_flatMap]
  simp only [labels_sharing]

theorem mem_sharing {body : List Statement} {labels : List (Option Nat)} {c : Clause}
    (h : c ∈ sharing body labels) : c.body = [] ∨ c.body = body := by
  induction labels using sharing.induct with
  | case1 => cases h
  | case2 l =>
    rw [List.mem_singleton.mp h]
    exact .inr rfl
  | case3 l others hothers ih =>
    rw [sharing.eq_3 _ _ _ hothers] at h
    rcases List.mem_cons.mp h with rfl | h
    · exact .inl rfl
    · exact ih h

theorem bodies_sharing (body : List Statement) {labels : List (Option Nat)} (h : labels ≠ []) :
    (sharing body labels).flatMap Clause.body = body := by
  induction labels using sharing.induct with
  | case1 => exact absurd rfl h
  | case2 l => simp [sharing]
  | case3 l others hothers ih =>
    rw [sharing.eq_3 _ _ _ hothers, List.flatMap_cons, List.nil_append, ih hothers]

/-- From any of its labels on, a body is what stands there. -/
theorem bodies_dropWhile (body : List Statement) {labels : List (Option Nat)} (rest : List Clause)
    (h : ∃ l ∈ labels, p l = false) :
    ((sharing body labels ++ rest).dropWhile fun c => p c.label).flatMap Clause.body
      = body ++ rest.flatMap Clause.body := by
  induction labels using sharing.induct with
  | case1 => simp at h
  | case2 l =>
    have hl : p l = false := by simpa using h
    simp [sharing, hl]
  | case3 l others hothers ih =>
    rw [sharing.eq_3 _ _ _ hothers, List.cons_append, List.dropWhile_cons]
    split
    · next hl =>
      refine ih ?_
      obtain ⟨k, hk, hpk⟩ := h
      rcases List.mem_cons.mp hk with rfl | hk
      · exact absurd (hl.symm.trans hpk) (by decide)
      · exact ⟨k, hk, hpk⟩
    · rw [List.flatMap_cons, List.nil_append, List.flatMap_append, bodies_sharing body hothers]

theorem bodies_ofGroups (h : ∃ g ∈ groups, ∃ l ∈ g.1, p l = false) :
    ∃ g ∈ groups, (∃ l ∈ g.1, p l = false) ∧ ∃ rest,
      ((ofGroups groups).dropWhile fun c => p c.label).flatMap Clause.body = g.2 ++ rest := by
  induction groups with
  | nil => simp at h
  | cons g groups ih =>
    -- What is run starts in the first group with a label that is not passed over.
    by_cases hg : ∃ l ∈ g.1, p l = false
    · exact ⟨g, List.mem_cons_self, hg, _, bodies_dropWhile g.2 (ofGroups groups) hg⟩
    · have hothers : ∃ g ∈ groups, ∃ l ∈ g.1, p l = false := by
        obtain ⟨k, hk, hl⟩ := h
        rcases List.mem_cons.mp hk with rfl | hk
        · exact absurd hl hg
        · exact ⟨k, hk, hl⟩
      have hpassed : ∀ c ∈ sharing g.2 g.1, p c.label = true := by
        intro c hc
        have hlabel : c.label ∈ g.1 := by
          rw [← labels_sharing g.2 g.1]
          exact List.mem_map_of_mem hc
        by_contra hne
        exact hg ⟨c.label, hlabel, by simpa using hne⟩
      obtain ⟨k, hk, hl, rest, hrest⟩ := ih hothers
      refine ⟨k, List.mem_cons_of_mem g hk, hl, rest, ?_⟩
      rw [← hrest]
      exact congrArg _ (List.dropWhile_append_of_pos hpassed)

theorem entered_of_mem {clauses : List Clause} {v : Int}
    (h : ∃ l ∈ clauses.map label, l.map Int.ofNat = some v) :
    entered v clauses = clauses.dropWhile fun c => c.label.map Int.ofNat ≠ some v := by
  unfold entered
  split
  · next hnone =>
    obtain ⟨l, hl, hv⟩ := h
    obtain ⟨c, hc, rfl⟩ := List.mem_map.mp hl
    have := List.dropWhile_eq_nil_iff.mp hnone c hc
    simp [hv] at this
  · rfl

theorem entered_of_not_mem {clauses : List Clause} {v : Int}
    (h : ∀ l ∈ clauses.map label, l.map Int.ofNat ≠ some v) :
    entered v clauses = clauses.dropWhile fun c => c.label ≠ none := by
  unfold entered
  split
  · rfl
  · next hsome =>
    refine absurd (List.dropWhile_eq_nil_iff.mpr ?_) hsome
    intro c hc
    exact decide_eq_true (h c.label (List.mem_map_of_mem hc))

/-- A number that is a label selects a body with that label. -/
theorem runSwitch_of_mem (hends : ∀ g ∈ groups, EndsWithJump g.2) {i : Nat}
    (h : ∃ g ∈ groups, some i ∈ g.1) :
    ∃ g ∈ groups, some i ∈ g.1 ∧ runSwitch i (ofGroups groups) = g.2 := by
  have hlabel : ∃ l ∈ (ofGroups groups).map label, l.map Int.ofNat = some (i : Int) := by
    rw [labels_ofGroups]
    exact ⟨some i, List.mem_flatMap.mpr h, rfl⟩
  have hp : ∃ g ∈ groups, ∃ l ∈ g.1, decide (l.map Int.ofNat ≠ some (i : Int)) = false := by
    obtain ⟨g, hg, hi⟩ := h
    exact ⟨g, hg, some i, hi, by simp⟩
  obtain ⟨g, hg, ⟨l, hl, hi⟩, rest, hrest⟩ := bodies_ofGroups hp
  refine ⟨g, hg, ?_, ?_⟩
  · cases l with
    | none => simp at hi
    | some j =>
      have hij : j = i := by simpa using hi
      exact hij ▸ hl
  · rw [runSwitch, entered_of_mem hlabel, hrest]
    exact untilJump_append (hends g hg) rest

/-- Any other value selects the default. -/
theorem runSwitch_of_not_mem (hends : ∀ g ∈ groups, EndsWithJump g.2) {v : Int}
    (hnone : ∃ g ∈ groups, none ∈ g.1) (h : ∀ g ∈ groups, ∀ i, some i ∈ g.1 → (i : Int) ≠ v) :
    ∃ g ∈ groups, none ∈ g.1 ∧ runSwitch v (ofGroups groups) = g.2 := by
  have hlabel : ∀ l ∈ (ofGroups groups).map label, l.map Int.ofNat ≠ some v := by
    rw [labels_ofGroups]
    rintro (_ | i) hi
    · simp
    · obtain ⟨g, hg, hi⟩ := List.mem_flatMap.mp hi
      simpa using h g hg i hi
  have hp : ∃ g ∈ groups, ∃ l ∈ g.1, decide (l ≠ none) = false := by
    obtain ⟨g, hg, hl⟩ := hnone
    exact ⟨g, hg, none, hl, by simp⟩
  obtain ⟨g, hg, ⟨l, hl, hnot⟩, rest, hrest⟩ := bodies_ofGroups hp
  refine ⟨g, hg, ?_, ?_⟩
  · have : l = none := by simpa using hnot
    exact this ▸ hl
  · rw [runSwitch, entered_of_not_mem hlabel, hrest]
    exact untilJump_append (hends g hg) rest

/-! ### The written clauses -/

theorem each_append {α : Type} (write : α → Sheet → Sheet) (as bs : List α) (s : Sheet) :
    s.each (as ++ bs) write = (s.each as write).each bs write := by
  rw [Sheet.each, List.foldl_append]
  rfl

theorem each_sharing (body : List Statement) {labels : List (Option Nat)} (h : labels ≠ [])
    (s : Sheet) :
    s.each (sharing body labels) write
      = (s.each labels fun l => Sheet.line (l.elim "default:" caseLine)).indent
        (Statement.writeAll body) := by
  induction labels using sharing.induct generalizing s with
  | case1 => exact absurd rfl h
  | case2 l => rfl
  | case3 l others hothers ih =>
    rw [sharing.eq_3 _ _ _ hothers]
    exact ih hothers (s.line (l.elim "default:" caseLine))

theorem each_cases (cases : List Nat) (s : Sheet) :
    (s.each (cases.map some) fun l => Sheet.line (l.elim "default:" caseLine))
      = s.each cases fun i => Sheet.line (caseLine i) := by
  rw [Sheet.each, List.foldl_map]
  rfl

end Clause

/-- The groups of a `switch` statement, that of the default the last. -/
def switchGroups (groups : List (List Nat × List Statement)) (defaultCases : List Nat)
    (default : List Statement) : List (List (Option Nat) × List Statement) :=
  groups.map (fun g => (g.1.map some, g.2)) ++ [(defaultCases.map some ++ [none], default)]

section Written

open Clause (each_append each_sharing each_cases)

variable {groups : List (List Nat × List Statement)}

theorem each_groups (h : ∀ g ∈ groups, g.1 ≠ []) (s : Sheet) :
    s.each (Clause.ofGroups (groups.map fun g => (g.1.map some, g.2))) Clause.write
      = Statement.writeGroups groups s := by
  induction groups generalizing s with
  | nil => rfl
  | cons g groups ih =>
    obtain ⟨hg, hgroups⟩ := List.forall_mem_cons.mp h
    rw [List.map_cons, Clause.ofGroups, List.flatMap_cons, each_append,
      each_sharing _ (by simpa using hg), each_cases]
    exact ih hgroups _

/-- A `switch` is written clause by clause. -/
theorem write_switch (h : ∀ g ∈ groups, g.1 ≠ []) (t : Term) (defaultCases : List Nat)
    (default : List Statement) :
    (Statement.switch t groups defaultCases default).write
      = Sheet.block ("switch (" ++ t.text ++ ")")
          fun s => s.each (Clause.ofGroups (switchGroups groups defaultCases default))
            Clause.write := by
  have hbody (s : Sheet) :
      s.each (Clause.ofGroups (switchGroups groups defaultCases default)) Clause.write
        = (((Statement.writeGroups groups s).each defaultCases fun i =>
            Sheet.line (caseLine i)).line
            "default:").indent (Statement.writeAll default) := by
    rw [switchGroups, Clause.ofGroups, List.flatMap_append, each_append, List.flatMap_singleton,
      each_sharing _ (by simp), each_append, each_cases]
    rw [← Clause.ofGroups, each_groups h]
    rfl
  rw [Statement.write]
  congr 1
  funext s
  exact (hbody s).symm

end Written

/-! ### The cases of a table -/

theorem mem_firstUses {n : Nat} {ns : List Nat} : n ∈ firstUses ns ↔ n ∈ ns := by
  induction ns with
  | nil => rfl
  | cons m ns ih =>
    rw [firstUses, List.mem_cons, List.mem_cons, List.mem_filter, ih]
    by_cases h : n = m <;> simp [h]

theorem nodup_firstUses (ns : List Nat) : (firstUses ns).Nodup := by
  induction ns with
  | nil => exact List.nodup_nil
  | cons m ns ih =>
    refine List.nodup_cons.mpr ⟨?_, ih.filter _⟩
    simp [List.mem_filter]

section Table

variable {targets : List Branch} {default : Branch}

theorem mem_casesOf {i depth : Nat} :
    i ∈ casesOf targets depth ↔ ∃ b, targets[i]? = some b ∧ b.depth = depth := by
  rw [casesOf, List.mem_filter, List.mem_range, decide_eq_true_eq, Option.map_eq_some_iff]
  refine and_iff_right_of_imp ?_
  rintro ⟨b, hb, -⟩
  exact (List.getElem?_eq_some_iff.mp hb).1

theorem branchOf?_of_mem {depth : Nat} (h : depth ∈ targets.map Branch.depth) :
    ∃ b ∈ targets, b.depth = depth ∧ branchOf? targets depth = some b := by
  obtain ⟨c, hc, hdepth⟩ := List.mem_map.mp h
  have hfound : (branchOf? targets depth).isSome := by
    rw [branchOf?, List.find?_isSome]
    exact ⟨c, List.mem_reverse.mpr hc, decide_eq_true hdepth⟩
  obtain ⟨b, hb⟩ := Option.isSome_iff_exists.mp hfound
  refine ⟨b, List.mem_reverse.mp (List.mem_of_find?_eq_some hb), ?_, hb⟩
  exact of_decide_eq_true (List.find?_some (p := fun c : Branch => decide (c.depth = depth)) hb)

/-- Each depth has a group with its cases and the script of a branch to it. -/
theorem ofGroups_of_mem (hforms : ∀ b ∈ targets, ∃ body, ofBranch b = .ok body) (depths : List Nat)
    (h : ∀ d ∈ depths, d ∈ targets.map Branch.depth) :
    ∃ groups, ofGroups targets depths = .ok groups
      ∧ groups.map Prod.fst = depths.map (casesOf targets)
      ∧ ∀ g ∈ groups, ∃ b ∈ targets, g.1 = casesOf targets b.depth ∧ ofBranch b = .ok g.2 := by
  induction depths with
  | nil => exact ⟨[], rfl, rfl, by simp⟩
  | cons d depths ih =>
    obtain ⟨hd, hdepths⟩ := List.forall_mem_cons.mp h
    obtain ⟨b, hb, rfl, hbranch⟩ := branchOf?_of_mem hd
    obtain ⟨body, hbody⟩ := hforms b hb
    obtain ⟨groups, hgroups, hcases, hserve⟩ := ih hdepths
    refine ⟨(casesOf targets b.depth, body) :: groups, ?_, ?_, ?_⟩
    · simp only [ofGroups, hbranch, hbody, hgroups]
      rfl
    · rw [List.map_cons, hcases, List.map_cons]
    · exact List.forall_mem_cons.mpr ⟨⟨b, hb, rfl, hbody⟩, hserve⟩

/-- The depths of a table, that of the default the last. -/
def tableDepths (targets : List Branch) (default : Branch) : List Nat :=
  (firstUses (targets.map Branch.depth)).filter (· ≠ default.depth) ++ [default.depth]

theorem perm_cases : ((tableDepths targets default).flatMap (casesOf targets)).Perm
    (List.range targets.length) := by
  have hdepths : (tableDepths targets default).Nodup := by
    refine List.Nodup.append ((nodup_firstUses _).filter _) (List.nodup_singleton _) ?_
    simp [List.disjoint_singleton, List.mem_filter]
  refine (List.perm_ext_iff_of_nodup ?_ List.nodup_range).mpr fun i => ?_
  · refine List.nodup_flatMap.mpr ⟨fun d _ => List.nodup_range.filter _, hdepths.imp ?_⟩
    intro d d' hne i hi hi'
    obtain ⟨b, hb, rfl⟩ := mem_casesOf.mp hi
    obtain ⟨c, hc, rfl⟩ := mem_casesOf.mp hi'
    exact hne (by rw [Option.some.inj (hb.symm.trans hc)])
  · rw [List.mem_flatMap, List.mem_range]
    constructor
    · rintro ⟨d, -, hi⟩
      exact List.mem_range.mp (List.mem_filter.mp hi).1
    · intro hi
      refine ⟨targets[i].depth, ?_, mem_casesOf.mpr ⟨_, List.getElem?_eq_getElem hi, rfl⟩⟩
      rw [tableDepths, List.mem_append, List.mem_singleton, List.mem_filter, mem_firstUses]
      by_cases hlast : targets[i].depth = default.depth
      · exact .inr hlast
      · exact .inl ⟨List.mem_map_of_mem (List.getElem_mem hi), decide_eq_true hlast⟩

theorem cases_ne_nil {groups : List (List Nat × List Statement)}
    (h : ∀ g ∈ groups, ∃ b ∈ targets, g.1 = casesOf targets b.depth ∧ ofBranch b = .ok g.2) :
    ∀ g ∈ groups, g.1 ≠ [] := by
  intro g hg
  obtain ⟨b, hb, hcases, -⟩ := h g hg
  obtain ⟨i, hi, rfl⟩ := List.getElem_of_mem hb
  refine List.ne_nil_of_mem (a := i) ?_
  rw [hcases]
  exact mem_casesOf.mpr ⟨_, List.getElem?_eq_getElem hi, rfl⟩

/-- What holds of each group of a `switch`: it has the script of a branch, and its cases branch to
the depth of that. -/
def Settles (targets : List Branch) (default : Branch) (g : List (Option Nat) × List Statement) :
    Prop :=
  ∃ b ∈ default :: targets, ofBranch b = .ok g.2
    ∧ (∀ i, some i ∈ g.1 → ∃ c, targets[i]? = some c ∧ c.depth = b.depth)
    ∧ (none ∈ g.1 → b = default)

theorem settles_switchGroups {groups : List (List Nat × List Statement)} {last : List Statement}
    (hgroups : ∀ g ∈ groups, ∃ b ∈ targets, g.1 = casesOf targets b.depth ∧ ofBranch b = .ok g.2)
    (hlast : ofBranch default = .ok last) :
    ∀ g ∈ switchGroups groups (casesOf targets default.depth) last, Settles targets default g := by
  intro g hg
  rcases List.mem_append.mp hg with hg | hg
  · obtain ⟨k, hk, rfl⟩ := List.mem_map.mp hg
    obtain ⟨b, hb, hcases, hbody⟩ := hgroups k hk
    refine ⟨b, List.mem_cons_of_mem default hb, hbody, ?_, by simp⟩
    intro i hi
    obtain ⟨j, hj, hij⟩ := List.mem_map.mp hi
    cases hij
    exact mem_casesOf.mp (hcases ▸ hj)
  · cases List.mem_singleton.mp hg
    refine ⟨default, List.mem_cons_self, hlast, ?_, fun _ => rfl⟩
    intro i hi
    exact mem_casesOf.mp (by simpa using hi)

theorem labels_switchGroups {groups : List (List Nat × List Statement)} {last : List Statement}
    (h : groups.map Prod.fst
      = ((firstUses (targets.map Branch.depth)).filter (· ≠ default.depth)).map (casesOf targets)) :
    ((switchGroups groups (casesOf targets default.depth) last).flatMap Prod.fst).Perm
      (none :: (List.range targets.length).map some) := by
  have hlabels : (switchGroups groups (casesOf targets default.depth) last).flatMap Prod.fst
      = ((tableDepths targets default).flatMap (casesOf targets)).map some ++ [none] := by
    have hcases : groups.flatMap Prod.fst = (groups.map Prod.fst).flatten := List.flatMap_def
    rw [switchGroups, List.flatMap_append, List.flatMap_map, List.flatMap_singleton, tableDepths,
      List.flatMap_append, List.flatMap_singleton, List.map_append,
      List.append_assoc, ← List.map_flatMap, hcases, h, ← List.flatMap_def]
  rw [hlabels]
  exact List.perm_append_comm.trans ((perm_cases.map some).cons none)

/-- A branch table whose branches to one depth are the same becomes a `switch` with a case for each
index and a default.  Each index runs the branch that it selects, every other number the default,
and no body runs on into the next. -/
theorem runs_branch_table {index : Expression} {t : Term} (hindex : ofExpression index = .ok t)
    (hforms : ∀ b ∈ default :: targets, ∃ body, ofBranch b = .ok body)
    (huniform : Uniform (default :: targets)) :
    ∃ statement clauses, ofBranchTable index targets default = .ok statement
      ∧ statement.write
        = Sheet.block ("switch (" ++ t.text ++ ")") (fun s => s.each clauses Clause.write)
      ∧ (clauses.map Clause.label).Perm (none :: (List.range targets.length).map some)
      ∧ (∀ (i : Nat) (h : i < targets.length), ofBranch targets[i] = .ok (runSwitch i clauses))
      ∧ (∀ v : Int, v < 0 ∨ targets.length ≤ v → ofBranch default = .ok (runSwitch v clauses))
      ∧ ∀ c ∈ clauses, c.body = [] ∨ EndsWithJump c.body := by
  obtain ⟨hdefault, htargets⟩ := List.forall_mem_cons.mp hforms
  obtain ⟨last, hlast⟩ := hdefault
  obtain ⟨groups, hgroups, hcases, hbranches⟩ := ofGroups_of_mem htargets
    ((firstUses (targets.map Branch.depth)).filter (· ≠ default.depth))
    fun d hd => mem_firstUses.mp (List.mem_filter.mp hd).1
  let gs := switchGroups groups (casesOf targets default.depth) last
  have hsettles : ∀ g ∈ gs, Settles targets default g := settles_switchGroups hbranches hlast
  have hends : ∀ g ∈ gs, EndsWithJump g.2 := by
    intro g hg
    obtain ⟨b, -, hbody, -⟩ := hsettles g hg
    exact endsWithJump_ofBranch hbody
  have hlabels : (gs.flatMap Prod.fst).Perm (none :: (List.range targets.length).map some) :=
    labels_switchGroups hcases
  have hmem (l : Option Nat) : (∃ g ∈ gs, l ∈ g.1) ↔
      l ∈ none :: (List.range targets.length).map some := by
    rw [← hlabels.mem_iff, List.mem_flatMap]
  refine ⟨_, Clause.ofGroups gs, ?_, write_switch (cases_ne_nil hbranches) t _ last, ?_, ?_, ?_, ?_⟩
  · rw [ofBranchTable, hindex]
    simp only [hgroups, hlast]
    rfl
  · rw [Clause.labels_ofGroups]
    exact hlabels
  · intro i hi
    obtain ⟨g, hg, hlabel, hrun⟩ :=
      Clause.runSwitch_of_mem hends ((hmem (some i)).mpr (by simpa using hi))
    obtain ⟨b, hb, hbody, hdepth, -⟩ := hsettles g hg
    obtain ⟨c, hc, hsame⟩ := hdepth i hlabel
    obtain ⟨_, rfl⟩ := List.getElem?_eq_some_iff.mp hc
    rw [hrun, huniform _ (List.mem_cons_of_mem default (List.getElem_mem hi)) b hb hsame]
    exact hbody
  · intro v hv
    -- No label is the number, so the clause of the default is run.
    have hother : ∀ g ∈ gs, ∀ i, some i ∈ g.1 → (i : Int) ≠ v := by
      intro g hg i hi
      have hlt : i < targets.length := by simpa using (hmem (some i)).mp ⟨g, hg, hi⟩
      omega
    obtain ⟨g, hg, hlabel, hrun⟩ :=
      Clause.runSwitch_of_not_mem hends ((hmem none).mpr List.mem_cons_self) hother
    obtain ⟨b, -, hbody, -, hlast⟩ := hsettles g hg
    rw [hrun, ← hlast hlabel]
    exact hbody
  · intro c hc
    obtain ⟨g, hg, hc⟩ := List.mem_flatMap.mp hc
    rcases Clause.mem_sharing hc with hbody | hbody
    · exact .inl hbody
    · rw [hbody]
      exact .inr (hends g hg)

/-- A branch of one value to each depth: out of a block, back to a loop, or out of the function. -/
def branchOfSeven : Nat → Branch
  | 0 => ⟨0, 1, .exit, [3], [.constant .i32 7]⟩
  | 1 => ⟨1, 0, .restart, [2], [.constant .i32 7]⟩
  | depth => ⟨depth, -1, .leave, [], [.constant .i32 7]⟩

theorem depth_branchOfSeven (depth : Nat) : (branchOfSeven depth).depth = depth := by
  unfold branchOfSeven
  split <;> rfl

/-- The cases of a depth stand together, and those of the default are written last. -/
theorem runs_branch_table_shared :
    ∃ statement clauses,
      ofBranchTable (.localRef .i32 0) ([2, 1, 0, 1].map branchOfSeven) (branchOfSeven 2) =
        .ok statement
        ∧ statement.write
          = Sheet.block "switch (l0)" (fun s => s.each clauses Clause.write)
        ∧ (clauses.map Clause.label).Perm [none, some 0, some 1, some 2, some 3]
        ∧ ofBranch (branchOfSeven 1) = .ok (runSwitch 3 clauses)
        ∧ ofBranch (branchOfSeven 2) = .ok (runSwitch (-1) clauses) := by
  have hforms : ∀ b ∈ [2, 2, 1, 0, 1].map branchOfSeven, ∃ body, ofBranch b = .ok body := by
    intro b hb
    obtain ⟨depth, -, rfl⟩ := List.mem_map.mp hb
    unfold branchOfSeven
    split <;> exact ⟨_, rfl⟩
  have huniform : Uniform ([2, 2, 1, 0, 1].map branchOfSeven) := by
    intro b hb c hc hdepth
    obtain ⟨d, -, rfl⟩ := List.mem_map.mp hb
    obtain ⟨d', -, rfl⟩ := List.mem_map.mp hc
    rw [depth_branchOfSeven, depth_branchOfSeven] at hdepth
    rw [hdepth]
  obtain ⟨statement, clauses, hmade, hwrite, hlabels, hcases, hdefault, -⟩ :=
    @runs_branch_table ([2, 1, 0, 1].map branchOfSeven) (branchOfSeven 2)
        (.localRef .i32 0) _ rfl hforms
      huniform
  exact ⟨statement, clauses, hmade, hwrite, hlabels, hcases 3 (by decide),
    hdefault (-1) (by decide)⟩

end Table

end WasmScript.Script
