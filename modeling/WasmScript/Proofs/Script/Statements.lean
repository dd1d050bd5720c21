/-
  WasmScript/Proofs/Script/Statements.lean
  ========================================
  **Statements in scripts** — that a statement without others inside does what its script does.

  A branch assigns the slots of its target and jumps; where there is nothing to assign, or
  where the jump takes the values along, the script has the jump alone.  A branch table is a
  `switch` on the signed index: each group serves all indices of its targets, and an index
  without a case is behind the table, negative ones included.  The other statements evaluate
  their operands, which `WasmScript.Proofs.Script.Expressions` compares, and do one thing.
-/
import WasmScript.Proofs.IR.Tables
import WasmScript.Proofs.Script.Expressions
import WasmScript.Proofs.Script.Scoping
import WasmScript.Proofs.Script.Switch

namespace WasmScript.Script

open IR (Branch Ending Expression Operand Place Run Surroundings Uniform Variables)
open IR.Expression (usesAll usesAll_subset)
open IR.Run (Unwatched)

variable {σ : Type} {around : Surroundings σ} {s s₁ s₂ : Variables σ}

/-! ### Statements one after another -/

namespace Statement

theorem executeAll_cons (t : Statement) (ts : List Statement) (s : Variables σ) :
    executeAll around (t :: ts) s
      = match execute around t s with
        | .ok .next s' => executeAll around ts s'
        | r => r := by
  rw [executeAll]
  change EStateM.bind (execute around t) _ s = _
  unfold EStateM.bind
  cases execute around t s with
  | error e s' => rfl
  | ok ending s' => cases ending <;> rfl

theorem executeAll_singleton (t : Statement) (s : Variables σ) :
    executeAll around [t] s = execute around t s := by
  rw [executeAll_cons]
  rcases execute around t s with ⟨_ | _ | _ | _, s'⟩ | ⟨e, s'⟩ <;> rfl

theorem executeAll_evaluate {t : Term} {s : Variables σ} {run : Run σ Datum}
    (h : t.evaluate around s = run s) :
    executeAll around [.evaluate t] s = (do let _ ← run; pure Ending.next) s := by
  rw [executeAll_singleton, execute]
  exact bind_at_congr h fun _ _ _ => rfl

theorem executeAll_append (ts us : List Statement) (s : Variables σ) :
    executeAll around (ts ++ us) s
      = match executeAll around ts s with
        | .ok .next s' => executeAll around us s'
        | r => r := by
  induction ts generalizing s with
  | nil => rfl
  | cons t ts ih =>
    rw [List.cons_append, executeAll_cons, executeAll_cons]
    rcases execute around t s with ⟨_ | _ | _ | _, s'⟩ | ⟨e, s'⟩
    · exact ih s'
    all_goals rfl

end Statement

open Statement (executeAll executeAll_append executeAll_cons executeAll_evaluate
  executeAll_singleton)

/-! ### Branches -/

variable {Γ : IR.Scope} {count : Nat} {known : List Nat} {F : Failure → Prop}
variable {a : Expression} {b : Branch}

section

variable (ha : Unwatched Γ count F around)

include ha

/-- A branch that carries no values to slots only jumps. -/
theorem take_jumpOf (hb : b.Typed Γ) (hsmall : b.Small) (huses : usesAll b.values ⊆ known)
    {values : List Term} (hvalues : ofExpressions b.values = .ok values)
    (hplain : b.values.length = 0 ∨ b.mode = .leave) (hs : s.Fits Γ count known) :
    (jumpOf b values).take around s = IR.Run.takeBranch around b s := by
  have hnone (hmode : b.mode ≠ .leave) : b.values = [] ∧ b.slots = [] := by
    have hempty := List.length_eq_zero_iff.mp (hplain.resolve_right hmode)
    have hslots := hb.slots hmode
    rw [hempty] at hslots
    exact ⟨hempty, List.forall₂_nil_right_iff.mp hslots⟩
  unfold jumpOf IR.Run.takeBranch
  cases hmode : b.mode with
  | leave =>
    exact bind_at_congr (cells_ofExpressions ha hb.values hsmall huses hvalues hs) fun _ _ _ => rfl
  | exit =>
    obtain ⟨hempty, hslots⟩ := hnone (by rw [hmode]; rintro ⟨⟩)
    rw [hempty, hslots]
    rfl
  | restart =>
    obtain ⟨hempty, hslots⟩ := hnone (by rw [hmode]; rintro ⟨⟩)
    rw [hempty, hslots]
    rfl

/-- The script of a branch assigns the slots of its target and jumps. -/
theorem executeAll_ofBranch (hb : b.Typed Γ) (hsmall : b.Small) (huses : usesAll b.values ⊆ known)
    {ts : List Statement} (hts : ofBranch b = .ok ts) (hs : s.Fits Γ count known) :
    executeAll around ts s = IR.Run.takeBranch around b s := by
  obtain ⟨values, hvalues, hts⟩ := ok_of_bind hts
  by_cases hplain : b.values.length = 0 ∨ b.mode = .leave
  · rw [if_neg (by tauto)] at hts
    cases hts
    rw [executeAll_singleton, Statement.execute]
    exact take_jumpOf ha hb hsmall huses hvalues hplain hs
  · rw [if_pos (by tauto)] at hts
    cases hts
    rw [executeAll, Statement.execute, bind_assoc, IR.Run.takeBranch]
    refine bind_at_congr (cells_ofExpressions ha hb.values hsmall huses hvalues hs) ?_
    intro cells s₁ _
    have hjump : executeAll around [.jump (jumpOf b values)] = (jumpOf b values).take around :=
      funext (executeAll_singleton _)
    rw [bind_assoc]
    simp only [pure_bind, hjump]
    unfold jumpOf
    cases hmode : b.mode with
    | leave => exact absurd (.inr hmode) hplain
    | exit => rfl
    | restart => rfl

end

/-- Nothing runs on after a branch. -/
theorem takeBranch_ne_next (b : Branch) (s s' : Variables σ) :
    IR.Run.takeBranch around b s ≠ .ok .next s' := by
  intro h
  obtain ⟨cells, s₁, -, h⟩ := bind_at_eq_ok h
  cases hmode : b.mode with
  | leave =>
    rw [hmode] at h
    cases h
  | exit | restart =>
    rw [hmode] at h
    obtain ⟨_, s₂, -, h⟩ := bind_at_eq_ok h
    cases h

theorem bindsAll_ofBranch {ts : List Statement} (hts : ofBranch b = .ok ts) :
    Statement.bindsAll ts = [] := by
  obtain ⟨values, -, hts⟩ := ok_of_bind hts
  cases hts
  split <;> rfl

/-- Where nothing is declared, nothing is out of scope at the end. -/
theorem inScope_of_binds_nil {body : List Statement} (h : Statement.bindsAll body = [])
    (run : Run σ Ending) : Statement.inScope body run = run := by
  funext s
  rw [Statement.inScope, h]
  cases hrun : run s with
  | ok ending s' => rw [bind_at_ok hrun]; rfl
  | error e s' => rw [bind_at_error hrun]

/-- An index that is not negative is its own unsigned reading. -/
theorem unsigned32_eq {n : Int} (hlow : 0 ≤ n) (hhigh : n < 0x80000000) :
    (Bits.unsigned32 n : Int) = n := by
  rw [Bits.unsigned32, Bits.unsigned_eq_toNat, BitVec.toNat_ofInt]
  omega

/-- The unsigned reading of a negative index is behind all targets. -/
theorem le_unsigned32 {n : Int} (hlow : -0x80000000 ≤ n) (hneg : n < 0) :
    2 ^ 31 ≤ Bits.unsigned32 n := by
  rw [Bits.unsigned32, Bits.unsigned_eq_toNat, BitVec.toNat_ofInt]
  omega

/-- Whether a term gives the number that is read from the value of an expression. -/
def ConvertsToInteger (Γ : IR.Scope) (count : Nat) (known : List Nat) (around : Surroundings σ)
    (a : Expression) (t : Term) (read : Cell → Run σ Int) : Prop :=
  ∀ s, s.Fits Γ count known →
    (∃ e s₁, IR.Run.evaluate around a s = .error e s₁ ∧ t.evaluate around s = .error e s₁) ∨
    ∃ c n x s₁, IR.Run.evaluate around a s = .ok c s₁ ∧ read c = pure n ∧
      t.evaluate around s = .ok (.scalar x) s₁ ∧ x.toInteger? .i32 = some n ∧
      s₁.Fits Γ count known

theorem bindsAll_groups {groups : List (List Nat × List Statement)} {last : List Statement}
    (hgroups : ∀ g ∈ groups, Statement.bindsAll g.2 = []) (hlast : Statement.bindsAll last = []) :
    Statement.bindsAll (groups.flatMap Prod.snd ++ last) = [] := by
  have hall : (groups.flatMap Prod.snd).flatMap Statement.binds = [] := by
    rw [List.flatMap_assoc, List.flatMap_eq_nil_iff]
    exact hgroups
  rw [Statement.bindsAll, List.flatMap_append, hall]
  exact hlast

/-- An index without a case is behind all targets, or its target is that of the default. -/
theorem selected_eq_default {targets : List Branch} {default : Branch}
    {groups : List (List Nat × List Statement)} (huniform : Uniform (default :: targets))
    (hlength : targets.length ≤ 2 ^ 31)
    (hcases : groups.map Prod.fst
      = ((firstUses (targets.map Branch.depth)).filter (· ≠ default.depth)).map (casesOf targets))
    {n : Int} (hlow : -0x80000000 ≤ n) (hhigh : n < 0x80000000)
    (hnot : ∀ g ∈ groups, ∀ i ∈ g.1, (i : Int) ≠ n) :
    targets[Bits.unsigned32 n]?.getD default = default := by
  cases hd : targets[Bits.unsigned32 n]? with
  | none => rfl
  | some d =>
    have hlt := (List.getElem?_eq_some_iff.mp hd).1
    have hmem := List.mem_of_getElem? hd
    have hindex : (Bits.unsigned32 n : Int) = n := by
      refine unsigned32_eq ?_ hhigh
      by_contra hneg
      have hle := le_unsigned32 hlow (Int.not_le.mp hneg)
      omega
    by_cases hdepth : d.depth = default.depth
    · exact huniform d (List.mem_cons_of_mem _ hmem) default List.mem_cons_self hdepth
    · -- Any other depth has a group, which has a case for each of its indices.
      have hgroup : casesOf targets d.depth ∈ groups.map Prod.fst := by
        rw [hcases]
        refine List.mem_map_of_mem (List.mem_filter.mpr ⟨?_, decide_eq_true hdepth⟩)
        exact mem_firstUses.mpr (List.mem_map_of_mem hmem)
      obtain ⟨g, hg, hg'⟩ := List.mem_map.mp hgroup
      exact absurd hindex (hnot g hg _ (hg' ▸ mem_casesOf.mpr ⟨d, hd, rfl⟩))

section

variable (ha : Unwatched Γ count F around)

include ha

theorem execute_ofBranchIf (hta : a.Typed Γ .value) (htype : a.type = .i32) (hsmalla : a.Small)
    (hb : b.Typed Γ) (hsmall : b.Small) (huses : a.uses ++ usesAll b.values ⊆ known)
    {t : Statement} (ht : ofBranchIf a b = .ok t) (hs : s.Fits Γ count known) :
    Statement.execute around t s = IR.Run.execute around (.branchIf a b) s := by
  obtain ⟨husea, husesb⟩ := List.append_subset.mp huses
  obtain ⟨c, hc, ht⟩ := ok_of_bind ht
  rw [IR.Run.execute]
  -- A branch that carries no values fits on the line of its condition, and any other takes a block.
  by_cases hplain : b.values.length = 0 ∨ b.mode = .leave
  · rw [if_pos hplain] at ht
    obtain ⟨values, hvalues, ht⟩ := ok_of_bind ht
    cases ht
    rw [Statement.execute]
    rcases holds_cases ha hta htype hsmalla husea hc hs with
      ⟨e, s₁, hrun, hcond⟩ | ⟨d, n, s₁, hrun, hn, hcond, hs₁⟩
    · rw [bind_at_error hcond, bind_at_error hrun]
    · rw [bind_at_ok hcond, bind_at_ok hrun, IR.Run.toI32_eq hn, pure_bind]
      by_cases hzero : n = 0
      · subst hzero
        rfl
      · rw [decide_eq_true hzero, if_pos rfl, if_pos hzero]
        exact take_jumpOf ha hb hsmall husesb hvalues hplain hs₁
  · rw [if_neg hplain] at ht
    obtain ⟨body, hbody, ht⟩ := ok_of_bind ht
    cases ht
    rw [Statement.execute, inScope_of_binds_nil (bindsAll_ofBranch hbody)]
    rcases holds_cases ha hta htype hsmalla husea hc hs with
      ⟨e, s₁, hrun, hcond⟩ | ⟨d, n, s₁, hrun, hn, hcond, hs₁⟩
    · rw [bind_at_error hcond, bind_at_error hrun]
    · rw [bind_at_ok hcond, bind_at_ok hrun, IR.Run.toI32_eq hn, pure_bind]
      by_cases hzero : n = 0
      · subst hzero
        rfl
      · rw [decide_eq_true hzero, if_pos rfl, if_pos hzero]
        change (executeAll around body >>= pure) s₁ = _
        rw [bind_pure]
        exact executeAll_ofBranch ha hb hsmall husesb hbody hs₁

/-! ### Branch tables -/

/-- The body of the first group with a case for a number is run, and nothing after it; if there
is no such group, the default is. -/
theorem executeGroups_cases {targets : List Branch} {groups : List (List Nat × List Statement)}
    (hgroups : ∀ g ∈ groups, ∃ b ∈ targets, g.1 = casesOf targets b.depth ∧ ofBranch b = .ok g.2)
    (hbranches : ∀ b ∈ targets, b.Typed Γ ∧ b.Small ∧ usesAll b.values ⊆ known)
    (hs : s.Fits Γ count known) (n : Int) (run : Run σ Ending) :
    (∃ g ∈ groups, ∃ i ∈ g.1, (i : Int) = n ∧ ∃ b ∈ targets, g.1 = casesOf targets b.depth ∧
      Statement.executeGroups around n run false groups s = IR.Run.takeBranch around b s) ∨
    (∀ g ∈ groups, ∀ i ∈ g.1, (i : Int) ≠ n) ∧
      Statement.executeGroups around n run false groups s = run s := by
  induction groups with
  | nil => exact .inr ⟨by simp, by rw [Statement.executeGroups]⟩
  | cons g groups ih =>
    obtain ⟨⟨b, hb, hcases, hbody⟩, hrest⟩ := List.forall_mem_cons.mp hgroups
    obtain ⟨htyped, hsmall, huses⟩ := hbranches b hb
    rw [Statement.executeGroups, Bool.false_or]
    by_cases hmem : ∃ i ∈ g.1, (i : Int) = n
    · obtain ⟨i, hi, hin⟩ := hmem
      refine .inl ⟨g, List.mem_cons_self, i, hi, hin, b, hb, hcases, ?_⟩
      have hbranch := executeAll_ofBranch ha htyped hsmall huses hbody hs
      rw [if_pos (List.any_eq_true.mpr ⟨i, hi, decide_eq_true hin⟩)]
      -- A branch never goes on to the next group.
      cases htake : IR.Run.takeBranch around b s with
      | error e s₁ => rw [bind_at_error (hbranch.trans htake)]
      | ok ending s₁ =>
        rw [bind_at_ok (hbranch.trans htake)]
        cases ending with
        | next => exact absurd htake (takeBranch_ne_next b s s₁)
        | _ => rfl
    · have hnone : (g.1.any fun i => decide ((i : Int) = n)) = false := by
        rw [List.any_eq_false]
        intro i hi
        simpa using fun h => hmem ⟨i, hi, h⟩
      rw [if_neg (by rw [hnone]; exact Bool.false_ne_true)]
      rcases ih hrest with ⟨g', hg', hfound⟩ | ⟨hnot, hrun⟩
      · exact .inl ⟨g', List.mem_cons_of_mem _ hg', hfound⟩
      · refine .inr ⟨List.forall_mem_cons.mpr ⟨?_, hnot⟩, hrun⟩
        intro i hi h
        exact hmem ⟨i, hi, h⟩

/-- The script of a branch table takes the branch that the unsigned index selects. -/
theorem execute_ofBranchTable {targets : List Branch} {default : Branch} (hta : a.Typed Γ .value)
    (htype : a.type = .i32) (hsmalla : a.Small) (husea : a.uses ⊆ known)
    (hlength : targets.length ≤ 2 ^ 31) (huniform : Uniform (default :: targets))
    (hbranches : ∀ b ∈ targets ++ [default], b.Typed Γ ∧ b.Small ∧ usesAll b.values ⊆ known)
    {t : Statement} (ht : ofBranchTable a targets default = .ok t) (hs : s.Fits Γ count known) :
    Statement.execute around t s
      = IR.Run.execute around (.branchTable a targets default) s := by
  obtain ⟨htargets, hdefault⟩ := List.forall_mem_append.mp hbranches
  obtain ⟨htyped, hsmall, huses⟩ := List.forall_mem_singleton.mp hdefault
  obtain ⟨index, hindex, ht⟩ := ok_of_bind ht
  obtain ⟨groups, hgroups, ht⟩ := ok_of_bind ht
  obtain ⟨last, hlast, ht⟩ := ok_of_bind ht
  cases ht
  let depths := (firstUses (targets.map Branch.depth)).filter (· ≠ default.depth)
  have hforms : ∀ b ∈ targets, ∃ body, ofBranch b = .ok body := by
    intro b hb
    obtain ⟨hb, -, -⟩ := htargets b hb
    obtain ⟨values, hvalues, -⟩ :=
      exists_ofExpressions fun e he => exists_ofExpression (hb.values e he)
    exact ⟨_, by rw [ofBranch, hvalues]; rfl⟩
  obtain ⟨gs, hgs, hcases, hserve⟩ := ofGroups_of_mem hforms depths fun d hd =>
    mem_firstUses.mp (List.mem_filter.mp hd).1
  obtain rfl : groups = gs := Except.ok.inj (hgroups.symm.trans hgs)
  -- No branch binds a variable, so the switch forgets none at its end.
  have hnone : Statement.bindsAll (groups.flatMap Prod.snd ++ last) = [] := by
    refine bindsAll_groups (fun g hg => ?_) (bindsAll_ofBranch hlast)
    obtain ⟨b, -, -, hbody⟩ := hserve g hg
    exact bindsAll_ofBranch hbody
  rw [Statement.execute, IR.Run.execute]
  simp only [inScope_of_binds_nil hnone]
  rcases selector_cases ha hta htype hsmalla husea hindex hs with
    ⟨e, s₁, hrun, hsel⟩ | ⟨c, n, s₁, hrun, hn, ⟨hlow, hhigh⟩, hsel, hs₁⟩
  · rw [bind_at_error hsel, bind_at_error hrun]
  rw [bind_at_ok hsel, bind_at_ok hrun, IR.Run.toAddress, IR.Run.toI32_eq hn]
  simp only [pure_bind]
  rcases executeGroups_cases ha hserve htargets hs₁ n (executeAll around last) with
    ⟨g, -, i, hi, rfl, b, hb, hg, hsame⟩ | ⟨hnot, hsame⟩
  · -- All branches of one depth are the same.
    obtain ⟨d, hd, hdepth⟩ := mem_casesOf.mp (hg ▸ hi)
    have hmem := List.mem_of_getElem? hd
    obtain rfl : d = b :=
      huniform d (List.mem_cons_of_mem _ hmem) b (List.mem_cons_of_mem _ hb) hdepth
    have hindex : Bits.unsigned32 (i : Int) = i :=
      Int.ofNat.inj (unsigned32_eq (Int.natCast_nonneg i) hhigh)
    rw [hsame, hindex, hd]
    rfl
  · rw [hsame, selected_eq_default huniform hlength hcases hlow hhigh hnot]
    exact executeAll_ofBranch ha htyped hsmall huses hlast hs₁

/-! ### Calls of the memory -/

omit ha in
theorem call_fails_third (callee : Callee) {t u v : Term} {d d' : Datum} {e : Failure}
    {s₃ : Variables σ} (ht : t.evaluate around s = .ok d s₁)
    (hu : u.evaluate around s₁ = .ok d' s₂) (hv : v.evaluate around s₂ = .error e s₃) :
    (Term.call callee [t, u, v]).evaluate around s = .error e s₃ := by
  simp [Term.evaluate, Term.evaluateAll, bind, EStateM.bind, ht, hu, hv]

omit ha in
theorem evaluate_call_three {callee : Callee} {t u v : Term} {x y z : Scalar} {s₃ : Variables σ}
    (ht : t.evaluate around s = .ok (.scalar x) s₁)
    (hu : u.evaluate around s₁ = .ok (.scalar y) s₂)
    (hv : v.evaluate around s₂ = .ok (.scalar z) s₃) :
    (Term.call callee [t, u, v]).evaluate around s = callee.call around [x, y, z] s₃ := by
  refine evaluate_call [x, y, z] ?_
  simp only [Term.evaluateAll, bind, EStateM.bind, ht, hu, hv]
  rfl

omit ha in
/-- A call of the memory with three numbers. -/
theorem evaluate_memoryCall {b c : Expression} {t u v : Term} {read read' read'' : Cell → Run σ Int}
    (callee : Callee) (op : Int → Int → Int → LinearMemory.Op Unit)
    (hcall : ∀ (x y z : Scalar) (l m n : Int), x.toInteger? .i32 = some l →
      y.toInteger? .i32 = some m → z.toInteger? .i32 = some n →
      callee.call around [x, y, z]
        = (do Run.act (.onOwnMemory around.place (op l m n))
              pure Datum.nothing))
    (ht : ConvertsToInteger Γ count known around a t read)
    (hu : ConvertsToInteger Γ count known around b u read')
    (hv : ConvertsToInteger Γ count known around c v read'') (hs : s.Fits Γ count known) :
    (Term.call callee [t, u, v]).evaluate around s
      = (do let l ← read (← IR.Run.evaluate around a)
            let m ← read' (← IR.Run.evaluate around b)
            let n ← read'' (← IR.Run.evaluate around c)
            Run.act (.onOwnMemory around.place (op l m n))
            pure Datum.nothing) s := by
  -- The arguments are read from left to right, and the first that fails ends the call.
  rcases ht s hs with ⟨e, s₁, hrun, hterm⟩ | ⟨d, l, x, s₁, hrun, hread, hterm, hx, hs₁⟩
  · rw [bind_at_error hrun]
    exact call_fails_first _ _ hterm
  rw [bind_at_ok hrun, hread, pure_bind]
  rcases hu s₁ hs₁ with ⟨e, s₂, hrun', hterm'⟩ | ⟨d', m, y, s₂, hrun', hread', hterm', hy, hs₂⟩
  · rw [bind_at_error hrun']
    exact call_fails_second _ _ hterm hterm'
  rw [bind_at_ok hrun', hread', pure_bind]
  rcases hv s₂ hs₂ with ⟨e, s₃, hrun'', hterm''⟩ | ⟨d'', n, z, s₃, hrun'', hread'', hterm'', hz, -⟩
  · rw [bind_at_error hrun'']
    exact call_fails_third _ hterm hterm' hterm''
  · rw [bind_at_ok hrun'', hread'', pure_bind, evaluate_call_three hterm hterm' hterm'',
      hcall x y z l m n hx hy hz]

theorem integer_ofAddress {t : Term} (hta : a.Typed Γ .value) (htype : a.type = .i32)
    (hsmall : a.Small) (huses : a.uses ⊆ known) (ht : ofAddress a = .ok t) :
    ConvertsToInteger Γ count known around a t (fun c => do pure (← Run.toAddress c : Nat)) := by
  obtain ⟨u, hu, rfl⟩ := map_ok ht
  intro s hs
  rcases (evaluates_of_typed ha hta hsmall huses hu).address_cases ha hta htype huses hs with
    hfails | ⟨c, n, s₁, hrun, hn, hterm, hs₁⟩
  · exact .inl hfails
  · refine .inr ⟨c, Bits.unsigned32 n, _, s₁, hrun, ?_, hterm, toInteger?_word _, hs₁⟩
    simp only [IR.Run.toAddress, IR.Run.toI32_eq hn, pure_bind]

theorem integer_ofExpression {t : Term} (hta : a.Typed Γ .value) (htype : a.type = .i32)
    (hsmall : a.Small) (huses : a.uses ⊆ known) (ht : ofExpression a = .ok t) :
    ConvertsToInteger Γ count known around a t Run.toI32 := by
  intro s hs
  rcases (evaluates_of_typed ha hta hsmall huses ht).cases ha hta huses hs with
    hfails | ⟨c, s₁, hrun, hterm, hc, hs₁⟩
  · exact .inl hfails
  · obtain ⟨n, hn⟩ := IR.Run.exists_i32 (hta.fits_as htype hc)
    exact .inr ⟨c, n, _, s₁, hrun, IR.Run.toI32_eq hn, hterm, toInteger?_ofCell hn, hs₁⟩

theorem evaluate_storeCall {access : Access} {value : Expression} {t u : Term}
    (hta : a.Typed Γ .address) (hsmalla : a.Small) (husea : a.uses ⊆ known)
    (htv : value.Typed Γ .value) (htype : value.type = access.type) (hsmallv : value.Small)
    (husev : value.uses ⊆ known) (ht : ofAddress a = .ok t) (hu : ofExpression value = .ok u)
    (hs : s.Fits Γ count known) :
    (Term.call (.access access.accessor)
        [t, if access.isNarrowI64 then Term.help .i32WrapI64 [u] else u]).evaluate around s
      = (do let address ← Run.toAddress (← IR.Run.evaluate around a)
            let v ← IR.Run.evaluate around value
            let n ← Run.result (Operation.stored access v.toValue)
            Run.act (.onOwnMemory around.place (LinearMemory.store access.accessor address n))
            pure Datum.nothing) s := by
  obtain ⟨t', ht', rfl⟩ := map_ok ht
  have haddress := evaluates_of_typed ha hta hsmalla husea ht'
  have hvalue := evaluates_of_typed ha htv hsmallv husev hu
  -- The address comes before the value, in the call as in the store.
  rcases haddress.address_cases ha hta (type_of_address hta) husea hs with
    ⟨e, s₁, hrun, hterm⟩ | ⟨c, n, s₁, hrun, hn, hterm, hs₁⟩
  · rw [bind_at_error hrun]
    exact call_fails_first _ _ hterm
  rw [bind_at_ok hrun, IR.Run.toAddress, IR.Run.toI32_eq hn]
  simp only [pure_bind]
  rcases hvalue.cases ha htv husev hs₁ with ⟨e, s₂, hrun', hterm'⟩ | ⟨d, s₂, hrun', hterm', hd, -⟩
  · rw [bind_at_error hrun']
    refine call_fails_second _ _ hterm ?_
    split
    · exact call_fails_first _ _ hterm'
    · exact hterm'
  · obtain ⟨w, hw⟩ := exists_word (htv.fits_as htype hd)
    obtain ⟨x, hx, hrepresents⟩ := evaluatesTo_handed access (.of_cell hw hterm')
    have hstored : Operation.stored access d.toValue = .ok (handed access w.toInt) := by
      rw [hw, Operation.valueOf, Operation.stored, Operation.operand_ofInt]
      rfl
    rw [bind_at_ok hrun', hstored, evaluate_call_two hterm hx, Callee.call, toInteger?_word,
      toInteger?_of_stands hrepresents]
    rfl

/-! ### Statements without others inside -/

omit ha in
/-- As many variables are bound to what a call gives as it has results. -/
theorem bound?_ofCells {ids : List Nat} {cells : List Cell} (hids : ids ≠ [])
    (hlength : cells.length = ids.length) : (Datum.ofCells cells).bound? ids = some cells := by
  rcases ids with _ | ⟨id, _ | ⟨id', ids⟩⟩
  · exact absurd rfl hids
  · obtain ⟨c, rfl⟩ := List.length_eq_one_iff.mp hlength
    have hcell : (Datum.scalar (.ofCell c)).cell? = some c := Scalar.toCell?_ofCell c
    rw [Datum.bound?, Datum.ofCells, hcell]
    rfl
  · rcases cells with _ | ⟨c, _ | ⟨c', cells⟩⟩
    · cases hlength
    · cases hlength
    · exact mapM_map_some Scalar.toCell?_ofCell (c :: c' :: cells)

/-- A statement that has no other inside does just what its script does. -/
theorem executeAll_ofPlain {st : IR.Statement} (htyped : st.Typed Γ) (hlabel : st.label? = none)
    (hsmall : st.Small) (huses : st.uses ⊆ known) (htables : ∀ bs ∈ st.tables, Uniform bs)
    {ts : List Statement} (hts : ofStatement st = .ok ts) (hs : s.Fits Γ count known) :
    executeAll around ts s = IR.Run.execute around st s := by
  cases htyped with
  | block | loop | conditional => cases hlabel
  | branch hb =>
    rw [IR.Run.execute]
    exact executeAll_ofBranch ha hb hsmall huses hts hs
  | branchIf hc type hb =>
    obtain ⟨t, ht, hts⟩ := ok_of_bind hts
    cases hts
    rw [executeAll_singleton]
    exact execute_ofBranchIf ha hc type hsmall.1 hb hsmall.2 huses ht hs
  | @branchTable e targets default hindex type htargets hdefault =>
    obtain ⟨t, ht, hts⟩ := ok_of_bind hts
    cases hts
    obtain ⟨husee, hvalues⟩ := List.append_subset.mp huses
    obtain ⟨hsmalle, hlength, hsmallb⟩ := hsmall
    have htyped : ∀ b ∈ targets ++ [default], b.Typed Γ :=
      List.forall_mem_append.mpr ⟨htargets, List.forall_mem_singleton.mpr hdefault⟩
    rw [executeAll_singleton]
    refine execute_ofBranchTable ha hindex type hsmalle husee hlength
      (htables _ List.mem_cons_self) ?_ ht hs
    intro b hb
    exact ⟨htyped b hb, hsmallb b hb, fun id hid => hvalues (List.mem_flatMap.mpr ⟨b, hb, hid⟩)⟩
  | leave values =>
    obtain ⟨us, hus, hts⟩ := ok_of_bind hts
    cases hts
    rw [executeAll_singleton, Statement.execute, IR.Run.execute]
    exact bind_at_congr (cells_ofExpressions ha values.1 hsmall huses hus hs) fun _ _ _ => rfl
  | unreachable =>
    cases hts
    rw [executeAll_singleton, Statement.execute, IR.Run.execute]
  | @localSet index value found hvalue =>
    obtain ⟨t, ht, hts⟩ := ok_of_bind hts
    cases hts
    have hassign := evaluate_assign ha hvalue huses
      (evaluates_of_typed ha hvalue hsmall huses ht) (.localVar index) hs
    rw [executeAll_evaluate hassign, IR.Run.execute]
    simp only [bind_assoc, pure_bind]
    rfl
  | @globalSet index value g found changes hvalue type =>
    obtain ⟨t, ht, hts⟩ := ok_of_bind hts
    cases hts
    have hassign := evaluate_assign ha hvalue huses
      (evaluates_of_typed ha hvalue hsmall huses ht) (.globalVar index) hs
    rw [executeAll_evaluate hassign, IR.Run.execute]
    simp only [bind_assoc, pure_bind]
    rfl
  | @define ids operand types value temps =>
    obtain ⟨t, ht, hts⟩ := ok_of_bind hts
    cases hts
    have hoperand := evaluate_ofOperand ha value hsmall.2 huses ht hs
    rw [executeAll_singleton, Statement.execute, IR.Run.execute]
    -- A call gives as many values as it declares, and so as many as there are variables.
    cases hrun : IR.Run.evaluateOperand around operand s with
    | error e s₁ =>
      rw [bind_at_error hrun] at hoperand
      rw [bind_at_error hoperand, bind_at_error hrun]
    | ok cells s₁ =>
      have hmeets := (IR.Run.agree_evaluateOperand ha.toSurroundingsAgree value huses s hs).2
      rw [hrun] at hmeets
      have hlength := hmeets.1.length_eq.trans temps.length_eq.symm
      rw [bind_at_ok hrun] at hoperand
      rw [bind_at_ok hoperand, bind_at_ok hrun, bound?_ofCells hsmall.1 hlength]
      rfl
  | @assign ids es types values temps =>
    obtain ⟨us, hus, hts⟩ := ok_of_bind hts
    cases hts
    rw [executeAll_singleton, Statement.execute, IR.Run.execute]
    exact bind_at_congr (cells_ofExpressions ha values.1 hsmall huses hus hs) fun _ _ _ => rfl
  | @store access a e memory stores address value type =>
    obtain ⟨husea, husee⟩ := List.append_subset.mp huses
    obtain ⟨t, ht, hts⟩ := ok_of_bind hts
    obtain ⟨u, hu, hts⟩ := ok_of_bind hts
    cases hts
    have hcall := evaluate_storeCall ha address hsmall.1 husea value type hsmall.2 husee ht hu hs
    rw [memoryCall, executeAll_evaluate hcall, IR.Run.execute]
    simp only [bind_assoc, pure_bind]
  | @memoryCopy destination source length memory operands =>
    obtain ⟨t, ht, hts⟩ := ok_of_bind hts
    obtain ⟨u, hu, hts⟩ := ok_of_bind hts
    obtain ⟨v, hv, hts⟩ := ok_of_bind hts
    cases hts
    obtain ⟨⟨hd, htyped⟩, ⟨hs', htyped'⟩, hn, htyped''⟩ := operands.three
    obtain ⟨hused, huses', husen⟩ := IR.Run.three_uses huses
    have hcall := evaluate_memoryCall .memoryCopy LinearMemory.copy
      (fun x y z l m n hx hy hz => by rw [Callee.call, hx, hy, hz]; rfl)
      (integer_ofAddress ha hd htyped hsmall.1 hused ht)
      (integer_ofAddress ha hs' htyped' hsmall.2.1 huses' hu)
      (integer_ofAddress ha hn htyped'' hsmall.2.2 husen hv) hs
    rw [memoryCall, executeAll_evaluate hcall, IR.Run.execute]
    simp only [bind_assoc, pure_bind]
  | @memoryFill destination value length memory operands =>
    obtain ⟨t, ht, hts⟩ := ok_of_bind hts
    obtain ⟨u, hu, hts⟩ := ok_of_bind hts
    obtain ⟨v, hv, hts⟩ := ok_of_bind hts
    cases hts
    obtain ⟨⟨hd, htyped⟩, ⟨hv', htyped'⟩, hn, htyped''⟩ := operands.three
    obtain ⟨hused, husev, husen⟩ := IR.Run.three_uses huses
    have hcall := evaluate_memoryCall .memoryFill LinearMemory.fill
      (fun x y z l m n hx hy hz => by rw [Callee.call, hx, hy, hz]; rfl)
      (integer_ofAddress ha hd htyped hsmall.1 hused ht)
      (integer_ofExpression ha hv' htyped' hsmall.2.1 husev hu)
      (integer_ofAddress ha hn htyped'' hsmall.2.2 husen hv) hs
    rw [memoryCall, executeAll_evaluate hcall, IR.Run.execute]
    simp only [bind_assoc, pure_bind]
  | @evaluate operand types value =>
    obtain ⟨t, ht, hts⟩ := ok_of_bind hts
    cases hts
    have hoperand := evaluate_ofOperand ha value hsmall huses ht hs
    rw [executeAll_evaluate hoperand, IR.Run.execute]
    simp only [bind_assoc, pure_bind]

end

end WasmScript.Script
