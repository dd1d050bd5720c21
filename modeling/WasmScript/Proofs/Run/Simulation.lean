/-
  WasmScript/Proofs/Run/Simulation.lean
  =====================================
  **Built code simulates the stack machine** — statements do what the code does that they were
  built from.

  A draft stands for a state of the stack machine: what is pending in its innermost block
  lies on the stack there.  Code makes one draft of another one and adds statements to it.
  Wherever variables fit the first draft, the statements arrive where the code does, and if
  both go on, they do so as the second draft says.  The proof follows the nesting of the
  code: an instruction at a time, and a block by what its arms do.
-/
import WasmScript.Proofs.Run.Entries

namespace WasmScript

open IR (Variables Surroundings Expression Statement Frame Layer Draft Context Temp Grown Inside
  Simulates Entry)
open IR.Build (Step Made Straight)
open IR.Run
open IR.Statement
open Stack (outcome runOver)

variable {σ : Type}

namespace IR

variable {ctx : Context} {final : Array Temp} {count : Nat} {F : Failure → Prop}
    {around : Surroundings σ}
variable {d d' d₁ d₂ d₃ d₄ d₅ : Draft} {ss ts : List Statement}

/-! ### Code in order -/

theorem simulates_nil (hlive : ¬ d.Dead) :
    Simulates ctx final count around d d [] (pure .next) := fun _ _ =>
  .next (.of_temps rfl) ⟨hlive, rfl⟩

/-- A piece of code and the code after it. -/
theorem simulates_cons (ha : Unwatched (ctx.scope final) count F around) (hd : d.Sound ctx)
    (hof : d₁.Of ctx final) (hgrown : Grown d ss d₁) {c : Code} {cs : List Code}
    (h : Simulates ctx final count around d d₁ ss (Stack.Run.execute (around.onStack ctx.module) c))
    (hrest : ¬ d₁.Dead →
      Simulates ctx final count around d₁ d' ts
        (Stack.Run.executeAll (around.onStack ctx.module) cs)) :
    Simulates ctx final count around d d' (ss ++ ts)
      (Stack.Run.executeAll (around.onStack ctx.module) (c :: cs)) := by
  intro v hv
  have hsize : d.temps.size ≤ d₁.temps.size := by
    obtain ⟨us, hus⟩ := hgrown.inside.temps
    rw [hus, Array.size_append]
    exact Nat.le_add_right _ _
  rw [Stack.Run.executeAll, Stack.runOver_bind]
  refine (h v hv).append (fun _ => rfl) rfl fun w o hrun ⟨hlive, ho⟩ => ?_
  have hw := (hof.next hd hgrown ha hv hrun).2
  have hlater := hrest hlive w hw
  rw [hgrown.aims_eq] at hlater
  rw [ho, ← Stack.runOver_bind, pure_bind]
  exact hlater.mono hsize fun _ _ _ _ h => h

/-- An instruction that stays in its block. -/
theorem simulates_plain (ha : Unwatched (ctx.scope final) count F around) {i : Instruction}
    {f : Frame} {pend : List Expression} {ls : List Layer} {temps : Array Temp} {label : Nat}
    {o : Build.Outcome} (hof : Draft.Of ctx final ⟨⟨f, pend⟩ :: ls, temps, label⟩)
    (hof' : (o.draft f ls temps label).Of ctx final) (sound : i.WellFormed ctx.module.functionCount)
    (live : f.unreachable = false)
    (outcome : Straight ctx (f :: ls.map Layer.frame) temps.size i pend o) :
    Simulates ctx final count around ⟨⟨f, pend⟩ :: ls, temps, label⟩
      (o.draft f ls temps label) o.statements
      (Stack.Run.execute (around.onStack ctx.module) (.plain i)) := by
  intro v hv
  have hbelongs := hof'.belongs hof.sound (Build.grown_draft o f pend ls temps label)
  refine (arrives_straight ha hof.targets hof.pending sound outcome hbelongs.typed hv).mono le_rfl
    fun w _ _ _ hnext => ⟨fun hdead => ?_, hnext.2⟩
  have hmarked :
      (if o.live then f.add o.statements else (f.add o.statements).dead).unreachable = true :=
    hdead _ rfl
  rw [if_pos hnext.1] at hmarked
  exact Bool.false_ne_true (live.symm.trans hmarked)

/-! ### Blocks -/

namespace Build

theorem firstArm_finished (f : Frame) (pend : List Expression) :
    (finished f pend).firstArm = f.firstArm := by
  obtain ⟨ss, hss⟩ := exists_finished f pend
  rw [hss]
  rfl

/-- What follows in a block that was just opened is reached. -/
theorem live_of_opens {i : Instruction} (hopens : i.opensBlock) (h : Step ctx i d d') :
    ¬ d'.Dead := by
  obtain ⟨e, -, -, rfl⟩ := Entry.exists_of_step hopens h
  exact fun hdead => Bool.false_ne_true (hdead _ rfl)

theorem live_of_second (h : Step ctx .elseMark d d') : ¬ d'.Dead := by
  obtain ⟨g, pend, ls, temps, label, -, rfl, -⟩ := exists_second h
  exact fun hdead => Bool.false_ne_true (hdead _ rfl)

end Build

/-- Control goes on after a block only if what follows is taken to be reached. -/
theorem Draft.Sound.leaves_of_passes {g : Frame} {gpend : List Expression} {ls : List Layer}
    {temps : Array Temp} {label : Nat} (h : Draft.Sound ctx ⟨⟨g, gpend⟩ :: ls, temps, label⟩)
    (hpasses : (Build.finished g gpend).toStatement.Passes) :
    (Build.finished g gpend).leaves = true := by
  by_contra hleaves
  have hfinished := h.names.finished
  refine ((h.ends _ List.mem_cons_self).finished gpend).not_passes_toStatement ?_ ?_
    (Bool.eq_false_iff.mpr hleaves) hpasses
  · have htargeted := hfinished.targeted.1
    rwa [List.nil_append] at htargeted
  · exact fun ss hss => (hfinished.placed.1.firstArm ss hss).1

/-- What there is at the end of a block. -/
theorem Entry.exists_end {e : Entry} {d d' : Draft} (inside : Inside e.inside d)
    (closes : Step ctx .endMark d d') :
    ∃ (g f : Frame) (gpend : List Expression) (ls : List Layer) (temps : Array Temp) (label : Nat),
      d = ⟨⟨g, gpend⟩ :: ⟨f, e.rest⟩ :: ls, temps, label⟩ ∧
      d' = ⟨Build.resumed ⟨f, e.rest⟩ (Build.finished g gpend) :: ls, temps, label⟩ ∧
      Grown e.before
        (e.settling.statements ++ (e.opening.before ++ [(Build.finished g gpend).toStatement])) d' ∧
      (g.kind = .conditional ∧ g.firstArm.isNone → g.params = [] ∧ g.results = []) ∧
      (g.unreachable = false → gpend.map Expression.type = g.results) := by
  obtain ⟨g, gpend, f, ls, label, ts, rfl, rfl, hframe, hls, arms, types⟩ :=
    Build.exists_leave inside closes
  refine ⟨g, f, gpend, ls, _, label, rfl, rfl, ?_, arms, types⟩
  rw [← List.append_assoc]
  exact Build.grown_closed _ hframe hls

/-- A block that is opened and closed does what its code does, once what is pending has been
settled. -/
theorem simulates_closed (ha : Unwatched (ctx.scope final) count F around) {e : Entry}
    (hd : e.before.Sound ctx) {g f : Frame} {gpend : List Expression} {ls : List Layer}
    {temps : Array Temp} {label : Nat}
    (hended : Draft.Sound ctx ⟨⟨g, gpend⟩ :: ⟨f, e.rest⟩ :: ls, temps, label⟩)
    (hopened : e.Opened g)
    (hof : Draft.Of ctx final
      ⟨Build.resumed ⟨f, e.rest⟩ (Build.finished g gpend) :: ls, temps, label⟩)
    (hgrown : Grown e.before
      (e.settling.statements ++ (e.opening.before ++ [(Build.finished g gpend).toStatement]))
      ⟨Build.resumed ⟨f, e.rest⟩ (Build.finished g gpend) :: ls, temps, label⟩)
    {code : Stack.Run σ Stack.Ending}
    (h : e.Does ctx final count around (Build.finished g gpend).toStatement code) :
    Simulates ctx final count around e.before
      ⟨Build.resumed ⟨f, e.rest⟩ (Build.finished g gpend) :: ls, temps, label⟩
      (e.settling.statements ++ (e.opening.before ++ [(Build.finished g gpend).toStatement]))
        code := by
  intro v hv
  have hbelongs := hof.belongs hd hgrown
  have hbefore := hof.earlier hd hgrown.inside.temps
  have hpend : Pending (ctx.scope final) (Draft.place final e.before).known e.temps.size
      (e.pend ++ e.condition.toList) := hbefore.pending
  have hstable := Build.isStable_settling e.temps.size e.pend
  have hlow := Build.low_settling hpend.left.low
  rw [e.operands] at hstable hlow
  have hlow' (id : Nat) (hid : id ∈ Expression.usesAll e.rest) : id < e.first := by
    obtain ⟨e', he', hid⟩ := Expression.mem_usesAll.mp hid
    exact hlow id (Expression.mem_usesAll.mpr ⟨e', List.mem_append_left _ he', hid⟩)
  refine arrives_settled ha hpend hbelongs.left.typed hv fun cells w hrun _ hheld => ?_
  have hw : w.Fits (ctx.scope final) count (Draft.place final e.inside).known := by
    rw [Entry.known_inside]
    exact (hbelongs.left.next ha hv hrun).2
  have hheld : Held around (e.rest ++ e.params) cells w := e.operands ▸ hheld
  obtain ⟨crest, cparams, rfl, hrest, hparams⟩ := hheld.exists_append
  -- What is pending below the parameters has been bound, and the block writes only to temporaries
  -- after those.
  have hblock := h w cparams crest.reverse hw hparams
  rw [List.reverse_append, List.append_nil]
  refine hblock.mono (Nat.le_add_right _ _) ?_
  rintro u o hend hkept ⟨rs, hholds, rfl⟩
  have hpasses := (hof.next hd hgrown ha hv ((executeAll_of_next hrun _).trans hend)).1
  have hleaves : (Build.finished g gpend).leaves = true :=
    hended.leaves_of_passes (passesAll_append.mp (passesAll_append.mp hpasses).2).2.1
  have hfinished := hopened.finished gpend
  have hresumed : Build.resumed ⟨f, e.rest⟩ (Build.finished g gpend)
      = ⟨f.add [(Build.finished g gpend).toStatement],
          e.rest ++ Build.refs e.opening.frame.resultSlots e.type.results⟩ := by
    unfold Build.resumed
    dsimp only
    rw [if_pos hleaves, hfinished.resultSlots, hfinished.results]
  have hrest' : Held around e.rest crest u :=
    hrest.kept ha.silent (List.forall_mem_append.mp hstable).1
      fun id hid => hkept id (hlow' id hid) List.not_mem_nil
  have hrefs : Held around (Build.refs e.opening.frame.resultSlots e.type.results) rs u :=
    held_refs ha.silent hholds List.length_range'
  have hlive : f.unreachable = false := hended.outer _ List.mem_cons_self
  rw [hresumed, ← List.append_nil (rs.reverse ++ crest.reverse), ← List.reverse_append]
  refine goesOn_held (fun hdead => ?_) (hrest'.append hrefs)
  exact Bool.false_ne_true (hlive.symm.trans (hdead _ rfl))

/-- A draft is of a function as soon as one is that it becomes inside a block. -/
theorem Draft.Of.before_end {d d' : Draft} (h : d'.Of ctx final) (hd : d.Sound ctx)
    (closes : Step ctx .endMark d d') :
    d.Of ctx final := by
  refine h.earlier hd ⟨[], ?_⟩
  cases closes with
  | straight live outcome => exact (Build.not_straight (.inr rfl) outcome).elim
  | enter live opens => cases opens
  | leave => exact Array.append_empty.symm

variable {body yes no : List Statement} {code code' : Stack.Run σ Stack.Ending} {type : BlockType}

theorem exists_block (ha : Unwatched (ctx.scope final) count F around) (hd : d.Sound ctx)
    (opens : Step ctx (.block type) d d₁) (hsound : d₂.Sound ctx) (hgrown : Grown d₁ body d₂)
    (h : Simulates ctx final count around d₁ d₂ body code) (closes : Step ctx .endMark d₂ d₃)
    (hof : d₃.Of ctx final) :
    ∃ ss, Grown d ss d₃ ∧
      Simulates ctx final count around d d₃ ss (Stack.Run.enclose type code) := by
  have hd₁ := hd.step opens
  have hof₂ := hof.before_end hsound closes
  obtain ⟨e, hopens, rfl, rfl⟩ := Entry.exists_of_step rfl opens
  obtain ⟨hkind, rfl, hcondition⟩ := hopens.of_block
  obtain ⟨g, f, gpend, ls, temps, label, rfl, rfl, hclosed, -, types⟩ :=
    Entry.exists_end hgrown.inside closes
  have hopened : e.Opened g := Entry.opened_inside.grown hgrown
  have hfinished := hopened.finished gpend
  refine ⟨_, hclosed, simulates_closed ha hd hsound hopened hof hclosed ?_⟩
  rw [Frame.toStatement_block (hfinished.kind.trans hkind), hfinished.label]
  refine Entry.does_block hd hkind hcondition ?_ _
  exact Entry.runs_of_simulates ha Entry.starts_inside hd₁ (by rw [hkind]; rintro ⟨⟩) hof₂
    hgrown types h

theorem exists_loop (ha : Unwatched (ctx.scope final) count F around) (hd : d.Sound ctx)
    (opens : Step ctx (.loop type) d d₁) (hsound : d₂.Sound ctx) (hgrown : Grown d₁ body d₂)
    (h : Simulates ctx final count around d₁ d₂ body code) (closes : Step ctx .endMark d₂ d₃)
    (hof : d₃.Of ctx final) :
    ∃ ss, Grown d ss d₃ ∧ Simulates ctx final count around d d₃ ss
      (Stack.Run.enclose type (Stack.Run.repeatBody type code around.turns)) := by
  have hd₁ := hd.step opens
  have hof₂ := hof.before_end hsound closes
  have hof₁ := hof₂.earlier hd₁ hgrown.inside.temps
  obtain ⟨e, hopens, rfl, rfl⟩ := Entry.exists_of_step rfl opens
  obtain ⟨hkind, rfl, hcondition⟩ := hopens.of_loop
  obtain ⟨g, f, gpend, ls, temps, label, rfl, rfl, hclosed, -, types⟩ :=
    Entry.exists_end hgrown.inside closes
  have hopened : e.Opened g := Entry.opened_inside.grown hgrown
  have hfinished := hopened.finished gpend
  have hbelongs := (hof.belongs hd hclosed).right
  refine ⟨_, hclosed, simulates_closed ha hd hsound hopened hof hclosed ?_⟩
  rw [Frame.toStatement_loop (hfinished.kind.trans hkind), hfinished.label] at hbelongs ⊢
  refine Entry.does_loop ha (hof.earlier hd hclosed.inside.temps) hof₁ hkind hcondition hbelongs ?_
  exact Entry.runs_of_simulates ha Entry.starts_inside hd₁ (by rw [hkind]; rintro ⟨⟩) hof₂
    hgrown types h

/-- An `if` without an `else` has no parameters and no results. -/
theorem exists_choice (ha : Unwatched (ctx.scope final) count F around) (hd : d.Sound ctx)
    (opens : Step ctx (.ifBlock type) d d₁) (hsound : d₂.Sound ctx) (hgrown : Grown d₁ yes d₂)
    (h : Simulates ctx final count around d₁ d₂ yes code) (closes : Step ctx .endMark d₂ d₃)
    (hof : d₃.Of ctx final) :
    ∃ ss, Grown d ss d₃ ∧ Simulates ctx final count around d d₃ ss (do
      let c ← Stack.Run.popI32
      Stack.Run.enclose type (if c ≠ 0 then code else pure .next)) := by
  have hd₁ := hd.step opens
  have hof₂ := hof.before_end hsound closes
  obtain ⟨e, hopens, rfl, rfl⟩ := Entry.exists_of_step rfl opens
  obtain ⟨hkind, rfl, condition, hcondition, isI32⟩ := hopens.of_ifBlock
  obtain ⟨g, f, gpend, ls, temps, label, rfl, rfl, hclosed, arms, types⟩ :=
    Entry.exists_end hgrown.inside closes
  have hopened : e.Opened g := Entry.opened_inside.grown hgrown
  have hfinished := hopened.finished gpend
  have hfirst : (Build.finished g gpend).firstArm = none := by
    rw [Build.firstArm_finished]
    exact (congrArg Frame.firstArm hgrown.frame :)
  -- Without a second arm the parameters would be the results, and the checker wants neither.
  have hnone : g.params = [] ∧ g.results = [] := by
    refine arms ⟨hopened.kind.trans hkind, ?_⟩
    rw [← Build.firstArm_finished g gpend, hfirst]
    rfl
  have hloop : e.kind ≠ .loop := by rw [hkind]; rintro ⟨⟩
  refine ⟨_, hclosed, simulates_closed ha hd hsound hopened hof hclosed ?_⟩
  rw [Frame.toStatement_choice (hfinished.kind.trans hkind)
    (hfinished.condition.trans hcondition) hfirst, hfinished.label]
  refine Entry.does_conditional ha (hof.earlier hd hclosed.inside.temps) hkind hcondition
    isI32 ?_ ?_ _
  · exact Entry.runs_of_simulates ha Entry.starts_inside hd₁ (by rw [hkind]; rintro ⟨⟩) hof₂
      hgrown types h
  · exact Entry.runs_nil hloop (hopened.params.symm.trans hnone.1)
      (hopened.results.symm.trans hnone.2)

theorem exists_conditional (ha : Unwatched (ctx.scope final) count F around) (hd : d.Sound ctx)
    (opens : Step ctx (.ifBlock type) d d₁) (hsound : d₂.Sound ctx) (hgrown : Grown d₁ yes d₂)
    (h : Simulates ctx final count around d₁ d₂ yes code) (turns : Step ctx .elseMark d₂ d₃)
    (hsound' : d₄.Sound ctx) (hgrown' : Grown d₃ no d₄)
    (h' : Simulates ctx final count around d₃ d₄ no code') (closes : Step ctx .endMark d₄ d₅)
    (hof : d₅.Of ctx final) :
    ∃ ss, Grown d ss d₅ ∧ Simulates ctx final count around d d₅ ss (do
      let c ← Stack.Run.popI32
      Stack.Run.enclose type (if c ≠ 0 then code else code')) := by
  have hd₁ := hd.step opens
  have hd₃ := hsound.step turns
  have hof₄ := hof.before_end hsound' closes
  -- The variables of the first arm are among those of the second one, which is built later.
  have hof₂ := hof₄.earlier hsound ((Build.inside_second turns).trans hgrown'.inside).temps
  obtain ⟨e, hopens, rfl, rfl⟩ := Entry.exists_of_step rfl opens
  obtain ⟨hkind, rfl, condition, hcondition, isI32⟩ := hopens.of_ifBlock
  have hloop : e.kind ≠ .loop := by rw [hkind]; rintro ⟨⟩
  have hfunction : e.kind ≠ .function := by rw [hkind]; rintro ⟨⟩
  have hstarts : e.Starts d₃ := Entry.starts_second hloop hgrown turns
  have hinside : Inside e.inside d₄ :=
    (hgrown.inside.trans (Build.inside_second turns)).trans hgrown'.inside
  obtain ⟨g₁, gpend₁, ls₁, temps₁, label₁, rfl, rfl, -, -, types₁⟩ := Build.exists_second turns
  obtain ⟨g, f, gpend, ls, temps, label, rfl, rfl, hclosed, -, types⟩ :=
    Entry.exists_end hinside closes
  -- The frame of the block is kept from one arm to the other, but for its body.
  have hopened₁ : e.Opened (Build.secondArm (Build.finished g₁ gpend₁)) :=
    (Entry.opened_inside.grown hgrown).finished gpend₁
  have hopened : e.Opened g := hopened₁.grown hgrown'
  have hfinished := hopened.finished gpend
  have hfirst :
      (Build.finished g gpend).firstArm = some (Build.finished g₁ gpend₁).body.toList := by
    rw [Build.firstArm_finished]
    exact (congrArg Frame.firstArm hgrown'.frame :)
  refine ⟨_, hclosed, simulates_closed ha hd hsound' hopened hof hclosed ?_⟩
  rw [Frame.toStatement_conditional (hfinished.kind.trans hkind)
    (hfinished.condition.trans hcondition) hfirst, hfinished.label]
  refine Entry.does_conditional ha (hof.earlier hd hclosed.inside.temps) hkind hcondition
    isI32 ?_ ?_ _
  · exact Entry.runs_of_simulates ha Entry.starts_inside hd₁ hfunction hof₂ hgrown types₁ h
  · exact Entry.runs_of_simulates ha hstarts hd₃ hfunction hof₄ hgrown' types h'

/-! ### All code -/

/-- What is built for a piece of code, and then what is built for the code after it. -/
theorem exists_cons (ha : Unwatched (ctx.scope final) count F around) {c : Code} {cs : List Code}
    (hd : d.Sound ctx) (hd₁ : d₁.Sound ctx) (hof : d'.Of ctx final)
    (hfirst : d₁.Of ctx final → ∃ ss, Grown d ss d₁ ∧
      Simulates ctx final count around d d₁ ss (Stack.Run.execute (around.onStack ctx.module) c))
    (hrest : ∃ ss, Grown d₁ ss d' ∧ (¬ d₁.Dead →
      Simulates ctx final count around d₁ d' ss
        (Stack.Run.executeAll (around.onStack ctx.module) cs))) :
    ∃ ss, Grown d ss d' ∧ (¬ d.Dead →
      Simulates ctx final count around d d' ss
        (Stack.Run.executeAll (around.onStack ctx.module) (c :: cs))) := by
  obtain ⟨ts, hts, hrest⟩ := hrest
  have hof₁ := hof.earlier hd₁ hts.inside.temps
  obtain ⟨ss, hss, hfirst⟩ := hfirst hof₁
  exact ⟨_, hss.trans hts, fun _ => simulates_cons ha hd hof₁ hss hfirst hrest⟩

/-- A block with one arm, and then what is built for the code after it. -/
theorem exists_cons_arm (ha : Unwatched (ctx.scope final) count F around) {i : Instruction}
    (hopens : i.opensBlock) {inside cs : List Code} {c : Code} (hd : d.Sound ctx)
    (opens : Step ctx i d d₁) (made : Made ctx inside d₁ d₂) (closes : Step ctx .endMark d₂ d₃)
    (hof : d'.Of ctx final)
    (harm : d₁.layers ≠ [] → d₁.Sound ctx → d₂.Of ctx final → ∃ ss, Grown d₁ ss d₂ ∧ (¬ d₁.Dead →
      Simulates ctx final count around d₁ d₂ ss
        (Stack.Run.executeAll (around.onStack ctx.module) inside)))
    (hblock : ∀ body, d₂.Sound ctx → Grown d₁ body d₂ →
      Simulates ctx final count around d₁ d₂ body
        (Stack.Run.executeAll (around.onStack ctx.module) inside) →
      d₃.Of ctx final →
      ∃ ss, Grown d ss d₃ ∧
        Simulates ctx final count around d d₃ ss (Stack.Run.execute (around.onStack ctx.module) c))
    (hrest : d₃.layers ≠ [] → d₃.Sound ctx → d'.Of ctx final → ∃ ss, Grown d₃ ss d' ∧ (¬ d₃.Dead →
      Simulates ctx final count around d₃ d' ss
        (Stack.Run.executeAll (around.onStack ctx.module) cs))) :
    ∃ ss, Grown d ss d' ∧ (¬ d.Dead →
      Simulates ctx final count around d d' ss
        (Stack.Run.executeAll (around.onStack ctx.module) (c :: cs))) := by
  have hd₁ := hd.step opens
  have hd₂ := hd₁.made made
  have hd₃ := hd₂.step closes
  refine exists_cons ha hd hd₃ hof (fun hof₃ => ?_) (hrest (Build.open_of_step closes) hd₃ hof)
  obtain ⟨body, hgrown, hbody⟩ := harm (Build.open_of_step opens) hd₁ (hof₃.before_end hd₂ closes)
  exact hblock body hd₂ hgrown (hbody (Build.live_of_opens hopens opens)) hof₃

/-- What is built for code does what the code does, up to where the code is not reached any more. -/
theorem exists_simulates (ha : Unwatched (ctx.scope final) count F around) {cs : List Code}
    (h : Made ctx cs d d') (hopen : d.layers ≠ []) (hd : d.Sound ctx) (hof : d'.Of ctx final) :
    ∃ ss, Grown d ss d' ∧ (¬ d.Dead →
      Simulates ctx final count around d d' ss
        (Stack.Run.executeAll (around.onStack ctx.module) cs)) := by
  -- The induction is on the code.  That a draft is of the function goes backwards, from what is
  -- built last.
  induction h with
  | nil d => exact ⟨[], .refl hopen, simulates_nil⟩
  | dead cs unreached => exact ⟨[], .refl hopen, fun hlive => (hlive unreached).elim⟩
  | @plain i cs f pend ls temps label o d sound live outcome rest ih =>
    have hd₁ := hd.step (.straight live outcome)
    refine exists_cons ha hd hd₁ hof (fun hof₁ => ?_) (ih (List.cons_ne_nil _ _) hd₁ hof)
    have hgrown := Build.grown_draft o f pend ls temps label
    exact ⟨_, hgrown,
      simulates_plain ha (hof₁.earlier hd hgrown.inside.temps) hof₁ sound live outcome⟩
  | block opens inside closes rest ihinside ih =>
    exact exists_cons_arm ha rfl hd opens inside closes hof ihinside
      (fun _ hd₂ hgrown hbody hof₃ => exists_block ha hd opens hd₂ hgrown hbody closes hof₃) ih
  | loop opens inside closes rest ihinside ih =>
    exact exists_cons_arm ha rfl hd opens inside closes hof ihinside
      (fun _ hd₂ hgrown hbody hof₃ => exists_loop ha hd opens hd₂ hgrown hbody closes hof₃) ih
  | choice opens inside closes rest ihinside ih =>
    exact exists_cons_arm ha rfl hd opens inside closes hof ihinside
      (fun _ hd₂ hgrown hyes hof₃ => exists_choice ha hd opens hd₂ hgrown hyes closes hof₃) ih
  | conditional opens first turns second closes rest ihfirst ihsecond ih =>
    have hd₁ := hd.step opens
    have hd₂ := hd₁.made first
    have hd₃ := hd₂.step turns
    have hd₄ := hd₃.made second
    have hd₅ := hd₄.step closes
    refine exists_cons ha hd hd₅ hof (fun hof₅ => ?_) (ih (Build.open_of_step closes) hd₅ hof)
    have hof₄ := hof₅.before_end hd₄ closes
    -- The second arm comes first, as it tells that the first one ends in a draft of the function.
    obtain ⟨no, hgrown', hno⟩ := ihsecond (Build.open_of_step turns) hd₃ hof₄
    have hof₂ := hof₄.earlier hd₂ ((Build.inside_second turns).trans hgrown'.inside).temps
    obtain ⟨yes, hgrown, hyes⟩ := ihfirst (Build.open_of_step opens) hd₁ hof₂
    exact exists_conditional ha hd opens hd₂ hgrown (hyes (Build.live_of_opens rfl opens)) turns
      hd₄ hgrown' (hno (Build.live_of_second turns)) closes hof₅

end IR

end WasmScript
