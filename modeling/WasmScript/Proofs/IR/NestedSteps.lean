/-
  WasmScript/Proofs/IR/NestedSteps.lean
  =====================================
  **Steps along nested code** — the chain of steps of a body, block by block.

  `Code.nest` reads the blocks off a flat list of instructions, and the builder finds them
  with its own stack of frames.  `Made` follows the nested code: it says what a draft
  becomes by some code, each block between the step that opens it and the one that closes
  it, and code that is not reached making nothing.  `exists_made_of_build` shows that both
  see the same blocks, so what is proved along the nesting of a body holds of what is built.

  Code only adds statements to the innermost block, changes what is pending there, and marks
  blocks as targets; `Grown` says so.
-/
import WasmScript.Module.Code
import WasmScript.Proofs.IR.Steps
import WasmScript.Proofs.Module.WellFormed

namespace WasmScript

namespace Code.Open

/-- The code before an open block, the last of it first. -/
def before : Open → List Code
  | .block _ code | .loop _ code | .first _ code | .second _ code _ => code

/-- An open block that is closed after some code, the last of it first. -/
def close (code : List Code) : Open → Code
  | .block type _ => .block type code.reverse
  | .loop type _ => .loop type code.reverse
  | .first type _ => .conditional type code.reverse []
  | .second type _ yes => .conditional type yes code.reverse

end Code.Open

namespace Code

variable {rest : List Instruction} {outer : List Open} {code : List Code} {o : Open}

theorem nest_endMark :
    nest (.endMark :: rest) (o :: outer) code = nest rest outer (o.close code :: o.before) := by
  cases o <;> rfl

/-- The block that an instruction opens, after some code. -/
def opened? (code : List Code) : Instruction → Option Open
  | .block type => some (.block type code)
  | .loop type => some (.loop type code)
  | .ifBlock type => some (.first type code)
  | _ => none

theorem before_opened {i : Instruction} (h : opened? code i = some o) : o.before = code := by
  cases i <;> cases h <;> rfl

theorem nest_opens {i : Instruction} (h : opened? code i = some o) :
    nest (i :: rest) outer code = nest rest (o :: outer) [] := by
  cases i <;> cases h <;> rfl

theorem opensBlock_iff {i : Instruction} : i.opensBlock ↔ (opened? code i).isSome := by
  cases i <;> simp [Instruction.opensBlock, opened?]

theorem nest_plain {i : Instruction} (hopens : ¬ i.opensBlock) (hcloses : ¬ i.closesBlock) :
    nest (i :: rest) outer code = nest rest outer (.plain i :: code) := by
  cases i <;> first | rfl | exact (hopens rfl).elim | exact (hcloses rfl).elim

end Code

namespace IR

/-! ### What code leaves as it is -/

namespace Frame

/-- An open block without the marks that later code may change. -/
def bare (f : Frame) : Frame := { f with unreachable := false, targeted := false }

@[simp] theorem bare_mark (f : Frame) (targeted : Bool) : (f.mark targeted).bare = f.bare := rfl

@[simp] theorem bare_dead (f : Frame) : f.dead.bare = f.bare := rfl

@[simp] theorem bare_add (f : Frame) (ss : List Statement) : (f.add ss).bare = f.bare.add ss := rfl

end Frame

/-- An open block with its operands, but without marks. -/
def Layer.bare (l : Layer) : Layer := { l with frame := l.frame.bare }

@[simp] theorem Layer.map_bare_target (targets : Nat → Bool) (ls : List Layer) :
    (Layer.target targets ls).map Layer.bare = ls.map Layer.bare := by
  induction ls generalizing targets with
  | nil => rfl
  | cons l ls ih =>
    rw [Layer.target, List.map_cons, List.map_cons, ih]
    rfl

/-- A draft, some more statements in its innermost block, and what it has become by them. -/
inductive Grown : Draft → List Statement → Draft → Prop
  | mk {f f' : Frame} {pend pend' : List Expression} {ls ls' : List Layer} {temps : Array Temp}
      {label label' : Nat} {ss : List Statement} (ts : List Temp) (frame : f'.bare = f.bare.add ss)
      (around : ls'.map Layer.bare = ls.map Layer.bare) :
      Grown ⟨⟨f, pend⟩ :: ls, temps, label⟩ ss ⟨⟨f', pend'⟩ :: ls', temps ++ ts.toArray, label'⟩

theorem append_temps (temps : Array Temp) (ts us : List Temp) :
    temps ++ ts.toArray ++ us.toArray = temps ++ (ts ++ us).toArray := by simp

/-- A draft and what it has become without leaving its innermost block. -/
structure Inside (d d' : Draft) : Prop where
  around : d'.layers.tail.map Layer.bare = d.layers.tail.map Layer.bare
  temps : ∃ ts : List Temp, d'.temps = d.temps ++ ts.toArray

theorem Inside.trans {d d' d'' : Draft} (h : Inside d d') (h' : Inside d' d'') : Inside d d'' := by
  obtain ⟨ts, hts⟩ := h.temps
  obtain ⟨us, hus⟩ := h'.temps
  refine ⟨h'.around.trans h.around, ts ++ us, ?_⟩
  rw [hus, hts, append_temps]

namespace Grown

variable {d d' d'' : Draft} {ss ts : List Statement}

theorem refl (hopen : d.layers ≠ []) : Grown d [] d := by
  obtain ⟨layers, temps, label⟩ := d
  cases layers with
  | nil => exact (hopen rfl).elim
  | cons l ls =>
    have hgrown :
        Grown ⟨l :: ls, temps, label⟩ [] ⟨l :: ls, temps ++ ([] : List Temp).toArray, label⟩ :=
      .mk [] l.frame.bare.add_nil.symm rfl
    have hnone : temps ++ ([] : List Temp).toArray = temps := Array.append_empty
    rwa [hnone] at hgrown

theorem trans (h : Grown d ss d') (h' : Grown d' ts d'') : Grown d (ss ++ ts) d'' := by
  cases h with
  | mk us frame around =>
    cases h' with
    | mk us' frame' around' =>
      rw [append_temps]
      refine .mk (us ++ us') ?_ (around'.trans around)
      rw [frame', frame, Frame.add_add]

theorem inside (h : Grown d ss d') : Inside d d' := by
  cases h with
  | mk ts frame around => exact ⟨around, ts, rfl⟩

theorem length (h : Grown d ss d') : d'.layers.length = d.layers.length := by
  cases h with
  | mk us frame around =>
    have hlength := congrArg List.length around
    rw [List.length_map, List.length_map] at hlength
    exact congrArg Nat.succ hlength

theorem frame {f g : Frame} {pend pend' : List Expression} {ls ls' : List Layer}
    {temps temps' : Array Temp} {label label' : Nat}
    (h : Grown ⟨⟨f, pend⟩ :: ls, temps, label⟩ ss ⟨⟨g, pend'⟩ :: ls', temps', label'⟩) :
    g.bare = f.bare.add ss := by
  cases h with
  | mk us frame around => exact frame

end Grown

/-- Whether what follows in the innermost block of a draft is never reached. -/
def Draft.Dead (d : Draft) : Prop := ∀ l ∈ d.layers.head?, l.frame.unreachable = true

namespace Build

variable {ctx : Context} {d d' d₁ d₂ d₃ : Draft} {i : Instruction} {c : Code} {cs cs' : List Code}

/-- What a draft becomes by nested code.  Code that is not reached makes nothing of it. -/
inductive Made (ctx : Context) : List Code → Draft → Draft → Prop
  | nil (d : Draft) : Made ctx [] d d
  | dead {d : Draft} (cs : List Code) (unreached : d.Dead) : Made ctx cs d d
  | plain {i : Instruction} {cs : List Code} {f : Frame} {pend : List Expression} {ls : List Layer}
      {temps : Array Temp} {label : Nat} {o : Outcome} {d : Draft}
      (sound : i.WellFormed ctx.module.functionCount) (live : f.unreachable = false)
      (outcome : Straight ctx (f :: ls.map Layer.frame) temps.size i pend o)
      (rest : Made ctx cs (o.draft f ls temps label) d) :
      Made ctx (.plain i :: cs) ⟨⟨f, pend⟩ :: ls, temps, label⟩ d
  | block {type : BlockType} {body cs : List Code} {d d₁ d₂ d₃ d' : Draft}
      (opens : Step ctx (.block type) d d₁) (inside : Made ctx body d₁ d₂)
      (closes : Step ctx .endMark d₂ d₃) (rest : Made ctx cs d₃ d') :
      Made ctx (.block type body :: cs) d d'
  | loop {type : BlockType} {body cs : List Code} {d d₁ d₂ d₃ d' : Draft}
      (opens : Step ctx (.loop type) d d₁) (inside : Made ctx body d₁ d₂)
      (closes : Step ctx .endMark d₂ d₃) (rest : Made ctx cs d₃ d') :
      Made ctx (.loop type body :: cs) d d'
  /-- An `if` without an `else`. -/
  | choice {type : BlockType} {yes cs : List Code} {d d₁ d₂ d₃ d' : Draft}
      (opens : Step ctx (.ifBlock type) d d₁) (inside : Made ctx yes d₁ d₂)
      (closes : Step ctx .endMark d₂ d₃) (rest : Made ctx cs d₃ d') :
      Made ctx (.conditional type yes [] :: cs) d d'
  | conditional {type : BlockType} {yes no cs : List Code} {d d₁ d₂ d₃ d₄ d₅ d' : Draft}
      (opens : Step ctx (.ifBlock type) d d₁) (first : Made ctx yes d₁ d₂)
      (turns : Step ctx .elseMark d₂ d₃) (second : Made ctx no d₃ d₄)
      (closes : Step ctx .endMark d₄ d₅) (rest : Made ctx cs d₅ d') :
      Made ctx (.conditional type yes no :: cs) d d'

/-! ### Single steps -/

/-- An instruction that opens or closes a block does not stay in one. -/
theorem not_straight {fs : List Frame} {first : Nat} {pend : List Expression} {o : Outcome}
    (hi : i.opensBlock ∨ i.closesBlock) : ¬ Straight ctx fs first i pend o := by
  intro h
  cases h with
  | work signature =>
    cases i with
    | block | loop | ifBlock | elseMark | endMark => cases signature
    | _ => rcases hi with hi | hi <;> cases hi
  | _ => rcases hi with hi | hi <;> cases hi

/-- What an instruction adds to the innermost block. -/
theorem grown_draft (o : Outcome) (f : Frame) (pend : List Expression) (ls : List Layer)
    (temps : Array Temp) (label : Nat) :
    Grown ⟨⟨f, pend⟩ :: ls, temps, label⟩ o.statements (o.draft f ls temps label) := by
  refine .mk o.temps ?_ (Layer.map_bare_target _ ls)
  rw [Frame.bare_mark, Outcome.layer]
  dsimp only
  split <;> rfl

/-- What opens a block settles what is pending and takes the parameters. -/
theorem exists_enter (hopens : i.opensBlock) (h : Step ctx i d d') :
    ∃ kind type condition f pend rest params ls temps label, Opens i kind type condition ∧
      f.unreachable = false ∧ (settling (Array.size temps) pend).operands = rest ++ params ∧
      params.map Expression.type = type.params ∧
      d = ⟨⟨f, pend ++ condition.toList⟩ :: ls, temps, label⟩ ∧
      d' = (opening kind type condition params (Layer.stack (⟨f, rest⟩ :: ls)).length label
        (temps ++ (settling temps.size pend).temps.toArray)).draft
          (f.add (settling temps.size pend).statements) rest ls label := by
  cases h with
  | straight live outcome => exact (not_straight (.inl hopens) outcome).elim
  | enter live opens operands types =>
    exact ⟨_, _, _, _, _, _, _, _, _, _, opens, live, operands, types, rfl, rfl⟩
  | second | leave => cases hopens

/-- What there is before and after the `end` of the innermost block. -/
theorem exists_leave {l₀ l : Layer} {ls : List Layer} {temps : Array Temp} {label : Nat}
    (inside : Inside ⟨l₀ :: l :: ls, temps, label⟩ d) (closes : Step ctx .endMark d d') :
    ∃ g pend f ls' label' ts,
      d = ⟨⟨g, pend⟩ :: ⟨f, l.pend⟩ :: ls', temps ++ List.toArray ts, label'⟩ ∧
      d' = ⟨resumed ⟨f, l.pend⟩ (finished g pend) :: ls', temps ++ List.toArray ts, label'⟩ ∧
      f.bare = l.frame.bare ∧ ls'.map Layer.bare = ls.map Layer.bare ∧
      (g.kind = .conditional ∧ g.firstArm.isNone → g.params = [] ∧ g.results = []) ∧
      (g.unreachable = false → pend.map Expression.type = g.results) := by
  cases closes with
  | straight live outcome => exact (not_straight (.inr rfl) outcome).elim
  | enter live opens => cases opens
  | @leave g pend l' ls' temps label' kind arms types =>
    obtain ⟨around, ts, rfl⟩ := inside
    obtain ⟨f, pend'⟩ := l'
    obtain ⟨hl, hls⟩ := List.cons_eq_cons.mp around
    obtain ⟨hframe, hpend⟩ := Layer.mk.inj hl
    obtain rfl : pend' = l.pend := hpend
    exact ⟨g, pend, f, ls', label', ts, rfl, rfl, hframe, hls, arms, types⟩

/-- What there is before and after an `else`. -/
theorem exists_second (turns : Step ctx .elseMark d d') :
    ∃ g pend ls temps label, d = ⟨⟨g, pend⟩ :: ls, temps, label⟩ ∧
      d' = ⟨⟨secondArm (finished g pend), g.paramValues⟩ :: ls, temps, label⟩ ∧
      g.kind = .conditional ∧ g.firstArm = none ∧
      (g.unreachable = false → pend.map Expression.type = g.results) := by
  cases turns with
  | straight live outcome => exact (not_straight (.inr rfl) outcome).elim
  | enter live opens => cases opens
  | second kind first types => exact ⟨_, _, _, _, _, rfl, rfl, kind, first, types⟩

theorem inside_second (turns : Step ctx .elseMark d d') : Inside d d' := by
  obtain ⟨g, pend, ls, temps, label, rfl, rfl, -⟩ := exists_second turns
  exact ⟨rfl, [], Array.append_empty.symm⟩

theorem bare_resumed (l : Layer) (g : Frame) :
    (resumed l g).frame.bare = l.frame.bare.add [g.toStatement] := by
  unfold resumed
  dsimp only
  split <;> rfl

theorem exists_temps_opening (kind : FrameKind) (type : BlockType) (condition : Option Expression)
    (params : List Expression) (height label : Nat) (temps : Array Temp) :
    ∃ ts : List Temp, (opening kind type condition params height label temps).temps =
      temps ++ ts.toArray := by
  let results := freshTemps .slot temps.size type.results
  let carried := if kind = .loop then type.params else []
  refine ⟨results ++ freshTemps .slot (temps ++ results.toArray).size carried, ?_⟩
  rw [← List.append_toArray, ← Array.append_assoc]
  rfl

theorem open_of_step (h : Step ctx i d d') : d'.layers ≠ [] := by
  cases h <;> exact List.cons_ne_nil _ _

/-- A block that is opened and closed adds statements to the one around it. -/
theorem grown_closed {kind : FrameKind} {type : BlockType} {condition : Option Expression}
    {params rest : List Expression} {height label label' : Nat} {f f' g : Frame}
    {ls ls' : List Layer} {temps : Array Temp} {ss : List Statement} {ts us : List Temp}
    (es : List Expression) (hframe : f'.bare = ((f.add ss).add
      (opening kind type condition params height label (temps ++ ts.toArray)).before).bare)
    (hls : ls'.map Layer.bare = ls.map Layer.bare) :
    Grown ⟨⟨f, es⟩ :: ls, temps, label⟩
      (ss ++ (opening kind type condition params height label (temps ++ ts.toArray)).before ++
        [g.toStatement])
      ⟨resumed ⟨f', rest⟩ g :: ls',
        (opening kind type condition params height label (temps ++ ts.toArray)).temps ++ us.toArray,
          label'⟩ := by
  obtain ⟨vs, hvs⟩ :=
  exists_temps_opening kind type condition params height label (temps ++ ts.toArray)
  have hresumed := bare_resumed ⟨f', rest⟩ g
  generalize resumed ⟨f', rest⟩ g = l at hresumed
  rw [hvs, append_temps, append_temps]
  refine .mk _ ?_ hls
  rw [hresumed, hframe]
  simp only [Frame.bare_add, Frame.add_add]

theorem grown_block (hopens : i.opensBlock) (opens : Step ctx i d d₁) (inside : Inside d₁ d₂)
    (closes : Step ctx .endMark d₂ d₃) : ∃ ss, Grown d ss d₃ := by
  obtain ⟨kind, type, condition, f, pend, rest, params, ls, temps, label, -, -, -, -, rfl, rfl⟩ :=
    exists_enter hopens opens
  obtain ⟨g, gpend, f', ls', label', ts, -, rfl, hframe, hls, -⟩ := exists_leave inside closes
  exact ⟨_, grown_closed _ hframe hls⟩

/-! ### Chains along the nesting -/

namespace Made

/-- After the end of what can be reached, nothing is made. -/
theorem of_dead (h : Made ctx cs d d') (hdead : d.Dead) : d' = d := by
  have hopened {i : Instruction} {d' : Draft} (hi : i.opensBlock) (hstep : Step ctx i d d') :
      False := by
    obtain ⟨kind, type, condition, f, pend, rest, params, ls, temps, label, -, hlive, -,
        -, rfl, -⟩ :=
      exists_enter hi hstep
    exact Bool.false_ne_true (hlive.symm.trans (hdead _ rfl))
  cases h with
  | nil | dead => rfl
  | plain sound live outcome rest => exact absurd (live.symm.trans (hdead _ rfl)) Bool.false_ne_true
  | block opens | loop opens | choice opens | conditional opens => exact (hopened rfl opens).elim

theorem append (h : Made ctx cs d d') (h' : Made ctx cs' d' d₁) : Made ctx (cs ++ cs') d d₁ := by
  induction h with
  | nil d => exact h'
  | dead cs unreached =>
    rw [h'.of_dead unreached]
    exact .dead _ unreached
  | plain sound live outcome rest ih => exact .plain sound live outcome (ih h')
  | block opens inside closes rest _ ih => exact .block opens inside closes (ih h')
  | loop opens inside closes rest _ ih => exact .loop opens inside closes (ih h')
  | choice opens inside closes rest _ ih => exact .choice opens inside closes (ih h')
  | conditional opens first turns second closes rest _ _ ih =>
    exact .conditional opens first turns second closes (ih h')

/-- Code that comes after what can be reached makes nothing. -/
theorem skip (h : Made ctx cs d d') (hdead : d'.Dead) (c : Code) : Made ctx (cs ++ [c]) d d' :=
  h.append (.dead [c] hdead)

/-- Code adds statements to the innermost block. -/
theorem grown (h : Made ctx cs d d') (hopen : d.layers ≠ []) : ∃ ss, Grown d ss d' := by
  -- A block first grows its own frame, and then what is made of that goes to the frame around it.
  induction h with
  | nil | dead => exact ⟨[], .refl hopen⟩
  | @plain i cs f pend ls temps label o d sound live outcome rest ih =>
    obtain ⟨ss, hss⟩ := ih (List.cons_ne_nil _ _)
    exact ⟨_, (grown_draft o f pend ls temps label).trans hss⟩
  | block opens inside closes rest ihinside ih | loop opens inside closes rest ihinside ih
  | choice opens inside closes rest ihinside ih =>
    obtain ⟨_, hinside⟩ := ihinside (open_of_step opens)
    obtain ⟨_, hblock⟩ := grown_block rfl opens hinside.inside closes
    obtain ⟨_, hrest⟩ := ih (open_of_step closes)
    exact ⟨_, hblock.trans hrest⟩
  | conditional opens first turns second closes rest ihfirst ihsecond ih =>
    obtain ⟨_, hfirst⟩ := ihfirst (open_of_step opens)
    obtain ⟨_, hsecond⟩ := ihsecond (open_of_step turns)
    have harms := (hfirst.inside.trans (inside_second turns)).trans hsecond.inside
    obtain ⟨_, hblock⟩ := grown_block rfl opens harms closes
    obtain ⟨_, hrest⟩ := ih (open_of_step closes)
    exact ⟨_, hblock.trans hrest⟩

end Made

/-! ### The code of a body -/

/-- A block that was opened in a draft, and the draft in which the code inside it starts. -/
inductive Begun (ctx : Context) : Code.Open → Draft → Draft → Prop
  | block {type : BlockType} {before : List Code} {d d' : Draft}
    (opens : Step ctx (.block type) d d') :
      Begun ctx (.block type before) d d'
  | loop {type : BlockType} {before : List Code} {d d' : Draft}
      (opens : Step ctx (.loop type) d d') :
      Begun ctx (.loop type before) d d'
  | first {type : BlockType} {before : List Code} {d d' : Draft}
      (opens : Step ctx (.ifBlock type) d d') :
      Begun ctx (.first type before) d d'
  | second {type : BlockType} {before yes : List Code} {d d' d₁ d₂ : Draft}
      (opens : Step ctx (.ifBlock type) d d₁) (first : Made ctx yes d₁ d₂)
        (turns : Step ctx .elseMark d₂ d') :
      Begun ctx (.second type before yes) d d'

namespace Begun

variable {o : Code.Open} {code : List Code}

theorem of_opened (h : Code.opened? code i = some o) (hstep : Step ctx i d d') :
    Begun ctx o d d' := by
  cases i <;> cases h
  · exact .block hstep
  · exact .loop hstep
  · exact .first hstep

/-- A block is made once it is closed. -/
theorem close (h : Begun ctx o d d₁) (hinside : Made ctx code.reverse d₁ d₂)
    (closes : Step ctx .endMark d₂ d₃) : Made ctx [o.close code] d d₃ := by
  cases h with
  | block opens => exact .block opens hinside closes (.nil d₃)
  | loop opens => exact .loop opens hinside closes (.nil d₃)
  | first opens => exact .choice opens hinside closes (.nil d₃)
  | second opens first turns => exact .conditional opens first turns hinside closes (.nil d₃)

theorem length (h : Begun ctx o d d₁) : d₁.layers.length = d.layers.length + 1 := by
  have hopened {i : Instruction} {d₁ : Draft} (hi : i.opensBlock) (hstep : Step ctx i d d₁) :
      d₁.layers.length = d.layers.length + 1 := by
    obtain ⟨kind, type, condition, f, pend, rest, params, ls, temps, label, -, -, -, -, rfl, rfl⟩ :=
      exists_enter hi hstep
    rfl
  cases h with
  | block opens | loop opens | first opens => exact hopened rfl opens
  | second opens first turns =>
    obtain ⟨_, hfirst⟩ := first.grown (open_of_step opens)
    obtain ⟨g, pend, ls, temps, label, rfl, rfl, -⟩ := exists_second turns
    exact hfirst.length.trans (hopened rfl opens)

end Begun

/-- Where a build stands after some code, which is written down from the last to the first, inside
some blocks.  The innermost `skipped` of these are not reached. -/
inductive BuiltTo (ctx : Context) (start : Draft) :
    List Code.Open → List Code → (skipped : Nat) → Draft → Prop
  | root {code : List Code} {d : Draft} (made : Made ctx code.reverse start d) :
  BuiltTo ctx start [] code 0 d
  | inside {o : Code.Open} {outer : List Code.Open} {code : List Code} {d d₁ d₂ : Draft}
      (before : BuiltTo ctx start outer o.before 0 d₁) (begun : Begun ctx o d₁ d₂)
      (made : Made ctx code.reverse d₂ d) : BuiltTo ctx start (o :: outer) code 0 d
  | skipped {o : Code.Open} {outer : List Code.Open} {code : List Code} {skipped : Nat} {d : Draft}
      (before : BuiltTo ctx start outer o.before skipped d) (dead : d.Dead) :
      BuiltTo ctx start (o :: outer) code (skipped + 1) d

namespace BuiltTo

variable {start : Draft} {o : Code.Open} {outer : List Code.Open} {code : List Code} {skipped : Nat}

/-- More code in the innermost block. -/
theorem extend (h : BuiltTo ctx start outer code 0 d) (hmade : Made ctx [c] d d') :
    BuiltTo ctx start outer (c :: code) 0 d' := by
  cases h with
  | root made => exact .root (by rw [List.reverse_cons]; exact made.append hmade)
  | inside before begun made =>
    exact .inside before begun (by rw [List.reverse_cons]; exact made.append hmade)

/-- Code that is not reached. -/
theorem skip (h : BuiltTo ctx start outer code skipped d) (hdead : d.Dead) (c : Code) :
    BuiltTo ctx start outer (c :: code) skipped d := by
  cases h with
  | root made => exact .root (by rw [List.reverse_cons]; exact made.skip hdead c)
  | inside before begun made =>
    exact .inside before begun (by rw [List.reverse_cons]; exact made.skip hdead c)
  | skipped before dead => exact .skipped before dead

theorem skipped_eq_zero (h : BuiltTo ctx start outer code skipped d) (hlive : ¬ d.Dead) :
    skipped = 0 := by
  cases h with
  | root | inside => rfl
  | skipped before dead => exact (hlive dead).elim

theorem length (hstart : start.layers.length = 1) (h : BuiltTo ctx start outer code 0 d) :
    d.layers.length = outer.length + 1 := by
  generalize hzero : 0 = n at h
  induction h with
  | root made =>
    obtain ⟨_, hgrown⟩ := made.grown (by rintro hnil; rw [hnil] at hstart; cases hstart)
    exact hgrown.length.trans hstart
  | inside before begun made ih =>
    have hlength := begun.length
    obtain ⟨_, hgrown⟩ := made.grown (by rintro hnil; rw [hnil] at hlength; cases hlength)
    rw [hgrown.length, hlength, ih rfl, List.length_cons]
  | skipped => cases hzero

/-- An instruction that opens a block. -/
theorem opens (h : BuiltTo ctx start outer code 0 d) (hopens : Code.opened? code i = some o)
    (hstep : Step ctx i d d') : BuiltTo ctx start (o :: outer) [] 0 d' :=
  .inside (by rwa [Code.before_opened hopens]) (.of_opened hopens hstep) (.nil d')

/-- An `else` starts the second arm of an `if` that has none yet. -/
theorem turns {type : FunctionType} (h : BuiltTo ctx (Draft.start type) outer code 0 d)
    (hstep : Step ctx .elseMark d d') : ∃ type' before rest, outer = .first type' before :: rest ∧
      BuiltTo ctx (Draft.start type) (.second type' before code.reverse :: rest) [] 0 d' := by
  obtain ⟨g, pend, ls, temps, label, hd, -, hkind, hfirst, -⟩ := exists_second hstep
  have hopened {i : Instruction} {d₁ d₂ : Draft} {ss : List Statement} (hi : i.opensBlock)
      (opens : Step ctx i d₁ d₂) (hgrown : Grown d₂ ss d) : ∃ type, i = .ifBlock type := by
    obtain ⟨kind, type, condition, f, pend, rest, params, ls, temps, label, hopens, -, -, -,
        rfl, rfl⟩ :=
      exists_enter hi opens
    rw [hd, Opening.draft] at hgrown
    have hsame : g.kind = kind := congrArg Frame.kind hgrown.frame
    rw [hkind] at hsame
    cases hopens with
    | block | loop => cases hsame
    | ifBlock type => exact ⟨type, rfl⟩
  -- The innermost block is an `if` without a second arm, which leaves one of the ways to stand in a
  -- draft.
  cases h with
  | root made =>
    obtain ⟨_, hgrown⟩ := made.grown (List.cons_ne_nil _ _)
    rw [hd, Draft.start] at hgrown
    have hsame : g.kind = .function := congrArg Frame.kind hgrown.frame
    rw [hkind] at hsame
    cases hsame
  | inside before begun made =>
    cases begun with
    | block opens | loop opens =>
      obtain ⟨_, hgrown⟩ := made.grown (open_of_step opens)
      obtain ⟨_, hi⟩ := hopened rfl opens hgrown
      cases hi
    | first opens =>
      exact ⟨_, _, _, rfl, .inside before (.second opens made hstep) (.nil d')⟩
    | second opens first turns =>
      obtain ⟨_, hgrown⟩ := made.grown (open_of_step turns)
      obtain ⟨g', pend', ls', temps', label', -, rfl, -⟩ := exists_second turns
      rw [hd] at hgrown
      have hsome : g.firstArm = some (finished g' pend').body.toList :=
        congrArg Frame.firstArm hgrown.frame
      rw [hfirst] at hsome
      cases hsome

/-- An `end` that leaves a block closes the innermost one. -/
theorem ends {type : FunctionType} (h : BuiltTo ctx (Draft.start type) outer code 0 d)
    (hstep : Step ctx .endMark d d') : ∃ o rest, outer = o :: rest ∧
      BuiltTo ctx (Draft.start type) rest (o.close code :: o.before) 0 d' := by
  have hlength := h.length rfl
  cases h with
  | root made =>
    cases hstep with
    | straight live outcome => exact (not_straight (.inr rfl) outcome).elim
    | enter live opens => cases opens
    | leave => cases hlength
  | inside before begun made => exact ⟨_, _, rfl, before.extend (begun.close made hstep)⟩

/-- Any other instruction stays in its block. -/
theorem stays (h : BuiltTo ctx start outer code 0 d) (hopens : ¬ i.opensBlock)
    (hcloses : ¬ i.closesBlock) (hsound : i.WellFormed ctx.module.functionCount)
    (hstep : Step ctx i d d') :
    BuiltTo ctx start outer (.plain i :: code) 0 d' := by
  cases hstep with
  | straight live outcome => exact h.extend (.plain hsound live outcome (.nil _))
  | enter live opens => cases opens <;> exact (hopens rfl).elim
  | second | leave => exact (hcloses rfl).elim

/-- An instruction that is passed over leaves the build where it is. -/
theorem passed {s : Nat} (h : BuiltTo ctx start outer code skipped d) (hdead : d.Dead)
    (hpassed : Passed i skipped s) :
    ∃ outer' code', BuiltTo ctx start outer' code' s d ∧
      ∀ next, Code.nest (i :: next) outer code = Code.nest next outer' code' := by
  cases hpassed with
  | opens opens =>
    obtain ⟨o, ho⟩ := Option.isSome_iff_exists.mp (Code.opensBlock_iff.mp opens)
    exact ⟨o :: outer, [], .skipped (by rwa [Code.before_opened ho]) hdead, fun _ =>
      Code.nest_opens ho⟩
  | ends =>
    cases h with
    | skipped before dead => exact ⟨_, _, before.skip dead _, fun _ => Code.nest_endMark⟩
  | stays opens ends turns =>
    by_cases helse : i = .elseMark
    · subst helse
      cases h with
      | root | inside => exact absurd (turns rfl) (lt_irrefl 0)
      | @skipped o _ _ _ _ before dead =>
        cases o with
        | first type' before' =>
          exact ⟨.second type' before' code.reverse :: _, [], .skipped before dead, fun _ => rfl⟩
        | _ => exact ⟨_, .plain .elseMark :: code, .skipped before dead, fun _ => rfl⟩
    · exact ⟨_, _, h.skip hdead _, fun _ =>
        Code.nest_plain (Bool.eq_false_iff.mp opens) (Instruction.not_closesBlock ends helse)⟩

/-- An instruction that is built takes the build further, in the block where its code is. -/
theorem built {type : FunctionType} (h : BuiltTo ctx (Draft.start type) outer code 0 d)
    (hsound : i.WellFormed ctx.module.functionCount) (hstep : Step ctx i d d') :
    ∃ outer' code', BuiltTo ctx (Draft.start type) outer' code' 0 d' ∧
      ∀ next, Code.nest (i :: next) outer code = Code.nest next outer' code' := by
  by_cases hopens : i.opensBlock
  · obtain ⟨o, ho⟩ := Option.isSome_iff_exists.mp (Code.opensBlock_iff.mp hopens)
    exact ⟨_, _, h.opens ho hstep, fun _ => Code.nest_opens ho⟩
  by_cases helse : i = .elseMark
  · subst helse
    obtain ⟨type', before, rest, rfl, hturned⟩ := h.turns hstep
    exact ⟨_, _, hturned, fun _ => rfl⟩
  by_cases hend : i = .endMark
  · subst hend
    obtain ⟨o, rest, rfl, hended⟩ := h.ends hstep
    exact ⟨_, _, hended, fun _ => Code.nest_endMark⟩
  · have hcloses := Instruction.not_closesBlock hend helse
    exact ⟨_, _, h.stays hopens hcloses hsound hstep, fun _ => Code.nest_plain hopens hcloses⟩

end BuiltTo

/-- A body that is built is made along its nesting. -/
theorem exists_made_of_ok {b : Builder} {body : List Statement} {type : FunctionType}
    (next : List Located) :
    ∀ (outer : List Code.Open) (code : List Code) (skipped pos : Nat) (d : Draft),
      (∀ l ∈ next, l.instruction.WellFormed ctx.module.functionCount) →
      BuiltTo ctx (Draft.start type) outer code skipped d → Stacked d.layers →
      instructions ctx next skipped (d.builder pos) = .ok (body, b) →
      ∃ nested f pend, Code.nest (next.map Located.instruction) outer code = some nested
        ∧ Made ctx nested (Draft.start type) ⟨[⟨f, pend⟩], b.temps, b.nextLabel⟩ ∧
          f.kind = .function
        ∧ (f.unreachable = false → pend.map Expression.type = f.results) ∧
          body = finishedBody f pend := by
  -- The induction is on the code that is left, with the draft that the code before it has led to.
  induction next with
  | nil =>
    intro outer code skipped pos d _ _ _ h
    cases h
  | cons next rest ih =>
    intro outer code skipped pos d hwell hbuilt hs h
    obtain ⟨hnext, hrest⟩ := List.forall_mem_cons.mp hwell
    obtain ⟨layers, temps, label⟩ := d
    cases layers with
    | nil =>
      obtain ⟨f, b₁, hframe, -⟩ := bind_ok h
      cases hframe
    | cons l ls =>
      obtain ⟨f, pend⟩ := l
      rw [List.map_cons]
      rcases instructions_ok rfl h with ⟨s, hpasses, h⟩ | ⟨hkept, h⟩
      · obtain ⟨hdead, hpassed⟩ := passed_of_passes hpasses
        have hdead : Draft.Dead ⟨⟨f, pend⟩ :: ls, temps, label⟩ := by
          rintro _ ⟨⟩
          exact hdead
        obtain ⟨outer', code', hbuilt', hnest⟩ := hbuilt.passed hdead hpassed
        rw [hnest]
        exact ih outer' code' s pos _ hrest hbuilt' hs h
      have hlive (hdead : f.unreachable = true) : next.instruction.closesBlock :=
        (closes_of_not_passes hkept hdead).2
      obtain rfl : skipped = 0 := by
        refine skipped_of_not_passes hkept ?_
        cases hf : f.unreachable with
        | true => exact .inr rfl
        | false =>
          exact .inl
            (hbuilt.skipped_eq_zero fun hdead => Bool.false_ne_true (hf.symm.trans (hdead _ rfl)))
      rcases h with ⟨b₁, hmade, hlater⟩ | ⟨hend, rfl, hmade⟩
      · obtain ⟨d', hstep, rfl, hs'⟩ := instruction_of_ok hs hlive hmade
        obtain ⟨outer', code', hbuilt', hnest⟩ := hbuilt.built hnext hstep
        rw [hnest]
        exact ih outer' code' 0 next.pos d' hrest hbuilt' hs' hlater
      · obtain ⟨f', pend', hd, hends⟩ := instruction_of_ok hs hlive hmade
        rw [hd] at hbuilt
        have hlength := hbuilt.length rfl
        rw [hend]
        cases hbuilt with
        | root made => exact ⟨_, f', pend', rfl, made, hends⟩
        | inside => cases hlength

end Build

open Build

/-- A function that is built is made along the code of its body. -/
theorem exists_made_of_build {m : Module} {index : Nat} {fn : Function}
    (hwell : ∀ b ∈ m.bodies, b.WellFormed m.functionCount) (h : buildFunction m index = .ok fn) :
    ∃ (type : FunctionType) (body : Body) (code : List Code) (f : Frame) (pend : List Expression)
      (temps : Array Temp) (label : Nat),
      m.functionType? index = some type ∧ m.bodies[index - m.imports.size]? = some body
      ∧ Code.ofBody? body = some code
      ∧ Made ⟨m, index, fn.name, type, type.params.toArray ++ body.locals⟩ code (Draft.start type)
          ⟨[⟨f, pend⟩], temps, label⟩
      ∧ f.kind = .function ∧ (f.unreachable = false → pend.map Expression.type = f.results)
      ∧ fn = { fn with
          index
          params := type.params
          results := type.results
          locals := body.locals.toList
          temps := temps.toList
          body := finishedBody f pend } := by
  obtain ⟨type, body, ss, b, -, hbody, htype, hrun, hfn⟩ := exists_run_of_build h
  obtain ⟨code, f, pend, hcode, hmade, hkind, htypes, rfl⟩ :=
    exists_made_of_ok _ [] [] 0 _ (Draft.start type)
        (hwell body (Array.mem_of_getElem? hbody)).instructions
      (.root (.nil _)) (Draft.stacked_start type) hrun
  exact ⟨type, body, code, f, pend, _, _, htype, hbody, hcode, hmade, hkind, htypes, hfn⟩

end IR

end WasmScript
