/-
  WasmScript/Proofs/IR/Reach.lean
  ===============================
  **Reached instructions** — where control may get in a body, by its blocks and branches alone.

  `pass` goes through a flat list of instructions and keeps, for each open block, whether it
  was entered, whether what comes next in it is reached, and what is needed to tell whether
  control goes on after it.  Blocks that are opened where control does not get are open
  blocks like others, only not entered.

  A builder leaves such blocks out and counts them instead, up to the `else` or `end` that
  belongs to the block around them.  `Follows` relates the two, and each instruction that is
  skipped or built keeps it: so the counter finds the same `else` and `end` as the nesting.
-/
import WasmScript.Proofs.IR.Steps

namespace WasmScript

def Located.plain (is : List Located) : List Instruction := is.map Located.instruction

namespace Reach

/-! ### Open blocks -/

/-- What control has to do with an open block. -/
structure Level where
  kind : IR.FrameKind
  /-- Whether the block is entered at all. -/
  entered : Bool := true
  /-- Whether what comes next in it is reached. -/
  live : Bool := true
  /-- Whether a branch that is reached leads to it. -/
  targeted : Bool := false
  /-- Once the second arm has started, whether the end of the first one is reached. -/
  firstEnds : Option Bool := none
deriving DecidableEq, Repr

/-- Whether what follows a block is reached, if the block is: by its end, by a branch out of it, or
by its first arm or the lack of a second one. -/
def Level.leaves (l : Level) : Bool :=
  l.live || (l.kind != .loop && l.targeted) || (l.kind == .conditional && l.firstEnds != some false)

def opened? : Instruction → Option IR.FrameKind
  | .block _ => some .block
  | .loop _ => some .loop
  | .ifBlock _ => some .conditional
  | _ => none

/-- The depths of the blocks that an instruction branches to. -/
def targets : Instruction → List Nat
  | .br depth | .brIf depth => [depth]
  | .brTable depths default => depths ++ [default]
  | _ => []

/-- Whether control never goes on to the next instruction. -/
def stops : Instruction → Bool
  | .unreachable | .ret | .br _ | .brTable .. => true
  | _ => false

/-- The open blocks, those at some depths being targeted from then on. -/
def mark (targets : Nat → Bool) : List Level → List Level
  | [] => []
  | l :: ls => { l with targeted := l.targeted || targets 0 } :: mark (fun i => targets (i + 1)) ls

/-- The open blocks after the end of the innermost one. -/
def leave (l : Level) : List Level → List Level
  | [] => []
  | outer :: ls => { outer with live := outer.live && l.leaves } :: ls

/-- The open blocks after an instruction, the innermost first.  None is open after the `end` of the
body. -/
def pass (i : Instruction) : List Level → List Level
  | [] => []
  | l :: ls =>
    match opened? i, i with
    | some kind, _ => { kind, entered := l.live, live := l.live } :: l :: ls
    | none, .elseMark => { l with live := l.entered, firstEnds := some l.live } :: ls
    | none, .endMark => leave l ls
    | none, i =>
      if l.live then mark (decide <| · ∈ targets i) ({ l with live := !stops i } :: ls) else l :: ls

section

variable {i : Instruction} {l : Level} {ls : List Level}

theorem pass_opens {kind : IR.FrameKind} (h : opened? i = some kind) :
    pass i (l :: ls) = { kind, entered := l.live, live := l.live } :: l :: ls := by
  simp only [pass, h]

theorem pass_straight (hopens : opened? i = none) (hcloses : i.closesBlock = false) :
    pass i (l :: ls)
      = if l.live then mark (decide <| · ∈ targets i) ({ l with live := !stops i } :: ls)
        else l :: ls := by
  cases i <;> first | rfl | (cases hopens; done) | cases hcloses

theorem opened?_eq_none_iff : opened? i = none ↔ i.opensBlock = false := by
  cases i <;> simp [opened?, Instruction.opensBlock]

end

/-- The open blocks after some instructions. -/
def passAll (is : List Instruction) (ls : List Level) :
    List Level := is.foldl (fun ls i => pass i ls) ls

theorem passAll_nil (is : List Instruction) : passAll is [] = [] := by
  induction is with
  | nil => rfl
  | cons i is ih => exact ih

/-- No block is open after the `end` of the last one. -/
theorem passAll_end (is : List Instruction) (l : Level) : passAll (.endMark :: is) [l] = [] :=
  passAll_nil is

def live (ls : List Level) : Bool := ls.head?.any Level.live

/-- Whether a block is open whose next instruction is not reached. -/
def dead (ls : List Level) : Bool := ls.head?.any fun l => !l.live

theorem live_of_dead {ls : List Level} (h : dead ls) : live ls = false := by
  cases ls with
  | nil => cases h
  | cons l ls => exact Bool.not_eq_true' .. ▸ h

/-- The open blocks at the start of a body. -/
def start : List Level := [{ kind := .function }]

def reached : List Instruction → List Level → List Instruction
  | [], _ => []
  | i :: is, ls => if live ls then i :: reached is (pass i ls) else reached is (pass i ls)

end Reach

namespace IR

open Reach (Level pass mark)

/-! ### Open blocks of a builder -/

/-- An open block of a builder, and what control has to do with it. -/
structure Frame.Of (f : Frame) (l : Level) : Prop where
  kind : f.kind = l.kind
  entered : l.entered = true
  live : f.unreachable = !l.live
  targeted : f.targeted = l.targeted
  first : l.firstEnds = f.firstArm.map fun _ => f.firstFallsThrough

namespace Frame.Of

variable {f : Frame} {l : Level}

theorem add (h : f.Of l) (ss : List Statement) :
    (f.add ss).Of l := ⟨h.kind, h.entered, h.live, h.targeted, h.first⟩

theorem mark (h : f.Of l) (targeted : Bool) :
    (f.mark targeted).Of { l with targeted := l.targeted || targeted } :=
  ⟨h.kind, h.entered, h.live, congrArg (· || targeted) h.targeted, h.first⟩

/-- What follows a block is reached or not, whichever way one looks at it. -/
theorem leaves_eq (h : f.Of l) : f.leaves = l.leaves := by
  obtain ⟨hkind, -, hlive, htargeted, hfirst⟩ := h
  unfold Frame.leaves Level.leaves
  rw [hkind, hlive, htargeted, hfirst]
  cases f.firstArm <;> cases f.firstFallsThrough <;> cases l.live <;> cases l.targeted <;>
    cases l.kind <;> rfl

end Frame.Of

/-- Layers whose frames are open blocks as control sees them. -/
abbrev Reflects (ls : List Level) (layers : List Layer) : Prop :=
  List.Forall₂ (fun l (layer : Layer) => layer.frame.Of l) ls layers

theorem reflects_mark {ls : List Level} {layers : List Layer} (h : Reflects ls layers) :
    ∀ targets : Nat → Bool, Reflects (mark targets ls) (Layer.target targets layers) := by
  induction h with
  | nil => exact fun _ => .nil
  | cons hl _ ih => exact fun targets => .cons (hl.mark _) (ih _)

namespace Build

variable {ctx : Context} {i : Instruction} {d d' : Draft} {ls : List Level}

/-- What a straight instruction has to do with control. -/
theorem control_of_straight {fs : List Frame} {first : Nat} {pend : List Expression} {o : Outcome}
    (h : Straight ctx fs first i pend o) :
    Reach.opened? i = none ∧ i.closesBlock = false ∧ o.live = !Reach.stops i ∧
      o.depths = Reach.targets i := by
  cases h with
  | work signature =>
    cases i <;> first | exact ⟨rfl, rfl, rfl, rfl⟩ | cases signature
  | _ => exact ⟨rfl, rfl, rfl, rfl⟩

/-- The block that an instruction opens for a builder. -/
theorem opened_of_opens {kind : FrameKind} {type : BlockType} {condition : Option Expression}
    (h : Opens i kind type condition) : Reach.opened? i = some kind := by
  cases h <;> rfl

theorem Frame.Of.live_eq {f : Frame} {l : Level} (h : f.Of l) (hlive : f.unreachable = false) :
    l.live = true := by
  have hsame := h.live
  rw [hlive] at hsame
  simpa using hsame.symm

/-- An instruction that is built does to the open blocks of a builder what it does to control. -/
theorem reflects_step (h : Step ctx i d d') (hs : Reflects ls d.layers) :
    Reflects (pass i ls) d'.layers := by
  cases h with
  | straight live outcome =>
    obtain ⟨hopened, hcloses, hlive, hdepths⟩ := control_of_straight outcome
    cases hs with
    | @cons l _ ls _ hl hls =>
    have hreached : l.live = true := Frame.Of.live_eq hl live
    rw [Reach.pass_straight hopened hcloses, if_pos hreached, Outcome.draft, ← hdepths, ← hlive]
    -- A branch marks the block that it goes to, whatever becomes of the innermost one.
    refine reflects_mark (.cons ?_ hls) _
    rename_i o
    cases hgoes : o.live with
    | true =>
      rw [Outcome.layer, if_pos hgoes]
      exact { hl.add o.statements with live := live }
    | false =>
      rw [Outcome.layer, if_neg (by rw [hgoes]; decide)]
      exact { hl.add o.statements with live := rfl }
  | enter live opens operands types =>
    cases hs with
    | @cons l _ ls _ hl hls =>
    rw [Reach.pass_opens (opened_of_opens opens), Frame.Of.live_eq hl live]
    exact .cons ⟨rfl, rfl, rfl, rfl, rfl⟩ (.cons ((hl.add _).add _) hls)
  | @second f pend layers temps label kind first types =>
    cases hs with
    | @cons l _ ls _ hl hls =>
    obtain ⟨ss, hss⟩ := exists_finished f pend
    rw [hss]
    refine .cons ⟨hl.kind, hl.entered, ?_, hl.targeted, ?_⟩ hls
    · rw [hl.entered]
      rfl
    · change some l.live = some (decide (¬ f.unreachable = true))
      rw [hl.live]
      cases l.live <;> rfl
  | @leave f pend l layers temps label kind arms types =>
    cases hs with
    | @cons k _ ks _ hk hks =>
    cases hks with
    | @cons o _ ks _ ho hks =>
    refine .cons ?_ hks
    obtain ⟨ss, hss⟩ := exists_finished f pend
    have hleaves : (finished f pend).leaves = k.leaves := by
      rw [hss]
      exact (hk.add ss).leaves_eq
    have hadd := ho.add [(finished f pend).toStatement]
    rw [resumed, hleaves]
    cases hgoes : k.leaves with
    | true =>
      rw [if_pos rfl]
      exact { hadd with live := by rw [Bool.and_true]; exact hadd.live }
    | false =>
      rw [if_neg Bool.false_ne_true]
      exact { hadd with live := by rw [Bool.and_false]; rfl }

/-! ### Blocks that are left out -/

/-- Open blocks as control sees them, where the builder leaves some out: the inner ones, which are
not entered. -/
inductive Follows : List Level → Nat → List Layer → Prop
  | built {ls : List Level} {layers : List Layer} (reflects : Reflects ls layers) :
  Follows ls 0 layers
  | skipped {l : Level} {ls : List Level} {count : Nat} {layers : List Layer}
      (entered : l.entered = false)
      (dead : l.live = false) (around : Reach.live ls = false) (rest : Follows ls count layers) :
      Follows (l :: ls) (count + 1) layers

namespace Follows

variable {layer : Layer} {layers : List Layer} {count : Nat}

/-- What comes next is reached if the builder says so, and then it leaves no open block out. -/
theorem live_eq (h : Follows ls count (layer :: layers)) :
    Reach.live ls = !layer.frame.unreachable := by
  generalize hall : layer :: layers = all at h
  induction h with
  | built reflects =>
    subst hall
    cases reflects with
    | cons hl _ =>
      rw [hl.live, Bool.not_not]
      rfl
  | skipped _ dead around _ ih =>
    rw [← ih hall, around]
    exact dead

theorem dead_of_pos (h : Follows ls count (layer :: layers)) (hcount : 0 < count) :
    Reach.live ls = false := by
  cases h with
  | built => cases hcount
  | skipped _ dead _ _ => exact dead

theorem exists_cons (h : Follows ls count (layer :: layers)) : ∃ l ls', ls = l :: ls' := by
  cases h with
  | built reflects =>
    cases reflects with
    | cons => exact ⟨_, _, rfl⟩
  | skipped => exact ⟨_, _, rfl⟩

/-- A block that is opened where control does not get is left out. -/
theorem opens (h : Follows ls count (layer :: layers)) (hdead : Reach.live ls = false)
    (hopens : i.opensBlock) :
    Follows (pass i ls) (count + 1) (layer :: layers) := by
  obtain ⟨l, ls, rfl⟩ := h.exists_cons
  have hl : l.live = false := hdead
  cases hkind : Reach.opened? i with
  | none =>
    rw [Reach.opened?_eq_none_iff] at hkind
    rw [hkind] at hopens
    cases hopens
  | some kind =>
    rw [Reach.pass_opens hkind]
    exact .skipped hl hl hdead h

/-- The end of a block that was left out. -/
theorem closes (h : Follows ls (count + 1) (layer :: layers)) :
    Follows (pass .endMark ls) count (layer :: layers) := by
  cases h with
  | @skipped l _ _ _ entered dead around rest =>
    obtain ⟨outer, ls, rfl⟩ := rest.exists_cons
    have houter : outer.live = false := around
    have hsame : ({ outer with live := outer.live && l.leaves } : Level) = outer := by
      rw [houter, Bool.false_and, ← houter]
    change Follows ({ outer with live := outer.live && l.leaves } :: ls) _ _
    rw [hsame]
    exact rest

/-- An instruction that is left out where control does not get, and that opens or closes no block
there. -/
theorem stays (h : Follows ls count (layer :: layers)) (hdead : Reach.live ls = false)
    (hopens : i.opensBlock = false) (hend : i ≠ .endMark) (helse : i = .elseMark → 0 < count) :
    Follows (pass i ls) count (layer :: layers) := by
  obtain ⟨l, ls, rfl⟩ := h.exists_cons
  have hl : ¬ l.live = true := Bool.eq_false_iff.mp hdead
  by_cases hi : i = .elseMark
  · subst hi
    cases h with
    | built => exact absurd (helse rfl) (Nat.lt_irrefl 0)
    | skipped entered dead around rest => exact .skipped entered entered around rest
  · have hcloses : i.closesBlock = false := by
      cases i <;> first | rfl | exact (hend rfl).elim | exact (hi rfl).elim
    rw [Reach.pass_straight (Reach.opened?_eq_none_iff.mpr hopens) hcloses, if_neg hl]
    exact h

theorem passed (h : Follows ls count (layer :: layers)) (hdead : Reach.live ls = false)
    {count' : Nat} (hpassed : Passed i count count') :
    Follows (pass i ls) count' (layer :: layers) := by
  cases hpassed with
  | opens opens => exact h.opens hdead opens
  | ends => exact h.closes
  | stays opens ends turns => exact h.stays hdead opens ends turns

/-- A builder leaves an instruction out, or builds it where no open block is left out. -/
theorem skips_or_builds (h : Follows ls count (layer :: layers)) (ctx : Context) (next : Located) :
    (Reach.live ls = false ∧ ∃ count', Follows (pass next.instruction ls) count' (layer :: layers) ∧
      ∀ (rest : List Located) (b : Builder) (fs : List Frame), b.frames = layer.frame :: fs →
        instructions ctx (next :: rest) count b = instructions ctx rest count' b) ∨
    (count = 0 ∧ Reflects ls (layer :: layers) ∧
      (layer.frame.unreachable = true → next.instruction.closesBlock) ∧
      ∀ (rest : List Located) (b : Builder) (fs : List Frame), b.frames = layer.frame :: fs →
        instructions ctx (next :: rest) 0 b = building ctx next rest b) := by
  have hlive : Reach.live ls = !layer.frame.unreachable := h.live_eq
  cases hpasses : passes layer.frame.unreachable next.instruction count with
  | some count' =>
    obtain ⟨hdead, hpassed⟩ := passed_of_passes hpasses
    have hdead : Reach.live ls = false := by rw [hlive, hdead]; rfl
    exact .inl
      ⟨hdead, count', h.passed hdead hpassed, fun rest b fs hb => instructions_of_passes hb hpasses⟩
  | none =>
    obtain rfl : count = 0 := by
      refine skipped_of_not_passes hpasses ((Nat.eq_zero_or_pos count).imp_right fun hpos => ?_)
      have hdead := h.dead_of_pos hpos
      rwa [hlive, Bool.not_eq_false'] at hdead
    cases h with
    | built reflects =>
      exact .inr ⟨rfl, reflects, fun hdead => (closes_of_not_passes hpasses hdead).2,
        fun rest b fs hb => instructions_of_not_passes hb hpasses⟩

end Follows

/-! ### What is built -/

/-- What a draft becomes by some instructions, each of them being built. -/
inductive Path (ctx : Context) : List Instruction → Draft → Draft → Prop
  | nil {d : Draft} : Path ctx [] d d
  | cons {i : Instruction} {is : List Instruction} {d d' d'' : Draft} (first : Step ctx i d d')
      (rest : Path ctx is d' d'') : Path ctx (i :: is) d d''

/-- The instructions that are built are those that are reached, apart from an `else` or an `end`,
which is built also if the end of its arm is not reached. -/
theorem exists_path_of_ok {body : List Statement} {b : Builder} (next : List Located) :
    ∀ (ls : List Level) (skipped pos : Nat) (d : Draft), Stacked d.layers →
      Follows ls skipped d.layers →
      instructions ctx next skipped (d.builder pos) = .ok (body, b) →
      ∃ is f pend, Path ctx is d ⟨[⟨f, pend⟩], b.temps, b.nextLabel⟩ ∧ f.kind = .function
        ∧ (f.unreachable = false → pend.map Expression.type = f.results) ∧
          body = finishedBody f pend
        ∧ is.filter (!·.closesBlock) = (Reach.reached (Located.plain next) ls).filter
          (!·.closesBlock) := by
  induction next with
  | nil =>
    intro ls skipped pos d _ _ h
    cases h
  | cons next rest ih =>
    intro ls skipped pos d hs hfollows h
    obtain ⟨layers, temps, label⟩ := d
    cases layers with
    | nil =>
      obtain ⟨_, _, hframe, -⟩ := bind_ok h
      cases hframe
    | cons layer layers =>
    have hreached : Reach.reached (Located.plain (next :: rest)) ls
        = if Reach.live ls then next.instruction :: Reach.reached (Located.plain rest)
            (pass next.instruction ls)
          else Reach.reached (Located.plain rest) (pass next.instruction ls) := rfl
    have hlive : Reach.live ls = !layer.frame.unreachable := hfollows.live_eq
    rcases hfollows.skips_or_builds ctx next with
      ⟨hdead, count', hfollows', hskip⟩ | ⟨rfl, hreflects, hcloses, hbuild⟩
    · rw [hskip rest _ _ rfl] at h
      rw [hreached, if_neg (by rw [hdead]; exact Bool.false_ne_true)]
      exact ih _ count' pos _ hs hfollows' h
    · rw [hbuild rest _ _ rfl] at h
      obtain ⟨made, b₁, hmade, hrest⟩ := bind_ok h
      -- An `else` or an `end` is built even where it is not reached, but is not among what is
      -- compared.
      have hfirst (is : List Instruction) : (next.instruction :: is).filter (!·.closesBlock)
          = (if Reach.live ls then next.instruction :: is else is).filter (!·.closesBlock) := by
        cases hdead : layer.frame.unreachable with
        | true => rw [hlive, hdead, List.filter_cons_of_neg (by simp [hcloses hdead])]; rfl
        | false => rw [hlive, hdead]; rfl
      have hleaves := instruction_of_ok hs hcloses hmade
      cases made with
      | none =>
        obtain ⟨d', hstep, rfl, hs'⟩ := hleaves
        obtain ⟨is, f, pend, hpath, hkind, htypes, hbody, his⟩ :=
          ih _ 0 next.pos d' hs' (.built (reflects_step hstep hreflects)) hrest
        refine ⟨_, f, pend, .cons hstep hpath, hkind, htypes, hbody, ?_⟩
        rw [hfirst, hreached]
        split
        · rw [List.filter_cons, List.filter_cons, his]
        · exact his
      | some made =>
        obtain ⟨f, pend, hd, hkind, htypes, hbody⟩ := hleaves
        cases rest with
        | cons after rest => cases hrest
        | nil =>
          cases hrest
          refine ⟨[], f, pend, hd ▸ .nil, hkind, htypes, hbody, ?_⟩
          have hnone : (Reach.reached (Located.plain []) (pass next.instruction ls)) = [] := rfl
          rw [hreached, hnone, ← hfirst, eq_endMark_of_some hmade]
          rfl

end Build

open Build

/-- A function that is built has a type and a body in its module, and is what is left of them after
the instructions of the body that are reached. -/
theorem exists_path_of_build {m : Module} {index : Nat} {fn : Function}
    (h : buildFunction m index = .ok fn) :
    ∃ (type : FunctionType) (body : Body) (is : List Instruction) (f : Frame)
      (pend : List Expression)
      (temps : Array Temp) (label : Nat),
      m.imports.size ≤ index ∧ m.bodies[index - m.imports.size]? = some body
      ∧ m.functionType? index = some type
      ∧ Path ⟨m, index, fn.name, type, type.params.toArray ++ body.locals⟩ is (Draft.start type)
          ⟨[⟨f, pend⟩], temps, label⟩
      ∧ f.kind = .function ∧ (f.unreachable = false → pend.map Expression.type = f.results)
      ∧ fn.body = finishedBody f pend
      ∧ is.filter (!·.closesBlock)
        = (Reach.reached (Located.plain body.instructions.toList) Reach.start).filter
          (!·.closesBlock) := by
  obtain ⟨type, body, ss, b, hindex, hbody, htype, hrun, hfn⟩ := exists_run_of_build h
  have hstart : Follows Reach.start 0 (Draft.start type).layers :=
    .built (.cons ⟨rfl, rfl, rfl, rfl, rfl⟩ .nil)
  obtain ⟨is, f, pend, hpath, hkind, htypes, rfl, his⟩ :=
    exists_path_of_ok _ Reach.start 0 _ (Draft.start type) (Draft.stacked_start type) hstart hrun
  exact ⟨type, body, is, f, pend, _, _, hindex, hbody, htype, hpath, hkind, htypes,
    congrArg Function.body hfn, his⟩

end IR

end WasmScript
