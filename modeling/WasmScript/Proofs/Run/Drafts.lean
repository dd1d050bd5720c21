/-
  WasmScript/Proofs/Run/Drafts.lean
  =================================
  **Drafts that are run** — what is built so far, as a part of the function it becomes.

  A run has room for all temporaries of a function from the start, so what a draft holds is
  read in the scope of the finished function.  What is added to a draft belongs where it is
  added: it is typed there, it names what is known there, and it binds what is not.  So the
  variables with which it goes on fit the draft that it leads to.
-/
import WasmScript.Proofs.IR.NestedSteps
import WasmScript.Proofs.Run.StraightSteps

namespace WasmScript

open IR (Variables Surroundings Expression Statement Scope Place Layer Draft Frame Temp Context Role
  Fresh Grown)
open IR.Build (Step Made)
open IR.Statement
open IR.Run

variable {σ : Type}

namespace IR

/-- Expressions use temporaries that are there. -/
theorem Expression.Typed.uses_lt {Γ : Scope} {role : Role} {e : Expression} (h : e.Typed Γ role) :
    ∀ id ∈ e.uses, id < Γ.temps.size := by
  have hfound {id : Nat} {t : Temp} (found : Γ.temps[id]? = some t) : id < Γ.temps.size :=
    (Array.getElem?_eq_some_iff.mp found).1
  induction h with
  | literal | localRef | globalRef | memorySize | folded =>
    exact fun id hid => absurd hid List.not_mem_nil
  | tempRef found =>
    intro id hid
    rw [List.mem_singleton.mp hid]
    exact hfound found
  | unary _ _ _ _ ih => exact ih
  | binary _ _ _ _ _ _ ihl ihr => exact List.forall_mem_append.mpr ⟨ihl, ihr⟩
  | compare _ _ _ _ _ _ ihl ihr => exact List.forall_mem_append.mpr ⟨ihl, ihr⟩
  | select _ _ _ _ _ _ ihc ihy ihn =>
    exact List.forall_mem_append.mpr ⟨List.forall_mem_append.mpr ⟨ihc, ihy⟩, ihn⟩
  | call _ _ ih =>
    intro id hid
    obtain ⟨e, he, hid⟩ := Expression.mem_usesAll.mp hid
    exact ih e he id hid
  | tee _ _ ih => exact ih
  | load _ _ _ ih => exact ih
  | memoryGrow _ _ _ ih => exact ih
  | address _ _ ih => exact ih

/-! ### Statements in their place -/

namespace Belongs

variable {Γ : Scope} {p : Place} {ss ts : List Statement}
variable {count : Nat} {F : Failure → Prop} {around : Surroundings σ} {v w : Variables σ}

/-- What statements leave where they go on fits what follows. -/
theorem next (h : Belongs Γ p ss) (ha : Unwatched Γ count F around) (hv : v.Fits Γ count p.known)
    (hrun : executeAll around ss v = .ok .next w) :
    PassesAll ss ∧ w.Fits Γ count (p.learn (bound ss)).known := by
  have hmeets := (agree_executeAll ha.toSurroundingsAgree h.typed h.placed h.fresh v hv).2
  rwa [hrun] at hmeets

/-- What the body of a loop leaves where it starts again fits another turn. -/
theorem restart {label : Int} (h : Belongs Γ p ss) (ha : Unwatched Γ count F around)
    (hv : v.Fits Γ count p.known)
    (hrun : inScope ss (executeAll around ss) v = .ok (.restart label) w) :
    w.Fits Γ count p.known := by
  have hmeets :=
    (agree_inScope h.fresh
      (agree_executeAll ha.toSurroundingsAgree h.typed h.placed h.fresh) v hv).2
  rw [hrun] at hmeets
  exact hmeets.2

end Belongs

/-! ### Open blocks without their marks -/

namespace Layer

variable {slots : List Nat} {ls ls' : List Layer}

/-- The blocks that a branch may go to, by their depths. -/
def aims (ls : List Layer) (depth : Nat) : Option Aim := (ls.map fun l => l.frame.aim)[depth]?

theorem aims_congr (h : ls'.map bare = ls.map bare) : aims ls' = aims ls := by
  have hmap (ls : List Layer) : ls.map (fun l => l.frame.aim) = (ls.map bare).map fun l =>
      l.frame.aim := by
    rw [List.map_map]
    rfl
  funext depth
  rw [aims, aims, hmap, h, ← hmap]

theorem place_congr (h : ls'.map bare = ls.map bare) : place slots ls' = place slots ls := by
  induction ls generalizing ls' with
  | nil => rw [List.map_eq_nil_iff.mp h]
  | cons l ls ih =>
    obtain ⟨l', ls', rfl, hl, hls⟩ := List.map_eq_cons_iff.mp h
    have hinside (p : Place) (l : Layer) : (p.inside l.frame).learn (bound l.frame.body.toList)
      = (p.inside l.bare.frame).learn (bound l.bare.frame.body.toList) := rfl
    rw [place, place, ih hls, hinside, hl, ← hinside]

theorem built_congr (h : ls'.map bare = ls.map bare) : built ls' = built ls := by
  have hmap (ls : List Layer) : built ls = built (ls.map bare) := by
    rw [built, built, List.flatMap_map]
    rfl
  rw [hmap, h, ← hmap]

/-- What is known inside some open blocks are slots and what they have bound. -/
theorem known_subset (slots : List Nat) (ls : List Layer) :
    (place slots ls).known ⊆ slots ++ bindsIn (built ls) := by
  induction ls with
  | nil => exact List.subset_append_left _ _
  | cons l ls ih =>
    rw [place, Place.learn, Place.known_inside, built_cons, bindsIn_append]
    refine List.append_subset.mpr ⟨List.Subset.trans ih ?_, ?_⟩
    · exact List.append_subset.mpr ⟨List.subset_append_left _ _,
        List.subset_append_of_subset_right _ (List.subset_append_right _ _)⟩
    · refine List.subset_append_of_subset_right _ (List.subset_append_of_subset_left _ ?_)
      rw [Frame.built, bindsIn_append]
      exact List.subset_append_of_subset_right _ (bound_subset_bindsIn _)

end Layer

/-! ### What is added -/

namespace Grown

variable {d d' : Draft} {ss : List Statement} {slots : List Nat}

theorem aims_eq (h : Grown d ss d') : Layer.aims d'.layers = Layer.aims d.layers := by
  cases h with
  | @mk f f' pend pend' ls ls' temps label label' ss ts frame around =>
    have haim : f'.aim = f.aim := by
      change f'.bare.aim = _
      rw [frame]
      rfl
    have hrest := Layer.aims_congr around
    funext depth
    cases depth with
    | zero => exact congrArg some haim
    | succ depth => exact congrFun hrest depth

/-- A draft goes on where what was added has bound what it binds. -/
theorem place_eq (h : Grown d ss d') :
    Layer.place slots d'.layers = (Layer.place slots d.layers).learn (bound ss) := by
  cases h with
  | @mk f f' pend pend' ls ls' temps label label' ss ts frame around =>
    have hinside : (Layer.place slots ls).inside f' = (Layer.place slots ls).inside f := by
      change (Layer.place slots ls).inside f'.bare = _
      rw [frame]
      rfl
    have hbody : f'.body.toList = f.body.toList ++ ss := by
      rw [← Frame.toList_body_add]
      exact congrArg (fun f => f.body.toList) frame
    rw [Layer.place, Layer.place, Layer.place_congr around, hinside, hbody, bound_append,
      Place.learn_learn]

/-- What is added binds just the values that are new. -/
theorem binds_perm (h : Grown d ss d') (hd : d.Scoped) (hd' : d'.Scoped) :
    ∃ ts : List Temp, d'.temps = d.temps ++ ts.toArray ∧
      (bindsIn ss).Perm (Temp.ids .value ts) := by
  cases h with
  | @mk f f' pend pend' ls ls' temps label label' ss ts frame around =>
    have hbinds := hd.binds
    have hbinds' := hd'.binds
    have hbuilt : f'.built = f.built ++ ss := by
      change f'.bare.built = _
      rw [frame, Frame.built_add]
      rfl
    simp only [Layer.built_cons, Layer.built_congr around, hbuilt, bindsIn_append,
      Array.toList_append, Temp.ids_append] at hbinds hbinds'
    refine ⟨ts, rfl,
      (List.perm_append_right_iff (bindsIn f.built ++ bindsIn (Layer.built ls))).mp ?_⟩
    calc (bindsIn ss ++ (bindsIn f.built ++ bindsIn (Layer.built ls))).Perm
          (bindsIn f.built ++ bindsIn ss ++ bindsIn (Layer.built ls)) := by
            rw [← List.append_assoc]
            exact List.perm_append_comm.append_right _
      List.Perm _ (Temp.ids .value temps.toList ++ Temp.ids .value ts) := hbinds'
      List.Perm _ (Temp.ids .value ts ++ Temp.ids .value temps.toList) := List.perm_append_comm
      List.Perm _ (Temp.ids .value ts ++ (bindsIn f.built ++ bindsIn (Layer.built ls))) :=
        hbinds.symm.append_left _

end Grown

/-- Temporaries that come after others are numbered on. -/
theorem Temp.le_of_numbered {temps : Array Temp} {ts : List Temp}
    (h : (temps ++ ts.toArray).toList.map Temp.id = List.range (temps ++ ts.toArray).size)
    {t : Temp} (ht : t ∈ ts) : temps.size ≤ t.id := by
  obtain ⟨i, hi⟩ := List.mem_iff_getElem?.mp ht
  have hid : ((temps ++ ts.toArray).toList.map Temp.id)[temps.size + i]? = some t.id := by
    rw [Array.toList_append, List.map_append, List.getElem?_append_right (by simp)]
    simp [hi]
  rw [h] at hid
  obtain ⟨hlt, heq⟩ := List.getElem?_eq_some_iff.mp hid
  rw [List.getElem_range] at heq
  omega

/-! ### Drafts of a function -/

/-- Whether an open block has no slot twice. -/
structure Frame.Distinct (f : Frame) : Prop where
  results : f.resultSlots.Nodup
  params : f.paramSlots.Nodup

/-- A draft that comes out of steps: its parts fit together, its names are in order, its blocks have
slots of their own and are marked as they should be, and the blocks around the innermost one go
on. -/
structure Draft.Sound (ctx : Context) (d : Draft) : Prop where
  typed : d.Typed ctx
  names : d.Scoped
  ends : d.Ends
  slots : ∀ l ∈ d.layers, l.frame.Distinct
  outer : ∀ l ∈ d.layers.tail, l.frame.unreachable = false

namespace Draft.Sound

variable {ctx : Context} {d d' : Draft} {i : Instruction} {cs : List Code}

/-- No step gives a block the same slot twice. -/
theorem distinct_step (h : ∀ l ∈ d.layers, l.frame.Distinct) (hstep : Step ctx i d d') :
    ∀ l ∈ d'.layers, l.frame.Distinct := by
  cases hstep with
  | @straight i f pend ls temps label o live outcome =>
    obtain ⟨hf, hls⟩ := List.forall_mem_cons.mp h
    intro l (hl : l ∈ Layer.target (decide <| · ∈ o.depths) (o.layer f :: ls))
    obtain ⟨l₀, hl₀, targeted, rfl⟩ := Layer.exists_of_mem_target hl
    rcases List.mem_cons.mp hl₀ with rfl | hl₀
    · unfold IR.Build.Outcome.layer
      dsimp only
      split <;> exact ⟨hf.results, hf.params⟩
    · exact ⟨(hls l₀ hl₀).results, (hls l₀ hl₀).params⟩
  | enter =>
    obtain ⟨hf, hls⟩ := List.forall_mem_cons.mp h
    refine List.forall_mem_cons.mpr
      -- The new block numbers its slots one after another.
      ⟨⟨List.nodup_range', List.nodup_range'⟩, List.forall_mem_cons.mpr ⟨?_, hls⟩⟩
    exact ⟨hf.results, hf.params⟩
  | @second f pend ls temps label kind first types =>
    obtain ⟨hf, hls⟩ := List.forall_mem_cons.mp h
    obtain ⟨ss, hss⟩ := IR.Build.exists_finished f pend
    refine List.forall_mem_cons.mpr ⟨?_, hls⟩
    rw [hss]
    exact ⟨hf.results, hf.params⟩
  | @leave f pend l ls temps label kind arms types =>
    obtain ⟨-, hl, hls⟩ := List.forall_mem_cons.mp h |>.imp_right List.forall_mem_cons.mp
    refine List.forall_mem_cons.mpr ⟨?_, hls⟩
    unfold IR.Build.resumed
    dsimp only
    split <;> exact ⟨hl.results, hl.params⟩

/-- Only the innermost block is ever marked as unreachable. -/
theorem outer_step (h : ∀ l ∈ d.layers.tail, l.frame.unreachable = false)
    (hstep : Step ctx i d d') :
    ∀ l ∈ d'.layers.tail, l.frame.unreachable = false := by
  cases hstep with
  | @straight i f pend ls temps label o live outcome =>
    intro l (hl : l ∈ Layer.target (fun i => decide (i + 1 ∈ o.depths)) ls)
    obtain ⟨l₀, hl₀, targeted, rfl⟩ := Layer.exists_of_mem_target hl
    exact h l₀ hl₀
  | enter live => exact List.forall_mem_cons.mpr ⟨live, h⟩
  | second => exact h
  | leave => exact (List.forall_mem_cons.mp h).2

theorem step (h : d.Sound ctx) (hstep : Step ctx i d d') : d'.Sound ctx where
  typed := IR.Build.typed_step h.typed hstep
  names := IR.Build.scoped_step h.typed h.names hstep
  ends := IR.Build.ends_step h.names h.ends hstep
  slots := distinct_step h.slots hstep
  outer := outer_step h.outer hstep

theorem made (h : d.Sound ctx) (hmade : Made ctx cs d d') : d'.Sound ctx := by
  induction hmade with
  | nil | dead => exact h
  | plain sound live outcome rest ih => exact ih (h.step (.straight live outcome))
  | block opens inside closes rest ihinside ih | loop opens inside closes rest ihinside ih
  | choice opens inside closes rest ihinside ih =>
    exact ih ((ihinside (h.step opens)).step closes)
  | conditional opens first turns second closes rest ihfirst ihsecond ih =>
    exact ih ((ihsecond ((ihfirst (h.step opens)).step turns)).step closes)

theorem start (type : FunctionType) (htype : ctx.type = type) :
    (IR.Build.Draft.start type).Sound ctx where
  typed := IR.Build.typed_start type htype
  names := IR.Build.scoped_start type
  ends := List.forall_mem_singleton.mpr ⟨by rintro ⟨⟩, by rintro _ ⟨⟩⟩
  slots := List.forall_mem_singleton.mpr ⟨List.nodup_nil, List.nodup_nil⟩
  outer _ h := absurd h List.not_mem_nil

end Draft.Sound

/-- A draft of a function that has certain temporaries in the end. -/
structure Draft.Of (ctx : Context) (temps : Array Temp) (d : Draft) : Prop where
  sound : d.Sound ctx
  more : ∃ ts : List Temp, temps = d.temps ++ ts.toArray
  numbered : temps.toList.map Temp.id = List.range temps.size

/-- The place where a draft goes on, in a function that has certain temporaries in the end. -/
def Draft.place (temps : Array Temp) (d : Draft) :
    Place := Layer.place (Temp.ids .slot temps.toList) d.layers

namespace Draft.Of

variable {ctx : Context} {final : Array Temp} {d d' : Draft} {ss : List Statement}

/-- A draft is of the same function as one that it becomes. -/
theorem earlier (h : d'.Of ctx final) (hd : d.Sound ctx)
    (htemps : ∃ ts : List Temp, d'.temps = d.temps ++ ts.toArray) : d.Of ctx final := by
  obtain ⟨us, hus⟩ := h.more
  obtain ⟨ts, hts⟩ := htemps
  refine ⟨hd, ⟨ts ++ us, ?_⟩, h.numbered⟩
  rw [hus, hts, IR.append_temps]

/-- The slots that there are so far are slots in the end. -/
theorem slots_subset (h : d.Of ctx final) : d.slots ⊆ Temp.ids .slot final.toList := by
  obtain ⟨ts, hts⟩ := h.more
  rw [hts, Draft.Scoped.slots_append]
  exact List.subset_append_left _ _

variable {f : Frame} {pend : List Expression} {ls : List Layer} {temps : Array Temp} {label : Nat}

theorem typed_layer (h : d.Of ctx final) {l : Layer} (hl : l ∈ d.layers) :
    l.Typed (ctx.scope final) := by
  obtain ⟨ts, hts⟩ := h.more
  have hmore := (h.sound.typed.layers l hl).more ts
  rw [hts]
  exact hmore

/-- What is pending in the innermost block may be evaluated. -/
theorem pending (h : Draft.Of ctx final ⟨⟨f, pend⟩ :: ls, temps, label⟩) :
    Pending (ctx.scope final) (Draft.place final ⟨⟨f, pend⟩ :: ls, temps, label⟩).known
      temps.size pend where
  typed := (h.typed_layer List.mem_cons_self).pend
  uses := by
    refine IR.Expression.usesAll_subset.mpr fun e he => ?_
    exact List.Subset.trans (h.sound.names.placed.2.1 e he) (Layer.place_le h.slots_subset _).known
  low id hid := by
    obtain ⟨e, he, hid⟩ := IR.Expression.mem_usesAll.mp hid
    exact ((h.sound.typed.layers _ List.mem_cons_self).pend e he).uses_lt id hid

/-- Branches may go to the open blocks. -/
theorem targets (h : d.Of ctx final) :
    Targets (ctx.scope final) (Layer.aims d.layers) (d.layers.map Layer.frame) where
  typed f hf := by
    obtain ⟨l, hl, rfl⟩ := List.mem_map.mp hf
    exact (h.typed_layer hl).frame
  nodup f hf := by
    obtain ⟨l, hl, rfl⟩ := List.mem_map.mp hf
    obtain ⟨hresults, hparams⟩ := h.sound.slots l hl
    unfold Frame.aim
    dsimp only
    split
    · exact List.nodup_nil
    · exact hparams
    · exact hresults
  found depth f hf := by
    rw [List.getElem?_map] at hf
    rw [Layer.aims, List.getElem?_map]
    obtain ⟨l, hl, rfl⟩ := Option.map_eq_some_iff.mp hf
    rw [hl]
    rfl

/-- What is added binds temporaries that come after all those before. -/
theorem le_of_bound (h : d'.Of ctx final) (hd : d.Sound ctx) (hgrown : Grown d ss d') {id : Nat}
    (hid : id ∈ bindsIn ss) : d.temps.size ≤ id := by
  obtain ⟨ts, hts, hperm⟩ := hgrown.binds_perm hd.names h.sound.names
  obtain ⟨t, ht, rfl⟩ := List.mem_map.mp (hperm.mem_iff.mp hid)
  exact Temp.le_of_numbered (hts ▸ h.sound.typed.temps) (List.mem_of_mem_filter ht)

/-- What is added to a draft belongs where it is added. -/
theorem belongs (h : d'.Of ctx final) (hd : d.Sound ctx) (hgrown : Grown d ss d') :
    Belongs (ctx.scope final) (Draft.place final d) ss := by
  obtain ⟨ts, hts, hperm⟩ := hgrown.binds_perm hd.names h.sound.names
  obtain ⟨us, hus⟩ := h.more
  have hfinal : (final.toList.map Temp.id).Nodup := h.numbered ▸ List.nodup_range
  have hvalues : Temp.ids .value final.toList
      = Temp.ids .value d.temps.toList ++ Temp.ids .value ts ++ Temp.ids .value us := by
    simp [hus, hts, Temp.ids_append]
  have hnodup := Temp.nodup_ids hfinal .value
  rw [hvalues] at hnodup
  obtain ⟨hnodup, -, -⟩ := List.nodup_append.mp hnodup
  obtain ⟨-, hnew, hdisjoint⟩ := List.nodup_append.mp hnodup
  -- What is bound is new: slots are of another kind, and no value bound before has its number.
  have hfresh : Fresh (Draft.place final d).known ss := by
    refine ⟨fun id hid hknown => ?_, hperm.nodup_iff.mpr hnew⟩
    have hvalue := hperm.mem_iff.mp hid
    rcases List.mem_append.mp (Layer.known_subset _ _ hknown) with hslot | hbound
    · have hmem : id ∈ Temp.ids .value final.toList := by
        rw [hvalues]
        exact List.mem_append_left _ (List.mem_append_right _ hvalue)
      cases Temp.kind_eq_of_mem_ids hfinal hmem hslot
    · exact hdisjoint id (hd.names.binds.mem_iff.mp hbound) id hvalue rfl
  have hsubset := h.slots_subset
  cases hgrown with
  | @mk f f' pend pend' ls ls' temps label label' _ ts frame around =>
    have hbody : f'.body.toList = f.body.toList ++ ss := by
      rw [← Frame.toList_body_add]
      exact congrArg (fun f => f.body.toList) frame
    have hframe := (h.typed_layer List.mem_cons_self).frame.body
    have hplaced := h.sound.names.placed.1.body
    have hinside (p : Place) : p.inside f' = p.inside f := by
      change p.inside f'.bare = _
      rw [frame]
      rfl
    rw [hbody] at hframe hplaced
    rw [hinside] at hplaced
    refine ⟨(List.forall_mem_append.mp hframe).2, (placedAll_append.mp hplaced).2.mono ?_, hfresh⟩
    rw [Draft.place, Layer.place, ← Layer.place_congr around]
    exact ((Layer.place_le hsubset ls').inside f).learn _

/-- Where what is added goes on, the variables fit the draft that it leads to. -/
theorem next (h : d'.Of ctx final) (hd : d.Sound ctx) (hgrown : Grown d ss d') {count : Nat}
    {F : Failure → Prop} {around : Surroundings σ} (ha : Unwatched (ctx.scope final) count F around)
    {v w : Variables σ} (hv : v.Fits (ctx.scope final) count (Draft.place final d).known)
    (hrun : executeAll around ss v = .ok .next w) :
    PassesAll ss ∧ w.Fits (ctx.scope final) count (Draft.place final d').known := by
  have hnext := (h.belongs hd hgrown).next ha hv hrun
  rwa [Draft.place, ← hgrown.place_eq] at hnext

end Draft.Of

end IR

end WasmScript
