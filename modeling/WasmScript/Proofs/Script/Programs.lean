/-
  WasmScript/Proofs/Script/Programs.lean
  ======================================
  **Running whole scripts** — that a script does what the machine of structured bodies does.

  The slots and the constants of an inner function are the temporaries of its body, numbered
  without a gap, so both start with the same variables, and the simulation of bodies makes
  their calls the same.  The inner functions are then another way of running bodies, and two
  of these that agree make machines that agree.  What is left is to find in the script, under
  the same index or name, what the module has there: bindings, memory, globals and members.
-/
import WasmScript.Proofs.Run.Safety
import WasmScript.Proofs.Script.Declarations
import WasmScript.Proofs.Script.Execution

namespace WasmScript.Script

open IR (Belongs Place Run Surroundings Temp Uniform Variables)
open IR.Run (Unwatched)
open IR.Statement (AllSmall bindsIn tablesAll)
open Statement (executeAll)

variable {σ : Type} {m : Module} {count : Nat} {F : Failure → Prop} {around : Surroundings σ}
variable {f : IR.Function} {g : Function} {args : List Cell} {store : Store σ}

/-! ### The variables of a function -/

namespace Function

theorem foldr_room_le_iff {ids : List Nat} {n : Nat} :
    ids.foldr (fun id n => max (id + 1) n) 0 ≤ n ↔ ∀ id ∈ ids, id < n := by
  induction ids with
  | nil => simp
  | cons id ids ih => rw [List.foldr_cons, Nat.max_le, ih, List.forall_mem_cons, Nat.succ_le_iff]

/-- There are as many places as there are temporaries, if these are numbered without a gap. -/
theorem room_eq_of_mem_iff {n : Nat} (h : ∀ id, id ∈ g.temps ↔ id < n) : g.room = n := by
  refine Nat.le_antisymm (foldr_room_le_iff.mpr fun id hid => (h id).mp hid) ?_
  cases n with
  | zero => exact Nat.zero_le _
  | succ n =>
    have hlast : n ∈ g.temps := (h n).mpr (Nat.lt_succ_self n)
    exact foldr_room_le_iff.mp (Nat.le_refl g.room) n hlast

theorem ofBody_eq_ok (hg : ofBody f = .ok g) :
    g.paramCount = f.params.length ∧ g.locals = f.locals ∧ g.index = f.index ∧
      g.slots = (f.temps.filter fun t => t.kind = .slot).map (fun t => (t.id, t.type)) ∧
      ofStatements f.body = .ok g.body := by
  obtain ⟨body, hbody, hg⟩ := ok_of_bind hg
  cases hg
  exact ⟨rfl, rfl, rfl, rfl, hbody⟩

theorem slots_ids (hg : ofBody f = .ok g) : g.slots.map Prod.fst = Temp.ids .slot f.temps := by
  obtain ⟨-, -, -, hslots, -⟩ := ofBody_eq_ok hg
  rw [hslots, List.map_map]
  rfl

/-- The slots and the constants of a script are the temporaries of its body. -/
theorem mem_temps_iff (hproper : f.Proper m) (hg : ofBody f = .ok g) (id : Nat) :
    id ∈ g.temps ↔ id < f.temps.length := by
  obtain ⟨-, -, -, -, hbody⟩ := ofBody_eq_ok hg
  have hvalues : id ∈ bindsIn f.body ↔ id ∈ Temp.ids .value f.temps := by
    rw [← List.count_pos_iff, hproper.names.binds id]
    split <;> simp_all
  rw [temps, slots_ids hg, declares_ofStatements hbody, List.mem_append, hvalues,
    ← List.mem_range, ← hproper.typed.temps]
  constructor
  · rintro (hid | hid)
    all_goals
      obtain ⟨t, ht, rfl⟩ := List.mem_map.mp hid
      exact List.mem_map_of_mem (List.mem_filter.mp ht).1
  · intro hid
    obtain ⟨t, ht, rfl⟩ := List.mem_map.mp hid
    cases hkind : t.kind with
    | slot => exact .inl (List.mem_map_of_mem (List.mem_filter.mpr ⟨ht, decide_eq_true hkind⟩))
    | value => exact .inr (List.mem_map_of_mem (List.mem_filter.mpr ⟨ht, decide_eq_true hkind⟩))

theorem room_eq (hproper : f.Proper m) (hg : ofBody f = .ok g) : g.room = f.temps.length :=
  room_eq_of_mem_iff (mem_temps_iff hproper hg)

def zeroed (slots : List (Nat × ValueType)) (temps : Array (Option Cell)) : Array (Option Cell) :=
  slots.foldl (fun temps (id, type) => temps.setIfInBounds id (some (.zero type))) temps

theorem size_zeroed (slots : List (Nat × ValueType)) (temps : Array (Option Cell)) :
    (zeroed slots temps).size = temps.size := by
  induction slots generalizing temps with
  | nil => rfl
  | cons slot slots ih => exact (ih _).trans Array.size_setIfInBounds

theorem zeroed_of_not_mem {slots : List (Nat × ValueType)} {i : Nat}
    (h : i ∉ slots.map Prod.fst) (temps : Array (Option Cell)) :
    (zeroed slots temps)[i]? = temps[i]? := by
  induction slots generalizing temps with
  | nil => rfl
  | cons slot slots ih =>
    obtain ⟨hne, hrest⟩ := not_or.mp (List.mem_cons.not.mp h)
    exact (ih hrest _).trans (Array.getElem?_setIfInBounds_ne (Ne.symm hne))

theorem zeroed_of_mem {slots : List (Nat × ValueType)} (hnodup : (slots.map Prod.fst).Nodup)
    {i : Nat} {type : ValueType} (h : (i, type) ∈ slots) {temps : Array (Option Cell)}
    (hlt : i < temps.size) : (zeroed slots temps)[i]? = some (some (.zero type)) := by
  induction slots generalizing temps with
  | nil => cases h
  | cons slot slots ih =>
    obtain ⟨hnot, hnodup⟩ := List.nodup_cons.mp hnodup
    rcases List.mem_cons.mp h with rfl | h
    · exact (zeroed_of_not_mem hnot _).trans (Array.getElem?_setIfInBounds_self_of_lt hlt)
    · exact ih hnodup h (Array.size_setIfInBounds.symm ▸ hlt)

/-- A script starts with the variables that its body starts with. -/
theorem start_eq (hproper : f.Proper m) (hg : ofBody f = .ok g) (args : List Cell)
    (store : Store σ) :
    g.start args store
      = ⟨(args ++ f.locals.map Cell.zero).toArray, (f.temps.map Temp.initial).toArray, store⟩ := by
  obtain ⟨-, hlocals, -, hslots, -⟩ := ofBody_eq_ok hg
  have hids := slots_ids hg
  have hnodup : (g.slots.map Prod.fst).Nodup := by
    have hall : (f.temps.map Temp.id).Nodup := hproper.typed.temps ▸ List.nodup_range
    rw [hids]
    exact hall.sublist (List.filter_sublist.map _)
  have htemps : zeroed g.slots (Array.replicate g.room none)
      = (f.temps.map Temp.initial).toArray := by
    refine Array.ext_getElem? fun i => ?_
    have hinitial : (f.temps.map Temp.initial).toArray[i]? = f.temps[i]?.map Temp.initial := by
      rw [List.getElem?_toArray, List.getElem?_map]
    rw [hinitial]
    cases ht : f.temps[i]? with
    | none =>
      rw [Option.map_none, Array.getElem?_eq_none_iff, size_zeroed, Array.size_replicate,
        room_eq hproper hg]
      exact List.getElem?_eq_none_iff.mp ht
    | some t =>
      have hlt : i < g.room := by
        rw [room_eq hproper hg]
        exact (List.getElem?_eq_some_iff.mp ht).1
      have hid := hproper.temp_id ht
      have hmem := List.mem_of_getElem? ht
      rw [Option.map_some, Temp.initial]
      cases hkind : t.kind with
      | slot =>
        refine zeroed_of_mem hnodup ?_ (by rwa [Array.size_replicate])
        have hslot : t ∈ f.temps.filter fun t => t.kind = .slot :=
          List.mem_filter.mpr ⟨hmem, decide_eq_true hkind⟩
        rw [hslots, ← hid]
        exact List.mem_map_of_mem hslot
      | value =>
        rw [zeroed_of_not_mem, Array.getElem?_replicate, if_pos hlt]
        -- No other temporary has the number of this one.
        intro hslot
        rw [hids] at hslot
        obtain ⟨u, hu, huid⟩ := List.mem_map.mp hslot
        obtain ⟨hu, hukind⟩ := List.mem_filter.mp hu
        obtain ⟨j, hj⟩ := List.mem_iff_getElem?.mp hu
        obtain rfl : j = i := (hproper.temp_id hj).symm.trans huid
        rw [ht] at hj
        cases hj
        rw [hkind] at hukind
        cases of_decide_eq_true hukind
  have hstart : g.start args store = ⟨(args ++ g.locals.map Cell.zero).toArray,
      zeroed g.slots (Array.replicate g.room none), store⟩ := rfl
  rw [hstart, hlocals, htemps]

/-- The body of a function is ready where it starts. -/
theorem ready (hproper : f.Proper m) (hsmall : AllSmall f.body)
    (htables : ∀ branches ∈ tablesAll f.body, Uniform branches) :
    Ready (f.scope m) { known := Temp.ids .slot f.temps } f.body where
  typed := hproper.typed.body
  placed := hproper.names.placed
  fresh := hproper.fresh
  small := hsmall
  tables := htables
  labels := hproper.names.labels
  apart _ h := absurd h List.not_mem_nil

/-- A call of the script of a function does what a call of the function does. -/
theorem run_ofBody (hproper : f.Proper m) (hsmall : AllSmall f.body)
    (htables : ∀ branches ∈ tablesAll f.body, Uniform branches) (hg : ofBody f = .ok g)
    (ha : Unwatched (f.scope m) count F around) (hturns : 0 < around.turns)
    (hargs : FitAll args f.params) (hstore : store.Fits m count) :
    g.run around args store = f.run around args store := by
  obtain ⟨hcount, -, -, -, hbody⟩ := ofBody_eq_ok hg
  have hready := ready hproper hsmall htables
  have hfits := hproper.fits_start hargs hstore
  have hrel := related_ofStatements ha hturns hready hbody
    ⟨hfits, hfits, rfl, rfl, rfl, fun _ _ => rfl⟩
  have hends :=
    (IR.Run.agree_executeAll ha.toSurroundingsAgree hready.typed hready.placed hready.fresh _
      hfits).2
  unfold run IR.Function.run
  rw [if_pos (hargs.length_eq.trans hcount.symm), start_eq hproper hg]
  dsimp only
  generalize executeAll around g.body _ = r at hrel
  generalize IR.Run.executeAll around f.body _ = r' at hrel hends
  cases hrel with
  | @error e v w hsame =>
    dsimp only
    rw [hsame]
  | @ok ending v w hafter =>
    dsimp only
    rw [hafter.matches.same.store]
    cases ending with
    | next =>
      -- A function that falls off its end has no results.
      have hnone : f.results = [] := hproper.ends.resolve_right (not_not_intro hends.1)
      rw [IR.Function.results?, if_pos hnone]
    | _ => rfl

end Function

/-! ### Inner functions -/

namespace Program

variable {p : Program} {c : Checked} {host : Host σ} {turns : Nat} {fs : List IR.Function}
variable {gs : List Function}

theorem exists_script_of_mem (h : functionsOf fs = .ok gs) (hf : f ∈ fs) :
    ∃ g ∈ gs, Function.ofBody f = .ok g := by
  induction fs generalizing gs with
  | nil => cases hf
  | cons f' fs ih =>
    obtain ⟨g, hg, h⟩ := ok_of_bind h
    obtain ⟨gs', hgs', h⟩ := ok_of_bind h
    cases h
    rcases List.mem_cons.mp hf with rfl | hf
    · exact ⟨g, List.mem_cons_self, hg⟩
    · obtain ⟨g', hmem, hg'⟩ := ih hgs' hf
      exact ⟨g', List.mem_cons_of_mem _ hmem, hg'⟩

theorem exists_body_of_mem (h : functionsOf fs = .ok gs) (hg : g ∈ gs) :
    ∃ f ∈ fs, Function.ofBody f = .ok g := by
  induction fs generalizing gs with
  | nil =>
    cases h
    cases hg
  | cons f' fs ih =>
    obtain ⟨g', hg', h⟩ := ok_of_bind h
    obtain ⟨gs', hgs', h⟩ := ok_of_bind h
    cases h
    rcases List.mem_cons.mp hg with rfl | hg
    · exact ⟨f', List.mem_cons_self, hg'⟩
    · obtain ⟨f, hmem, hf⟩ := ih hgs' hg
      exact ⟨f, List.mem_cons_of_mem _ hmem, hf⟩

/-- A script finds the script of a function under the index of the function. -/
theorem find?_function (hc : c.Accepted)
    (hp : ofModule c.module c.functions c.options = .ok p) (hf : f ∈ c.functions) :
    ∃ g, p.functions.find? (fun g => g.index == f.index) = some g ∧
      Function.ofBody f = .ok g := by
  obtain ⟨gs, hgs, hp⟩ := ok_of_bind hp
  cases hp
  dsimp only
  obtain ⟨g, hmem, hg⟩ := exists_script_of_mem hgs (List.mem_mergeSort.mpr hf)
  have hindex := (Function.ofBody_eq_ok hg).2.2.1
  have hsome : (gs.find? fun g => g.index == f.index).isSome :=
    List.find?_isSome.mpr ⟨g, hmem, beq_iff_eq.mpr hindex⟩
  obtain ⟨g', hfind⟩ := Option.isSome_iff_exists.mp hsome
  refine ⟨g', hfind, ?_⟩
  have hindex' : g'.index = f.index := by simpa using List.find?_some hfind
  obtain ⟨f', hf', hg'⟩ := exists_body_of_mem hgs (List.mem_of_find?_eq_some hfind)
  -- From one index one function is built.
  have hsame : f'.index = f.index := (Function.ofBody_eq_ok hg').2.2.1.symm.trans hindex'
  have hbuild := hc.built.build_of_mem (List.mem_mergeSort.mp hf')
  rw [hsame, hc.built.build_of_mem hf] at hbuild
  cases hbuild
  exact hg'

/-- How a script runs the inner function of an index. -/
def body (p : Program) (turns : Nat) (place : Nat)
    (call : Nat → List Cell → Action σ (List Cell)) (function : Nat) (args : List Cell) :
    Action σ (List Cell) := do
  let f ← Action.ofOption (p.functions.find? fun f => f.index == function)
  f.run ⟨place, call, turns, fun _ _ _ => true⟩ args

/-- The machine that runs the inner functions of a script. -/
def machine (p : Program) (m : Module) (host : Host σ) (maxPages turns : Nat) : Machine σ :=
  { module := m, host, boundary := .script, maxPages, body := p.body turns }

@[simp] theorem machine_module (m : Module) (host : Host σ) (maxPages : Nat) :
    (p.machine m host maxPages turns).module = m := rfl

/-- The inner functions of a script do what the structured bodies do. -/
theorem bodiesAgree_body (hc : c.Accepted) (hp : ofModule c.module c.functions c.options = .ok p)
    (hsmall : ∀ f ∈ c.functions, AllSmall f.body) (host : Host σ) (hturns : 0 < turns) :
    (c.machine host turns).BodiesAgree (p.body turns) := by
  refine hc.bodiesAgree_of_runs host turns ?_
  intro count place function f call args hbuild hf ha hargs s hs
  have hmem : f ∈ c.functions := by
    rw [List.getElem?_toArray] at hf
    exact List.mem_of_getElem? hf
  obtain ⟨g, hfind, hg⟩ := find?_function hc hp hmem
  rw [IR.Function.index_of_build hbuild] at hfind
  rw [body, hfind]
  exact Function.run_ofBody (IR.Function.proper_of_build hbuild) (hsmall f hmem)
    (IR.built_tables_uniform hbuild) hg ha hturns hargs hs

/-! ### Imports -/

/-- The bindings of a well-formed module are those of its imports, in order. -/
theorem forall₂_importBindings (hm : m.WellFormed) :
    List.Forall₂ (fun (x : FunctionImport × Nat) (b : ImportBinding) =>
        b.index = x.2 ∧ b.module = x.1.module ∧ b.field = x.1.name ∧
          m.types[x.1.typeIndex]? = some b.type)
      m.imports.toList.zipIdx (importBindings m) := by
  have hall : ∀ x ∈ m.imports.toList.zipIdx, x.1.typeIndex < m.types.size := by
    intro x hx
    have hmem : x.1 ∈ m.imports.toList := by
      rw [(List.mem_zipIdx' hx).2]
      exact List.getElem_mem _
    exact hm.imports x.1 (Array.mem_toList_iff.mp hmem)
  unfold importBindings
  generalize m.imports.toList.zipIdx = xs at hall
  induction xs with
  | nil => exact .nil
  | cons x xs ih =>
    obtain ⟨hx, hxs⟩ := List.forall_mem_cons.mp hall
    obtain ⟨entry, index⟩ := x
    have htype := Array.getElem?_eq_getElem hx
    simp only [List.filterMap_cons, htype, Option.map_some]
    exact .cons ⟨rfl, rfl, rfl, htype⟩ (ih hxs)

/-- The import of an index is bound under that index. -/
theorem getElem?_importBindings (hm : m.WellFormed) (i : Nat) :
    (m.imports[i]? = none ∧ (importBindings m)[i]? = none) ∨
    ∃ entry b, m.imports[i]? = some entry ∧ (importBindings m)[i]? = some b ∧ b.index = i ∧
      b.module = entry.module ∧ b.field = entry.name ∧
      m.types[entry.typeIndex]? = some b.type := by
  have hall := forall₂_importBindings hm
  have hlength := hall.length_eq
  rw [List.length_zipIdx, Array.length_toList] at hlength
  by_cases hi : i < m.imports.size
  · have hb := hall.get (i := i) (by simpa using hi) (hlength ▸ hi)
    simp only [List.get_eq_getElem, List.getElem_zipIdx, Nat.zero_add] at hb
    exact .inr ⟨m.imports[i], _, Array.getElem?_eq_getElem hi, List.getElem?_eq_getElem _, hb⟩
  · refine .inl ⟨Array.getElem?_eq_none (Nat.le_of_not_lt hi), List.getElem?_eq_none ?_⟩
    rw [← hlength]
    exact Nat.le_of_not_lt hi

/-- A binding is found under the index of its import. -/
theorem find?_import (hm : m.WellFormed) (function : Nat) :
    ((importBindings m).zipIdx.find? fun x => x.1.index == function)
      = (importBindings m)[function]?.map fun b => (b, function) := by
  -- Bindings are numbered in the order of the imports.
  have hindex {i : Nat} {b : ImportBinding} (hb : (importBindings m)[i]? = some b) :
      b.index = i := by
    rcases getElem?_importBindings hm i with ⟨-, hnone⟩ | ⟨_, b', -, hb', hi, -⟩
    · cases hnone.symm.trans hb
    · cases hb'.symm.trans hb
      exact hi
  cases hfind : (importBindings m).zipIdx.find? fun x => x.1.index == function with
  | none =>
    cases hb : (importBindings m)[function]? with
    | none => rfl
    | some b =>
      have hmem : (b, function) ∈ (importBindings m).zipIdx :=
        List.mk_mem_zipIdx_iff_getElem?.mpr hb
      exact absurd (beq_iff_eq.mpr (hindex hb)) (List.find?_eq_none.mp hfind _ hmem)
  | some x =>
    obtain ⟨b, i⟩ := x
    have hb : (importBindings m)[i]? = some b :=
      List.mk_mem_zipIdx_iff_getElem?.mp (List.mem_of_find?_eq_some hfind)
    have hfound : b.index = function := by simpa using List.find?_some hfind
    obtain rfl : i = function := (hindex hb).symm.trans hfound
    rw [hb]
    rfl

/-! ### Members -/

theorem key_of_ofExport? {e : Export} {x : Member} (h : Member.ofExport? m e = some x) :
    x.key = e.name := by
  unfold Member.ofExport? at h
  split at h
  · obtain ⟨type, -, rfl⟩ := Option.map_eq_some_iff.mp h
    rfl
  · cases h
    rfl
  · cases h
    rfl
  · cases h

/-- A name stands for the member of the export with that name. -/
theorem member?_eq (hm : m.WellFormed) (hmembers : p.members = membersOf m) (name : String) :
    p.member? name = (m.exports.find? fun e => e.name == name).bind (Member.ofExport? m) := by
  -- Names of exports are distinct, so it does not matter in which order members are looked at.
  have hunique {e : Export} {x : Member} (he : e ∈ m.exports) (hname : e.name = name)
      (hx : p.member? name = some x) : Member.ofExport? m e = some x := by
    have hmem := List.mem_of_find?_eq_some hx
    rw [hmembers, List.mem_reverse] at hmem
    obtain ⟨e', he', hx'⟩ := List.mem_filterMap.mp hmem
    have hkey : x.key = name := by simpa using List.find?_some hx
    have hsame : e'.name = e.name := by rw [← key_of_ofExport? hx', hkey, hname]
    rwa [List.inj_on_of_nodup_map hm.exportNames he' he hsame] at hx'
  have hfound {e : Export} {x : Member} (he : e ∈ m.exports) (hname : e.name = name)
      (hx : Member.ofExport? m e = some x) : (p.member? name).isSome := by
    refine List.find?_isSome.mpr ⟨x, ?_, beq_iff_eq.mpr ((key_of_ofExport? hx).trans hname)⟩
    rw [hmembers, List.mem_reverse]
    exact List.mem_filterMap.mpr ⟨e, he, hx⟩
  cases hfind : m.exports.find? fun e => e.name == name with
  | none =>
    cases hx : p.member? name with
    | none => rfl
    | some x =>
      have hmem := List.mem_of_find?_eq_some hx
      rw [hmembers, List.mem_reverse] at hmem
      obtain ⟨e, he, hx'⟩ := List.mem_filterMap.mp hmem
      have hkey : x.key = name := by simpa using List.find?_some hx
      have hname : e.name = name := (key_of_ofExport? hx').symm.trans hkey
      exact absurd (beq_iff_eq.mpr hname) (List.find?_eq_none.mp hfind e he)
  | some e =>
    have he := List.mem_of_find?_eq_some hfind
    have hname : e.name = name := by simpa using List.find?_some hfind
    rw [Option.bind_some]
    cases hx : p.member? name with
    | some x => exact (hunique he hname hx).symm
    | none =>
      cases hx' : Member.ofExport? m e with
      | none => rfl
      | some x' =>
        have hsome := hfound he hname hx'
        rw [hx] at hsome
        cases hsome

/-! ### Calls -/

section

variable (maxPages : Nat) (hm : m.WellFormed) (hmembers : p.members = membersOf m)

include hm hmembers

/-- A member is called as the export is. -/
theorem callMember_eq (invoke : Nat → Nat → List Cell → Action σ (List Cell)) :
    p.callMember invoke = (p.machine m host maxPages turns).callExported invoke := by
  funext place name args
  unfold callMember Machine.callExported machine
  rw [member?_eq hm hmembers name]
  dsimp only
  refine bind_congr fun _ => ?_
  cases hfind : m.exports.find? fun e => e.name == name with
  | none => rfl
  | some e =>
    have he := hm.exports e (List.mem_of_find?_eq_some hfind)
    obtain ⟨name', kind, index⟩ := e
    cases kind with
    | function =>
      obtain ⟨type, htype⟩ := hm.exists_functionType he
      rw [Option.bind_some, Member.ofExport?]
      dsimp only
      rw [htype]
      rfl
    | _ => rfl

/-- Calls of a script are those of a machine that runs its inner functions. -/
theorem invoke_eq (himports : p.imports = importBindings m) (depth : Nat) :
    p.invoke host turns depth = (p.machine m host maxPages turns).invoke depth := by
  induction depth with
  | zero => rfl
  | succ depth ih =>
    funext place function args
    rw [invoke, Machine.invoke, himports, find?_import hm function, machine_module]
    rcases getElem?_importBindings hm function with
      ⟨hnone, hnone'⟩ | ⟨entry, b, hentry, hb, -, hmodule, hfield, htype⟩
    · rw [hnone, hnone', ih]
      rfl
    · rw [hentry, hb, Option.map_some]
      dsimp only
      rw [Machine.callImport, callMember_eq maxPages hm hmembers, ih, machine_module, htype,
        hmodule, hfield]
      simp only [bind_assoc]
      rfl

theorem callMember_invoke_eq (himports : p.imports = importBindings m) (depth : Nat) :
    p.callMember (p.invoke host turns depth)
      = (p.machine m host maxPages turns).callExport depth := by
  rw [callMember_eq maxPages hm hmembers, invoke_eq maxPages hm hmembers himports]
  rfl

end

/-! ### Instances -/

/-- A script binds for each import what the module asks for. -/
theorem bindImports_eq (hm : m.WellFormed) (imports : HostValue) :
    bindImports (σ := σ) imports (importBindings m)
      = Machine.bindFunctions imports m.imports.toList := by
  have hall := forall₂_importBindings hm
  rw [← List.zipIdx_map_fst 0 m.imports.toList]
  generalize m.imports.toList.zipIdx = xs at hall
  generalize importBindings m = bs at hall
  induction hall with
  | nil => rfl
  | cons hb _ ih =>
    obtain ⟨-, hmodule, hfield, -⟩ := hb
    rw [List.map_cons, bindImports, Machine.bindFunctions, ih, hmodule, hfield]

theorem bindMemory_eq {options : Options} (imports : HostValue) :
    bindMemory imports (memoryBinding m options)
      = (p.machine m host options.maxPages turns).linkMemory imports := by
  unfold memoryBinding Machine.linkMemory machine
  dsimp only
  cases m.memory with
  | none => rfl
  | some limits => cases m.memoryImport <;> rfl

/-- A script is run as a machine that runs its inner functions. -/
theorem instantiate_eq {functions : List IR.Function} {options : Options} (hm : m.WellFormed)
    (hp : ofModule m functions options = .ok p) (depth : Nat) (imports : HostValue) :
    p.instantiate host turns depth imports
      = (p.machine m host options.maxPages turns).instantiate depth imports := by
  obtain ⟨gs, -, hp⟩ := ok_of_bind hp
  cases hp
  have hglobals : (m.globals.toList.map fun g => Cell.plain g.init).toArray
      = m.globals.map fun g => .plain g.init := by
    rw [← Array.toList_map, Array.toArray_toList]
  unfold instantiate Machine.instantiate Machine.link
  rw [invoke_eq options.maxPages hm rfl rfl]
  dsimp only
  rw [bindImports_eq hm, bindMemory_eq, hglobals]
  simp only [bind_assoc]
  rfl

theorem handedOut_eq {maxPages : Nat} (hm : m.WellFormed) (hmembers : p.members = membersOf m)
    (place : Nat) (name : String) :
    p.handedOut place name = (p.machine m host maxPages turns).exportNamed place name := by
  unfold handedOut Machine.exportNamed machine
  rw [member?_eq hm hmembers]
  dsimp only
  cases hfind : m.exports.find? fun e => e.name == name with
  | none => rfl
  | some e =>
    have he := hm.exports e (List.mem_of_find?_eq_some hfind)
    obtain ⟨name', kind, index⟩ := e
    rw [Option.bind_some, Member.ofExport?]
    unfold Machine.exported
    cases kind with
    | function =>
      obtain ⟨type, htype⟩ := hm.exists_functionType he
      dsimp only
      rw [htype]
      rfl
    | _ => rfl

end Program

/-- The script of a module, run from a sound store, makes the same instances as the machine of
structured bodies, its members do the same when they are called, and it hands out the same under
each name. -/
theorem script_runs_as_machine {bytes : ByteArray} {options : TranspileOptions} {out : Output}
    (h : transpile bytes options = .ok out) (hsize : bytes.size ≤ 2 ^ 31) (host : Host σ)
    {turns : Nat} (hturns : 0 < turns) (depth : Nat) {s : Store σ} (hs : s.Sound out.module) :
    let M := out.machine host turns
    ∃ p, Program.ofModule out.module out.functions out.options = .ok p ∧ p.text = out.code ∧
      (∀ imports, p.instantiate host turns depth imports s = M.instantiate depth imports s) ∧
      (∀ place name args,
        p.callMember (p.invoke host turns depth) place name args s
          = M.callExport depth place name args s) ∧
      ∀ place name, p.handedOut place name s = M.exportNamed place name s := by
  intro M
  obtain ⟨hcheck, hcode⟩ := generate_of_transpile h
  obtain ⟨p, hp, htext⟩ := map_ok hcode
  have haccepted := accepted_of_check hcheck
  have hm := haccepted.wellFormed
  -- Bytes of this size hold no table of branches whose indices would not fit a word.
  have hsmall (f : IR.Function) (hf : f ∈ out.functions) : AllSmall f.body :=
    IR.Function.small_of_decode hsize (built_of_check hcheck).1 (haccepted.built.build_of_mem hf)
  -- Each function of the script does what its structured body does, so calls agree to any depth.
  have hagree : M.BodiesAgree (p.body turns) :=
    Program.bodiesAgree_body haccepted hp hsmall host hturns
  obtain ⟨himports, -, hmembers⟩ := Program.ofModule_eq_ok hp
  refine ⟨p, hp, htext, ?_, ?_, ?_⟩
  · intro imports
    rw [Program.instantiate_eq hm hp]
    exact (Machine.agree_instantiate hagree depth s hs).1.symm
  · intro place name args
    rw [Program.callMember_invoke_eq out.options.maxPages hm hmembers himports]
    exact (Machine.agree_callExported hm rfl (Machine.agree_invoke hagree depth) place name args
      s hs).1.symm
  · intro place name
    have hsame : (p.machine out.module host out.options.maxPages turns).exportNamed place name
      = M.exportNamed place name := rfl
    rw [← hsame, Program.handedOut_eq hm hmembers]

end WasmScript.Script
