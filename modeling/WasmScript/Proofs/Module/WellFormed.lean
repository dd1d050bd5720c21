/-
  WasmScript/Proofs/Module/WellFormed.lean
  ========================================
  **Well-formed modules** — what holds of every module that is read from bytes.

  What a section is checked against comes from the sections before it, so the checks hold
  of the whole module only because of the order of the sections: when a section is read,
  the ones after it are still empty, and once it is read, none before it changes.
  `Progress.Fresh` says the first, and from it `WellFormed` is carried through the sections.
-/
import WasmScript.Module.Decode.Module
import WasmScript.Proofs.Module.IntegerLoops

namespace WasmScript

/-! ### Instructions and bodies -/

/-- What holds of an instruction of a module with so many functions. -/
def Instruction.WellFormed (functions : Nat) : Instruction → Prop
  | .call function => function < functions
  | .const v => v.Canonical
  | .numeric opcode => (NumericOp.ofOpcode? opcode).isSome
  | .load opcode arg => ∃ access, Access.ofOpcode? opcode = some access ∧ access.isStore = false
      ∧ arg.align ≤ access.naturalAlignment
  | .store opcode arg => ∃ access, Access.ofOpcode? opcode = some access ∧ access.isStore = true
      ∧ arg.align ≤ access.naturalAlignment
  | _ => True

/-- Whether the last of some instructions is the `end` that closes the function, `depth` blocks
being open, and none before it is. -/
def Instruction.closes : (depth : Nat) → List Instruction → Bool
  | _, [] => false
  | 0, .endMark :: rest => rest.isEmpty
  | depth + 1, .endMark :: rest => closes depth rest
  | depth, i :: rest => closes (if i.opensBlock then depth + 1 else depth) rest

theorem Instruction.closes_cons {i : Instruction} {rest : List Instruction} {depth : Nat}
    (hend : i ≠ .endMark) :
    closes depth (i :: rest) = closes (if i.opensBlock then depth + 1 else depth) rest := by
  cases i <;> cases depth <;> first | rfl | exact (hend rfl).elim

/-- What holds of a body in a module with so many functions. -/
structure Body.WellFormed (functions : Nat) (b : Body) : Prop where
  locals : b.locals.size ≤ Decode.maxLocals
  instructions : ∀ l ∈ b.instructions.toList, l.instruction.WellFormed functions
  closes : Instruction.closes 0 (b.instructions.toList.map Located.instruction)

namespace Decode

open WasmScript.Parser

variable {scope : Scope}

theorem ensures_memArg (a : Access) :
    (memArg a).Ensures fun arg => arg.align ≤ a.naturalAlignment := by
  refine .next fun pos => .next fun align => ?_
  split
  · exact ensures_failAt _ _
  split
  · exact ensures_failAt _ _
  · next hle => exact .next fun offset => ensures_pure (Nat.le_of_not_lt hle)

theorem ensures_escaped (pos : Nat) :
    (escaped pos).Ensures (Instruction.WellFormed scope.functions) := by
  refine .next fun number => ?_
  split
  · exact .next fun _ => .next fun _ => ensures_pure trivial
  · exact .next fun _ => ensures_pure trivial
  · exact ensures_failAt _ _
  · exact ensures_failAt _ _
  · split
    · exact ensures_failAt _ _
    split
    · exact ensures_failAt _ _
    · exact ensures_failAt _ _

theorem ensures_plain (pos byte : Nat) :
    (plain pos byte).Ensures (Instruction.WellFormed scope.functions) := by
  unfold plain
  repeat' split
  all_goals first
    | exact ensures_failAt _ _
    | next h => exact ensures_pure h

theorem ensures_access (pos byte : Nat) :
    (access pos byte).Ensures (Instruction.WellFormed scope.functions) := by
  unfold access
  split
  · next a ha =>
    refine .bind (ensures_memArg a) fun arg harg => ensures_pure ?_
    cases hstore : a.isStore with
    | true => exact ⟨a, ha, hstore, harg⟩
    | false => exact ⟨a, ha, hstore, harg⟩
  · exact ensures_failAt _ _

theorem ensures_operation (pos first : Nat) :
    (operation scope pos first).Ensures (Instruction.WellFormed scope.functions) := by
  unfold operation
  split
  -- The cases are the groups of codes, and those at the end read nothing that could be wrong.
  case h_10 => exact .next fun depths => .next fun default => ensures_pure trivial
  case h_12 =>
    refine .next fun index => ?_
    split
    · next hlt => exact ensures_pure hlt
    · exact ensures_failAt _ _
  case h_16 =>
    refine .next fun types => ?_
    split
    · exact ensures_pure trivial
    · exact ensures_failAt _ _
  case h_22 => exact .next fun _ => ensures_pure trivial
  case h_23 => exact .next fun _ => ensures_pure trivial
  case h_24 => exact ensures_s32.map fun _ h => h
  case h_25 => exact ensures_s64.map fun _ h => h
  case h_28 => exact ensures_escaped pos
  case h_31 => exact ensures_access pos first
  case h_32 => exact ensures_plain pos first
  all_goals first
    | exact ensures_pure trivial
    | exact .mapped fun _ => trivial
    | exact ensures_failAt _ _

theorem ensures_instruction :
    (instruction scope).Ensures fun l => l.instruction.WellFormed scope.functions :=
  .next fun pos => .next fun first =>
    .bind (ensures_operation pos first) fun _ h => ensures_pure h

/-- The instructions that are read after some others. -/
theorem ensures_instructions (fuel : Nat) :
    ∀ (depth : Nat) (read : Array Located), (instructions scope fuel depth read).Ensures fun all =>
      ∃ ls, all.toList = read.toList ++ ls ∧ (∀ l ∈ ls, l.instruction.WellFormed scope.functions) ∧
        Instruction.closes depth (ls.map Located.instruction) := by
  induction fuel with
  | zero => exact fun depth read => ensures_fail _
  | succ fuel ih =>
    intro depth read
    refine .bind ensures_instruction fun next hnext => ?_
    -- What is read after `next`, when so many blocks are open.
    have hrest (depth' : Nat) (hcloses : ∀ rest, Instruction.closes depth' rest →
        Instruction.closes depth (next.instruction :: rest)) :
        (instructions scope fuel depth' (read.push next)).Ensures fun all =>
          ∃ ls, all.toList = read.toList ++ ls ∧
            (∀ l ∈ ls, l.instruction.WellFormed scope.functions) ∧
            Instruction.closes depth (ls.map Located.instruction) := by
      refine (ih depth' (read.push next)).mono ?_
      rintro all ⟨ls, hall, hls, hends⟩
      refine ⟨next :: ls, ?_, List.forall_mem_cons.mpr ⟨hnext, hls⟩, hcloses _ hends⟩
      rw [hall, Array.toList_push, List.append_assoc]
      rfl
    dsimp only
    split
    · next hend =>
      refine ensures_pure ⟨[next], Array.toList_push, List.forall_mem_singleton.mpr hnext, ?_⟩
      rw [List.map_singleton, hend]
      rfl
    · next depth hend => exact hrest depth fun rest h => by rw [hend]; exact h
    · next hfirst hlater =>
      refine hrest _ fun rest h => ?_
      rwa [Instruction.closes_cons]
      intro hend
      exact hlater _ hend (Nat.succ_pred_eq_of_ne_zero fun h0 => hfirst hend h0).symm

theorem ensures_localGroups (groups : Nat) :
    ∀ locals : Array ValueType, locals.size ≤ maxLocals →
      (localGroups groups locals).Ensures fun all => all.size ≤ maxLocals := by
  induction groups with
  | zero => exact fun locals h => ensures_pure h
  | succ groups ih =>
    intro locals _
    refine .next fun pos => .next fun count => .next fun type => ?_
    split
    · exact ensures_failAt _ _
    · next hle => exact ih _ (by simpa using Nat.le_of_not_lt hle)

theorem ensures_body : (body scope).Ensures (Body.WellFormed scope.functions) := by
  refine .next fun pos => .next fun groups => .bind (ensures_localGroups groups #[] (by simp)) ?_
  intro locals hlocals
  refine .next fun left => .bind (ensures_instructions (left + 1) 0 #[]) ?_
  rintro code ⟨ls, hcode, hls, hcloses⟩
  refine .next fun rest => ?_
  split
  · exact ensures_fail _
  · obtain rfl : code.toList = ls := hcode
    exact ensures_pure ⟨hlocals, hls, hcloses⟩

end Decode

/-! ### Modules -/

/-- What holds of the sizes of a memory or a table. -/
def Limits.WellFormed (bound : Nat) (l : Limits) : Prop :=
  l.initial ≤ bound ∧ ∀ n ∈ l.maximum, l.initial ≤ n ∧ n ≤ bound

/-- What holds of a global. -/
def Global.WellFormed (g : Global) : Prop := g.init.type = g.type ∧ g.init.Canonical

namespace Module

/-- The size of the index space of a kind of export. -/
def spaceSize (m : Module) : ExportKind → Nat
  | .function => m.functionCount
  | .table => m.tables.length
  | .memory => if m.memory.isSome then 1 else 0
  | .global => m.globals.size

/-- What holds of a module some of whose sections may not have been read. -/
structure Consistent (m : Module) : Prop where
  imports : ∀ e ∈ m.imports, e.typeIndex < m.types.size
  functions : ∀ i ∈ m.functions, i < m.types.size
  memory : ∀ l ∈ m.memory, l.WellFormed Decode.maxMemoryPages
  memoryImport : m.memoryImport.isSome → m.memory.isSome
  globals : ∀ g ∈ m.globals, g.WellFormed
  exports : ∀ e ∈ m.exports, e.index < m.spaceSize e.kind
  exportNames : (m.exports.map Export.name).Nodup
  start : ∀ i ∈ m.start, i < m.functionCount ∧ m.functionType? i = some ⟨[], []⟩
  bodies : ∀ b ∈ m.bodies, b.WellFormed m.functionCount
  data : ∀ d ∈ m.data, m.memory.isSome ∧ d.offset < 2 ^ 32

theorem consistent_empty : ({} : Module).Consistent where
  imports e he := absurd he (Array.not_mem_empty e)
  functions i hi := absurd hi (Array.not_mem_empty i)
  memory := by rintro l ⟨⟩
  memoryImport h := h
  globals g hg := absurd hg (Array.not_mem_empty g)
  exports e he := absurd he List.not_mem_nil
  exportNames := List.nodup_nil
  start := by rintro i ⟨⟩
  bodies b hb := absurd hb (Array.not_mem_empty b)
  data d hd := absurd hd List.not_mem_nil

/-- What holds of a whole module. -/
structure WellFormed (m : Module) : Prop extends m.Consistent where
  bodyCount : m.bodies.size = m.functions.size

end Module

namespace Decode

open WasmScript.Parser

variable {m : Module} {p : Progress} {id other : SectionId}

/-! ### Sections that are not read yet -/

namespace Progress

/-- Whether a section has left no trace.  The memory may be imported, so its section may find
one. -/
def Unread (p : Progress) : SectionId → Prop
  | .type => p.module.types = #[]
  | .import => p.module.imports = #[]
  | .function => p.module.functions = #[]
  | .table => p.module.tables = []
  | .global => p.module.globals = #[]
  | .export => p.module.exports = []
  | .start => p.module.start = none
  | .code => p.module.bodies = #[] ∧ p.sawCode = false
  | .data => p.module.data = []
  | .custom | .memory | .element | .dataCount => True

/-- The sections of higher rank than the last one are not read yet. -/
def Fresh (last : Option Nat) (p : Progress) : Prop :=
  ∀ id : SectionId, (∀ rank ∈ last, rank < id.rank) → p.Unread id

/-- What holds of what is known after some sections. -/
structure Consistent (p : Progress) : Prop where
  module : p.module.Consistent
  bodyCount : p.sawCode → p.module.bodies.size = p.module.functions.size
  noBodies : p.sawCode = false → p.module.bodies = #[]

end Progress

/-! ### Entries of sections -/

theorem ensures_typeIndex : (typeIndex m).Ensures fun i => i < m.types.size := by
  refine .next fun pos => .next fun index => ?_
  split
  · next hlt => exact ensures_pure hlt
  · exact ensures_failAt _ _

theorem ensures_limits (bound : Nat) (what : String) :
    (limits bound what).Ensures (Limits.WellFormed bound) := by
  refine .next fun pos => .next fun flags => ?_
  split
  · exact ensures_failAt _ _
  split
  · exact ensures_failAt _ _
  split
  · exact ensures_failAt _ _
  · refine .next fun initial => .next fun maximum => ?_
    split
    · exact ensures_failAt _ _
    · next hno =>
      rw [not_or] at hno
      refine ensures_pure ⟨Nat.le_of_not_lt hno.1, ?_⟩
      rintro n hn
      obtain rfl : maximum = some n := hn
      have hbounds := hno.2
      simp only [Option.any_some, decide_eq_true_eq, not_or, not_lt] at hbounds
      exact ⟨hbounds.2, hbounds.1⟩

/-- What holds of the imports of a module with some types. -/
structure Imported (m m' : Module) : Prop where
  rest : m' = { m with
    imports := m'.imports, memory := m'.memory, memoryImport := m'.memoryImport }
  imports : ∀ e ∈ m'.imports, e.typeIndex < m.types.size
  memory : ∀ l ∈ m'.memory, l.WellFormed maxMemoryPages
  memoryImport : m'.memoryImport.isSome → m'.memory.isSome

theorem ensures_importEntry {m₀ : Module} (h : Imported m₀ m) :
    (importEntry m).Ensures (Imported m₀) := by
  have htypes : m.types = m₀.types := by rw [h.rest]
  refine .next fun source => .next fun field => .next fun pos => .next fun kind => ?_
  split
  · refine .bind ensures_typeIndex fun index hindex =>
      ensures_pure ⟨?_, ?_, h.memory, h.memoryImport⟩
    · rw [h.rest]
    · intro e he
      rcases Array.mem_push.mp he with he | rfl
      · exact h.imports e he
      · exact htypes ▸ hindex
  · exact ensures_failAt _ _
  · split
    · exact ensures_failAt _ _
    · refine .bind (ensures_limits _ _) fun found hfound =>
        ensures_pure ⟨?_, h.imports, ?_, fun _ => rfl⟩
      · rw [h.rest]
      · rintro _ ⟨⟩
        exact hfound
  · exact ensures_failAt _ _
  · exact ensures_failAt _ _

theorem ensures_importEntries {m₀ : Module} (count : Nat) :
    ∀ m : Module, Imported m₀ m → (importEntries count m).Ensures (Imported m₀) := by
  induction count with
  | zero => exact fun m h => ensures_pure h
  | succ count ih => exact fun m h => .bind (ensures_importEntry h) ih

theorem ensures_memory (h : ∀ l ∈ m.memory, l.WellFormed maxMemoryPages) :
    (memory m).Ensures fun m' => m' = { m with memory := m'.memory } ∧
      (∀ l ∈ m'.memory, l.WellFormed maxMemoryPages) ∧ (m.memory.isSome → m'.memory.isSome) := by
  refine .next fun pos => .next fun count => ?_
  split
  · exact ensures_failAt _ _
  split
  · refine .bind (ensures_limits _ _) fun found hfound => ensures_pure ⟨rfl, ?_, fun _ => rfl⟩
    rintro _ ⟨⟩
    exact hfound
  · exact ensures_pure ⟨rfl, h, fun hsome => hsome⟩

theorem ensures_literal (pos opcode : Nat) : (literal pos opcode).Ensures Value.Canonical := by
  unfold literal
  split
  · exact ensures_s32.map fun _ h => h
  · exact ensures_s64.map fun _ h => h
  all_goals exact ensures_failAt _ _

theorem ensures_constant (type : ValueType) :
    (constant type).Ensures fun v => v.type = type ∧ v.Canonical := by
  refine .next fun pos => .next fun opcode => ?_
  refine .bind (ensures_literal pos opcode) fun v hv => ?_
  split
  · exact ensures_failAt _ _
  · next htype =>
    refine .next fun last => .next fun byte => ?_
    split
    · exact ensures_failAt _ _
    · exact ensures_pure ⟨not_not.mp htype, hv⟩

theorem ensures_global : global.Ensures Global.WellFormed := by
  refine .next fun type => .next fun pos => .next fun flag => ?_
  split
  · exact ensures_failAt _ _
  · exact .bind (ensures_constant type) fun v hv => ensures_pure hv

theorem exportKind?_eq {number bound : Nat} {kind : ExportKind}
    (h : exportKind? m number = some (kind, bound)) : bound = m.spaceSize kind := by
  unfold exportKind? at h
  split at h <;> cases h <;> rfl

/-- What holds of the exports of a module. -/
def Exported (m : Module) (es : Array Export) : Prop :=
  (∀ e ∈ es, e.index < m.spaceSize e.kind) ∧ (es.toList.map Export.name).Nodup

theorem ensures_exportEntry {before : Array Export} (h : Exported m before) :
    (exportEntry m before).Ensures fun e => Exported m (before.push e) := by
  refine .next fun pos => .next fun label => ?_
  split
  · exact ensures_failAt _ _
  · next hnew =>
    refine .next fun descriptor => .next fun number => .next fun index => ?_
    split
    · next kind bound hkind =>
      split
      · next hlt =>
        refine ensures_pure ⟨?_, ?_⟩
        · intro e he
          rcases Array.mem_push.mp he with he | rfl
          · exact h.1 e he
          · exact (exportKind?_eq hkind) ▸ hlt
        · rw [Array.toList_push, List.map_append, List.nodup_append]
          refine ⟨h.2, List.pairwise_singleton _ _, ?_⟩
          intro a ha b hb hab
          obtain ⟨e, he, rfl⟩ := List.mem_map.mp ha
          obtain rfl := List.mem_singleton.mp hb
          exact hnew (Array.any_eq_true'.mpr ⟨e, Array.mem_toList_iff.mp he, by simpa using hab⟩)
      · exact ensures_failAt _ _
    · exact ensures_failAt _ _

theorem ensures_exportEntries (count : Nat) :
    ∀ read : Array Export, Exported m read → (exportEntries m count read).Ensures (Exported m) := by
  induction count with
  | zero => exact fun read h => ensures_pure h
  | succ count ih => exact fun read h => .bind (ensures_exportEntry h) fun e he => ih _ he

theorem ensures_start : (start m).Ensures fun m' =>
    ∃ i, m' = { m with start := some i } ∧ i < m.functionCount ∧ m.functionType? i =
      some ⟨[], []⟩ := by
  refine .next fun pos => .next fun index => ?_
  split
  · exact ensures_failAt _ _
  split
  · next hlt htype => exact ensures_pure ⟨index, rfl, Nat.lt_of_not_le hlt, htype⟩
  · exact ensures_failAt _ _

theorem ensures_bodies {scope : Scope} (count : Nat) :
    ∀ read : Array Body, (∀ b ∈ read, b.WellFormed scope.functions) →
      (bodies scope count read).Ensures fun all =>
        all.size = read.size + count ∧ ∀ b ∈ all, b.WellFormed scope.functions := by
  induction count with
  | zero => exact fun read h => ensures_pure ⟨rfl, h⟩
  | succ count ih =>
    intro read h
    refine .next fun size => .bind (ensures_within ensures_body) fun b hb => ?_
    refine (ih (read.push b) fun b' hb' => ?_).mono ?_
    · rcases Array.mem_push.mp hb' with hb' | rfl
      · exact h b' hb'
      · exact hb
    · rintro all ⟨hsize, hall⟩
      refine ⟨?_, hall⟩
      rw [hsize, Array.size_push]
      omega

theorem ensures_code : (code m).Ensures fun m' => m' = { m with bodies := m'.bodies } ∧
    m'.bodies.size = m.functions.size ∧ ∀ b ∈ m'.bodies, b.WellFormed m.functionCount := by
  refine .next fun pos => .next fun count => ?_
  split
  · exact ensures_failAt _ _
  · next hcount =>
    refine .bind (ensures_bodies count #[] fun b hb => absurd hb (Array.not_mem_empty b)) ?_
    rintro read ⟨hsize, hall⟩
    refine ensures_pure ⟨rfl, ?_, hall⟩
    rw [hsize, ← not_not.mp hcount]
    exact Nat.zero_add count

theorem ensures_dataSegment :
    (dataSegment m).Ensures fun d => m.memory.isSome ∧ d.offset < 2 ^ 32 := by
  refine .next fun pos => .next fun flags => .next fun _ => ?_
  split
  · exact ensures_failAt _ _
  · next hsome =>
    refine .next fun offset => .next fun size => .next fun content => ensures_pure ⟨?_, ?_⟩
    · simpa [Option.isSome_iff_ne_none] using hsome
    · have hmod := Int.emod_lt_of_pos offset.toInt (show (0 : Int) < Bits.twoPow 32 by decide)
      have htwo : (Bits.twoPow 32 : Int) = 2 ^ 32 := by decide
      change (offset.toInt % Bits.twoPow 32).toNat < 2 ^ 32
      omega

/-! ### Sections -/

theorem imported_self (h : m.Consistent) :
    Imported m m := ⟨rfl, h.imports, h.memory, h.memoryImport⟩

/-- A section leaves no trace in the others. -/
theorem ensures_unread (hconsistent : p.Consistent) (hne : other ≠ id) (h : p.Unread other) :
    (contents id p).Ensures fun p' => p'.Unread other := by
  have hm := hconsistent.module
  -- A section only changes its own fields, and those of `other` are not among them.
  cases id with
  | custom => exact ensures_pure h
  | type =>
    exact .next fun _ => ensures_pure (by cases other <;> first | exact h | exact (hne rfl).elim)
  | «import» =>
    refine .next fun count => .bind (ensures_importEntries count p.module (imported_self hm)) ?_
    intro m' hm'
    refine ensures_pure ?_
    rw [hm'.rest]
    cases other <;> first | exact h | exact (hne rfl).elim
  | function =>
    exact .next fun _ => ensures_pure (by cases other <;> first | exact h | exact (hne rfl).elim)
  | table =>
    exact .next fun _ => ensures_pure (by cases other <;> first | exact h | exact (hne rfl).elim)
  | memory =>
    refine .bind (ensures_memory hm.memory) fun m' hm' => ensures_pure ?_
    rw [hm'.1]
    cases other <;> exact h
  | global =>
    exact .next fun _ => ensures_pure (by cases other <;> first | exact h | exact (hne rfl).elim)
  | «export» =>
    exact .next fun _ => .next fun _ =>
      ensures_pure (by cases other <;> first | exact h | exact (hne rfl).elim)
  | start =>
    refine .bind ensures_start fun m' hm' => ensures_pure ?_
    obtain ⟨i, rfl, -⟩ := hm'
    cases other <;> first | exact h | exact (hne rfl).elim
  | element =>
    refine .next fun pos => .next fun count => ?_
    split
    · exact ensures_failAt _ _
    · exact ensures_pure h
  | code =>
    refine .bind ensures_code fun m' hm' => ensures_pure ?_
    rw [hm'.1]
    cases other <;> first | exact h | exact (hne rfl).elim
  | data =>
    exact .next fun _ => ensures_pure (by cases other <;> first | exact h | exact (hne rfl).elim)
  | dataCount => exact .next fun _ => ensures_pure (by cases other <;> exact h)

/-- A section is consistent with those before it, if none after it was read. -/
theorem ensures_consistent (hunread : ∀ other : SectionId, id.rank ≤ other.rank → p.Unread other)
    (h : p.Consistent) : (contents id p).Ensures Progress.Consistent := by
  have hm := h.module
  -- What is not read yet is empty, so nothing that is checked against this section is there.
  have himports (hrank : id.rank ≤ SectionId.import.rank) {P : FunctionImport → Prop} :
      ∀ e ∈ p.module.imports, P e := by
    rw [show p.module.imports = #[] from hunread _ hrank]
    exact fun e he => absurd he (Array.not_mem_empty e)
  have hfunctions (hrank : id.rank ≤ SectionId.function.rank) {P : Nat → Prop} :
      ∀ i ∈ p.module.functions, P i := by
    rw [show p.module.functions = #[] from hunread _ hrank]
    exact fun i hi => absurd hi (Array.not_mem_empty i)
  have hexports (hrank : id.rank ≤ SectionId.export.rank) {P : Export → Prop} :
      ∀ e ∈ p.module.exports, P e := by
    rw [show p.module.exports = [] from hunread _ hrank]
    exact fun e he => absurd he List.not_mem_nil
  have hstart (hrank : id.rank ≤ SectionId.start.rank) {P : Nat → Prop} :
      ∀ i ∈ p.module.start, P i := by
    rw [show p.module.start = none from hunread _ hrank]
    rintro i ⟨⟩
  have hcode (hrank : id.rank ≤ SectionId.code.rank) : p.module.bodies = #[] ∧ p.sawCode = false :=
    hunread _ hrank
  have hbodies (hrank : id.rank ≤ SectionId.code.rank) {P : Body → Prop} :
      ∀ b ∈ p.module.bodies, P b := by
    rw [(hcode hrank).1]
    exact fun b hb => absurd hb (Array.not_mem_empty b)
  have hdata (hrank : id.rank ≤ SectionId.data.rank) {P : DataSegment → Prop} :
      ∀ d ∈ p.module.data, P d := by
    rw [show p.module.data = [] from hunread _ hrank]
    exact fun d hd => absurd hd List.not_mem_nil
  cases id with
  | custom => exact ensures_pure h
  | type =>
    exact .next fun types => ensures_pure
      { h with
        module :=
          { hm with
            imports := himports (by decide), functions := hfunctions (by decide), start :=
              hstart (by decide) } }
  | «import» =>
    refine .next fun count =>
      .bind (ensures_importEntries count p.module (imported_self hm)) fun m' hm' => ?_
    have hall : m'.Consistent := by
      rw [hm'.rest]
      exact
        { hm with
          imports := hm'.imports, memory := hm'.memory, memoryImport := hm'.memoryImport
          exports := hexports (by decide), start := hstart (by decide), bodies :=
            hbodies (by decide)
          data := hdata (by decide) }
    refine ensures_pure ⟨hall, ?_, ?_⟩
    · rw [hm'.rest]
      exact h.bodyCount
    · rw [hm'.rest]
      exact h.noBodies
  | function =>
    refine .bind (ensures_vector ensures_typeIndex) fun functions hall => ensures_pure
      { h with
        module :=
          { hm with
            functions := hall, exports := hexports (by decide), start := hstart (by decide)
            bodies := hbodies (by decide) }
        bodyCount := ?_ }
    rw [(hcode (by decide)).2]
    rintro ⟨⟩
  | table =>
    exact .next fun tables =>
      ensures_pure { h with module := { hm with exports := hexports (by decide) } }
  | memory =>
    refine .bind (ensures_memory hm.memory) fun m' ⟨hrest, hmemory, hsome⟩ => ?_
    have hall : m'.Consistent := by
      rw [hrest]
      exact
        { hm with
          memory := hmemory, memoryImport := fun himport => hsome (hm.memoryImport himport)
          exports := hexports (by decide), data := hdata (by decide) }
    refine ensures_pure ⟨hall, ?_, ?_⟩
    · rw [hrest]
      exact h.bodyCount
    · rw [hrest]
      exact h.noBodies
  | global =>
    exact .bind (ensures_vector ensures_global) fun globals hall => ensures_pure
      { h with module := { hm with globals := hall, exports := hexports (by decide) } }
  | «export» =>
    refine .next fun count =>
      .bind (ensures_exportEntries count #[] ⟨?_, List.nodup_nil⟩) fun entries hall => ?_
    · exact fun e he => absurd he (Array.not_mem_empty e)
    · exact ensures_pure
        { h with
          module :=
            { hm with
              exports := fun e he => hall.1 e (Array.mem_toList_iff.mp he)
              exportNames := hall.2 } }
  | start =>
    refine .bind ensures_start fun m' hm' => ?_
    obtain ⟨i, rfl, hlt, htype⟩ := hm'
    refine ensures_pure { h with module := { hm with start := ?_ } }
    rintro _ ⟨⟩
    exact ⟨hlt, htype⟩
  | element =>
    refine .next fun pos => .next fun count => ?_
    split
    · exact ensures_failAt _ _
    · exact ensures_pure h
  | code =>
    refine .bind ensures_code fun m' ⟨hrest, hcount, hbodies⟩ => ?_
    have hall : m'.Consistent := by
      rw [hrest]
      exact { hm with bodies := hbodies }
    refine ensures_pure ⟨hall, fun _ => ?_, by rintro ⟨⟩⟩
    rw [hcount, hrest]
  | data =>
    exact .bind (ensures_vector ensures_dataSegment) fun segments hall => ensures_pure
      { h with module := { hm with data := fun d hd => hall d (Array.mem_toList_iff.mp hd) } }
  | dataCount => exact .next fun _ => ensures_pure { h with }

/-- What a section leaves behind, if it comes after the last one and fills its stretch. -/
theorem ensures_section {last : Option Nat} {start : Nat} (hfresh : p.Fresh last)
    (h : p.Consistent) :
    (if last.any fun rank => decide (id.rank ≤ rank) then
        failAt (.sectionOrder id.name) start
      else do
        let p ← contents id p
        let rest ← remaining
        if rest ≠ 0 then fail (.unreadBytes id.name rest) else pure p : Parser Progress).Ensures
      fun p' => p'.Fresh (some id.rank) ∧ p'.Consistent := by
  split
  · exact ensures_failAt _ _
  · next horder =>
    have hlater : ∀ rank ∈ last, rank < id.rank := by
      rintro rank hrank
      obtain rfl : last = some rank := hrank
      simpa using horder
    -- Sections that come later in the order have not been read, so their fields are empty.
    have hunread (other : SectionId) (hrank : id.rank ≤ other.rank) : p.Unread other :=
      hfresh other fun rank hlast => Nat.lt_of_lt_of_le (hlater rank hlast) hrank
    have hcontents : (contents id p).Ensures fun p' => p'.Fresh (some id.rank) ∧ p'.Consistent := by
      intro r p' r' hr
      refine ⟨fun other hother => ?_, ensures_consistent hunread h r p' r' hr⟩
      have hlt : id.rank < other.rank := hother id.rank rfl
      have hne : other ≠ id := by
        rintro rfl
        exact Nat.lt_irrefl _ hlt
      exact ensures_unread h hne (hunread other (Nat.le_of_lt hlt)) r p' r' hr
    refine .bind hcontents fun p' hp' => .next fun rest => ?_
    split
    · exact ensures_fail _
    · exact ensures_pure hp'

theorem ensures_sections (fuel : Nat) :
    ∀ (last : Option Nat) (p : Progress), p.Fresh last → p.Consistent →
      (sections fuel last p).Ensures Progress.Consistent := by
  -- The induction is on the fuel: between sections all is consistent, and those of a higher rank
  -- are unread.
  induction fuel with
  | zero => exact fun last p _ h => ensures_pure h
  | succ fuel ih =>
    intro last p hfresh h
    refine .next fun left => ?_
    dsimp only
    split
    · exact ensures_pure h
    refine .next fun _ => .next fun start => .next fun number => ?_
    split
    · exact ensures_failAt _ _
    · refine .next fun _ => .next fun size => .next fun label => ih last _ ?_ ?_
      · intro other hother
        have hother := hfresh other hother
        cases other <;> exact hother
      · exact { h with module := { h.module with } }
    · next id _ _ =>
      refine .next fun _ => .next fun size => .bind (ensures_within (ensures_section hfresh h)) ?_
      exact fun p' hp' => ih _ p' hp'.1 hp'.2

theorem ensures_finish (h : p.Consistent) : (finish p).Ensures Module.WellFormed := by
  unfold finish
  dsimp only
  split
  · exact ensures_fail _
  · next hcount =>
    have hwell : p.module.WellFormed := by
      refine ⟨h.module, ?_⟩
      cases hsaw : p.sawCode with
      | true => exact h.bodyCount hsaw
      | false =>
        have hnone : p.module.functions.size = 0 := by
          by_contra hne
          exact hcount ⟨by rw [hsaw]; exact Bool.false_ne_true, Nat.pos_of_ne_zero hne⟩
        rw [h.noBodies hsaw, hnone]
        rfl
    split
    · split
      · exact ensures_fail _
      · exact ensures_pure hwell
    · exact ensures_pure hwell

theorem ensures_module : module.Ensures Module.WellFormed := by
  have hnone : ({} : Progress).Fresh none := by
    intro id _
    cases id <;> first | rfl | trivial
  refine .next fun _ => .next fun left => .bind (ensures_sections (left + 1) none {} hnone ?_) ?_
  · exact ⟨Module.consistent_empty, by rintro ⟨⟩, fun _ => rfl⟩
  · exact fun p hp => ensures_finish hp

end Decode

/-- Whatever is read from bytes is well-formed. -/
theorem Module.wellFormed_of_decode {bytes : ByteArray} {m : Module} (h : decode bytes = .ok m) :
    m.WellFormed := by
  unfold decode at h
  split at h
  · next m' _ hok =>
    cases h
    exact Decode.ensures_module _ _ _ hok
  · cases h

namespace Module.WellFormed

variable {m : Module} (h : m.WellFormed)
include h

/-- Each defined function has a type and a body. -/
theorem exists_function {i : Nat} (hi : i < m.functions.size) :
    ∃ type body, m.functionType? (m.imports.size + i) = some type ∧ m.bodies[i]? = some body ∧
      body.WellFormed m.functionCount := by
  have htype := h.functions _ (Array.getElem_mem hi)
  have hbody : i < m.bodies.size := h.bodyCount ▸ hi
  refine ⟨m.types[m.functions[i]], m.bodies[i], ?_, Array.getElem?_eq_getElem hbody,
    h.bodies _ (Array.getElem_mem hbody)⟩
  rw [functionType?, Array.getElem?_eq_none (Nat.le_add_right _ _), Nat.add_sub_cancel_left,
    Array.getElem?_eq_getElem hi]
  exact Array.getElem?_eq_getElem htype

/-- Each function has a type, imported or defined. -/
theorem exists_functionType {index : Nat} (hindex : index < m.functionCount) :
    ∃ type, m.functionType? index = some type := by
  by_cases himport : index < m.imports.size
  · have htype := h.imports _ (Array.getElem_mem himport)
    rw [functionType?, Array.getElem?_eq_getElem himport]
    exact ⟨_, Array.getElem?_eq_getElem htype⟩
  · obtain ⟨i, rfl⟩ := Nat.exists_eq_add_of_le (Nat.le_of_not_lt himport)
    have hlt : i < m.functions.size := by
      unfold functionCount at hindex
      omega
    obtain ⟨type, body, htype, -⟩ := h.exists_function hlt
    exact ⟨type, htype⟩

end Module.WellFormed

end WasmScript
