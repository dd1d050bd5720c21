/-
  WasmScript/Proofs/Module/Moving.lean
  ====================================
  **Modules read further on** — what a module is when its sections stand at other offsets.

  Of what is read of a module only bodies and their instructions have offsets.  Where the bytes
  from `k` on are moved by `d`, so are the offsets from `k` on, and everything else stays
  (`Module.moved`).  What a section adds to a module is the same in both places, whatever the
  custom sections read so far are: `Decode.local_contents`.
-/
import WasmScript.Proofs.Module.Locality

namespace WasmScript

/-- An offset where the bytes from `k` on are moved by `d`. -/
def movedOffset (k d pos : Nat) : Nat := if k ≤ pos then pos + d else pos

theorem movedOffset_of_le {k pos : Nat} (d : Nat) (h : k ≤ pos) :
    movedOffset k d pos = pos + d := if_pos h

theorem movedOffset_of_lt {k pos : Nat} (d : Nat) (h : pos < k) : movedOffset k d pos = pos :=
  if_neg (Nat.not_le.mpr h)

theorem movedOffset_zero (k pos : Nat) : movedOffset k 0 pos = pos := by
  unfold movedOffset
  split <;> rfl

def Located.moved (k d : Nat) (l : Located) : Located := { l with pos := movedOffset k d l.pos }

def Body.moved (k d : Nat) (b : Body) : Body :=
  { b with instructions := b.instructions.map (Located.moved k d), pos := movedOffset k d b.pos }

/-- A module whose bytes from `k` on are moved by `d`, with some custom sections. -/
def Module.moved (k d : Nat) (names : List String) (m : Module) : Module :=
  { m with bodies := m.bodies.map (Body.moved k d), customSections := names }

def Decode.Progress.moved (k d : Nat) (names : List String) (p : Progress) : Progress :=
  { p with module := p.module.moved k d names }

theorem Located.moved_zero (k : Nat) : Located.moved k 0 = id := by
  funext l
  simp only [Located.moved, movedOffset_zero, id]

theorem Body.moved_zero (k : Nat) : Body.moved k 0 = id := by
  funext b
  simp only [Body.moved, movedOffset_zero, Located.moved_zero, Array.map_id, id]

theorem Module.moved_zero (k : Nat) (m : Module) : m.moved k 0 m.customSections = m := by
  simp only [Module.moved, Body.moved_zero, Array.map_id]

namespace Decode

open WasmScript.Parser

variable {scope : Scope} {k d start : Nat} {m : Module} {p : Progress} {names : List String}

/-! ### Bodies -/

theorem local_instruction (hk : k ≤ start) :
    Local start d (instruction scope) (instruction scope) fun l l' => l' = l.moved k d := by
  refine .placed fun pos hpos => .next steady_byte fun first => (local_operation pos first).bind ?_
  rintro i _ rfl
  refine .pure ?_
  rw [Located.moved, movedOffset_of_le d (hk.trans hpos)]

theorem local_instructions (hk : k ≤ start) (fuel : Nat) : ∀ (depth : Nat) (read : Array Located),
    Local start d (instructions scope fuel depth read)
      (instructions scope fuel depth (read.map (Located.moved k d)))
      fun all all' => all' = all.map (Located.moved k d) := by
  induction fuel with
  | zero => exact fun depth read => .fail _
  | succ fuel ih =>
    intro depth read
    refine (local_instruction hk).bind ?_
    rintro next _ rfl
    have hpush : (read.map (Located.moved k d)).push (next.moved k d) =
        (read.push next).map (Located.moved k d) :=
      Array.map_push.symm
    rw [hpush]
    dsimp only [Located.moved]
    split
    · exact .pure rfl
    · exact ih _ _
    · exact ih _ _

theorem steady_localGroups (groups : Nat) :
    ∀ locals : Array ValueType, Steady (localGroups groups locals) := by
  induction groups with
  | zero => exact fun locals => .pure _
  | succ groups ih =>
    intro locals
    refine .placed fun pos d => .next steady_u32 fun count => .next steady_valueType fun type => ?_
    exact .ite (.failAt _) (ih _ _ _)

theorem local_body (hk : k ≤ start) :
    Local start d (body scope) (body scope) fun b b' => b' = b.moved k d := by
  refine .placed fun pos hpos => .next steady_u32 fun groups =>
    .next (steady_localGroups groups #[]) fun locals => ?_
  refine .next steady_remaining fun left => ?_
  have hcode := @local_instructions scope k d pos (hk.trans hpos) (left + 1) 0 #[]
  rw [Array.map_empty] at hcode
  refine hcode.bind ?_
  rintro code _ rfl
  refine .next steady_remaining fun rest => .ite (.fail _) (.pure ?_)
  rw [Body.moved, movedOffset_of_le d (hk.trans hpos)]

theorem local_bodies (hk : k ≤ start) (count : Nat) : ∀ read : Array Body,
    Local start d (bodies scope count read) (bodies scope count (read.map (Body.moved k d)))
      fun all all' => all' = all.map (Body.moved k d) := by
  induction count with
  | zero => exact fun read => .pure rfl
  | succ count ih =>
    intro read
    refine .next steady_u32 fun size => ((local_body hk).within size).bind ?_
    rintro next _ rfl
    have hpush : (read.map (Body.moved k d)).push (next.moved k d) =
        (read.push next).map (Body.moved k d) :=
      Array.map_push.symm
    rw [hpush]
    exact ih _

theorem local_code (hk : k ≤ start) :
    Local start d (code m) (code (m.moved k d names)) fun m' m'' => m'' = m'.moved k d names := by
  refine .placed fun pos hpos => .next steady_u32 fun count => .ite (.failAt _) ?_
  have hbodies := @local_bodies ⟨m.types, m.functionCount⟩ k d pos (hk.trans hpos) count #[]
  rw [Array.map_empty] at hbodies
  refine hbodies.bind ?_
  rintro read _ rfl
  exact .pure rfl

/-! ### Types, limits and imports -/

theorem steady_functionType : Steady functionType := by
  refine .placed fun pos d => .next steady_byte fun form => .ite (.ite (.failAt _) (.failAt _)) ?_
  exact .next (steady_vector steady_valueType) fun params =>
    .next (steady_vector steady_valueType) fun results => .pure rfl

theorem steady_typeIndex (m : Module) : Steady (typeIndex m) :=
  .placed fun _ _ => .next steady_u32 fun _ => .ite (.pure rfl) (.failAt _)

theorem steady_limits (bound : Nat) (what : String) : Steady (limits bound what) := by
  have hlargest (flags : Nat) : Steady (largest flags) := .ite steady_u32.map (.pure none)
  refine .placed fun pos d => .next steady_byte fun flags => ?_
  refine .ite (.failAt _) (.ite (.failAt _) (.ite (.failAt _) ?_))
  exact .next steady_u32 fun initial => .next (hlargest flags) fun maximum =>
    .ite (.failAt _) (.pure rfl)

theorem steady_table : Steady table :=
  .placed fun _ _ => .next steady_byte fun _ => .ite (steady_limits _ _ _ _) (.failAt _)

theorem local_importEntry :
    Local start d (importEntry m) (importEntry (m.moved k d names)) fun m' m'' =>
      m'' = m'.moved k d names := by
  refine .next steady_name fun source => .next steady_name fun field => .placed fun pos _ => ?_
  refine .next steady_byte fun kind => ?_
  split
  · exact .next (steady_typeIndex m) fun index => .pure rfl
  · exact .failAt _
  · exact .ite (.failAt _) (.next (steady_limits _ _) fun found => .pure rfl)
  · exact .failAt _
  · exact .failAt _

theorem local_importEntries (count : Nat) : ∀ m : Module,
    Local start d (importEntries count m) (importEntries count (m.moved k d names))
      fun m' m'' => m'' = m'.moved k d names := by
  induction count with
  | zero => exact fun m => .pure rfl
  | succ count ih =>
    intro m
    refine local_importEntry.bind ?_
    rintro m' _ rfl
    exact ih m'

theorem local_memory :
    Local start d (memory m) (memory (m.moved k d names)) fun m' m'' =>
      m'' = m'.moved k d names := by
  refine .placed fun pos _ => .next steady_u32 fun count => .ite (.failAt _) (.ite ?_ (.pure rfl))
  exact .next (steady_limits _ _) fun found => .pure rfl

/-! ### Globals, exports and data -/

theorem local_literal (pos opcode : Nat) :
    Local pos d (literal pos opcode) (literal (pos + d) opcode) Eq := by
  unfold literal
  split
  · exact steady_s32.map pos d
  · exact steady_s64.map pos d
  all_goals exact .failAt _

theorem steady_constant (type : ValueType) : Steady (constant type) := by
  refine .placed fun pos d => .next steady_byte fun opcode => (local_literal pos opcode).bind ?_
  rintro value _ rfl
  refine .ite (.failAt _) (.placed fun last _ => .next steady_byte fun b => ?_)
  exact .ite (.failAt _) (.pure rfl)

theorem steady_global : Steady global := by
  refine .bind steady_valueType fun type => .placed fun pos d => .next steady_byte fun flag => ?_
  exact .ite (.failAt _) (.next (steady_constant type) fun value => .pure rfl)

theorem steady_exportEntry (m : Module) (before : Array Export) :
    Steady (exportEntry m before) := by
  refine .placed fun pos d => .next steady_name fun label =>
    .ite (.failAt _) (.placed fun descriptor _ => ?_)
  refine .next steady_byte fun kind => .next steady_u32 fun index => ?_
  split
  · exact .ite (.pure rfl) (.failAt _)
  · exact .failAt _

theorem steady_exportEntries (m : Module) (count : Nat) :
    ∀ read : Array Export, Steady (exportEntries m count read) := by
  induction count with
  | zero => exact fun read => .pure _
  | succ count ih => exact fun read => .bind (steady_exportEntry m read) fun e => ih _

theorem exportEntries_moved (m : Module) (count : Nat) :
    ∀ read : Array Export, exportEntries (m.moved k d names) count read =
      exportEntries m count read := by
  induction count with
  | zero => exact fun read => rfl
  | succ count ih =>
    intro read
    simp only [exportEntries, ih]
    rfl

theorem local_start :
    Local start d (Decode.start m) (Decode.start (m.moved k d names)) fun m' m'' =>
      m'' = m'.moved k d names :=
  .placed fun _ _ => .next steady_u32 fun _ => .ite (.failAt _) (.ite (.pure rfl) (.failAt _))

theorem steady_dataSegment (m : Module) : Steady (dataSegment m) := by
  have hflags (pos d flags : Nat) :
      Local pos d (dataFlags pos flags) (dataFlags (pos + d) flags) Eq :=
    .ite (.failAt _) (.ite (steady_memoryIndex _ _) (.ite (.failAt _) (.pure rfl)))
  refine .placed fun pos d => .next steady_u32 fun flags => (hflags pos d flags).bind ?_
  rintro ⟨⟩ _ rfl
  refine .ite (.failAt _)
    (.next (steady_constant .i32) fun offset => .next steady_u32 fun length => ?_)
  exact .next (steady_bytes length) fun content => .pure rfl

/-! ### Sections -/

/-- A section adds the same to a module in both places, but for the offsets in it. -/
theorem local_contents (hk : k ≤ start) (names : List String) (id : SectionId) (p : Progress) :
    Local start d (contents id p) (contents id (p.moved k d names)) fun q q' =>
      q' = q.moved k d names := by
  -- Only code has positions to be moved, and all other sections are read alike.
  cases id with
  | custom => exact .pure rfl
  | type => exact .next (steady_vector steady_functionType) fun types => .pure rfl
  | «import» =>
    refine .next steady_vectorCount fun count => (local_importEntries count p.module).bind ?_
    rintro m' _ rfl
    exact .pure rfl
  | function => exact .next (steady_vector (steady_typeIndex p.module)) fun functions => .pure rfl
  | table => exact .next (steady_vector steady_table) fun tables => .pure rfl
  | memory =>
    refine local_memory.bind ?_
    rintro m' _ rfl
    exact .pure rfl
  | global => exact .next (steady_vector steady_global) fun globals => .pure rfl
  | «export» =>
    refine .next steady_vectorCount fun count => ?_
    have hsame : exportEntries (p.moved k d names).module count = exportEntries p.module count :=
      funext (exportEntries_moved p.module count)
    rw [hsame]
    exact .next (steady_exportEntries p.module count #[]) fun entries => .pure rfl
  | start =>
    refine local_start.bind ?_
    rintro m' _ rfl
    exact .pure rfl
  | element => exact .placed fun pos _ => .next steady_u32 fun count => .ite (.failAt _) (.pure rfl)
  | code =>
    refine (local_code hk).bind ?_
    rintro m' _ rfl
    exact .pure rfl
  | data => exact .next (steady_vector (steady_dataSegment p.module)) fun data => .pure rfl
  | dataCount => exact .next steady_u32 fun count => .pure rfl

end Decode

end WasmScript
