/-
  WasmScript/Proofs/Module/Nesting.lean
  =====================================
  **Decoded modules** — what every byte string that is read as a module guarantees.

  The reader follows the nesting of a body with a counter, `Instruction.closes` is that
  counter run over the instructions.  Here the nesting is said without it, by counting on
  prefixes of the body: as long as the body goes on, no prefix has more `end`s than blocks
  that were opened, and the whole of it has one more, which is the `end` of the function.
  `closes_iff` shows that the two say the same.

  `Module.decode_consistent` puts this together with what `WellFormed` says of sections.
-/
import WasmScript.Proofs.Module.WellFormed

namespace WasmScript

namespace Instruction

/-! ### Counting blocks -/

def opened (is : List Instruction) : Nat := is.countP opensBlock

/-- The `end`s among some instructions. -/
def ended (is : List Instruction) : Nat := is.countP fun i => i = .endMark

/-- The last instruction is the `end` that closes the function, and no earlier one closes it. -/
structure Nested (is : List Instruction) : Prop where
  last : is.getLast? = some .endMark
  total : ended is = opened is + 1
  earlier : ∀ k < is.length, ended (is.take k) ≤ opened (is.take k)

variable {i : Instruction} {is : List Instruction} {depth : Nat}

@[simp] theorem opened_nil : opened [] = 0 := rfl

@[simp] theorem ended_nil : ended [] = 0 := rfl

theorem opened_cons : opened (i :: is) = opened is + if i.opensBlock then 1 else 0 :=
  List.countP_cons

theorem ended_cons : ended (i :: is) = ended is + if i = .endMark then 1 else 0 := by
  simp [ended, List.countP_cons]

/-- What holds of the prefixes of a list holds of the empty one and of those of its tail. -/
theorem forall_take_cons {P : List Instruction → Prop} :
    (∀ k < (i :: is).length, P ((i :: is).take k)) ↔ P [] ∧ ∀ k < is.length, P
      (i :: is.take k) := by
  constructor
  · intro h
    refine ⟨h 0 (Nat.succ_pos _), fun k hk => ?_⟩
    exact h (k + 1) (Nat.succ_lt_succ hk)
  · rintro ⟨hnil, hcons⟩ k hk
    cases k with
    | zero => exact hnil
    | succ k => exact hcons k (Nat.lt_of_succ_lt_succ hk)

/-- The counter comes to its end where, and only where, one more `end` than blocks has been met. -/
theorem closes_iff : ∀ (is : List Instruction) (depth : Nat),
    closes depth is ↔ ended is = depth + opened is + 1 ∧
      ∀ k < is.length, ended (is.take k) ≤ depth + opened (is.take k) := by
  intro is
  induction is with
  | nil =>
    intro depth
    simp [closes]
  | cons i is ih =>
    intro depth
    refine .trans ?_ (and_congr_right fun _ =>
      (forall_take_cons (P := fun js => ended js ≤ depth + opened js)).symm)
    simp only [opened_cons, ended_cons, opened_nil, ended_nil]
    by_cases hend : i = .endMark
    · subst hend
      have hopens : opensBlock .endMark = false := rfl
      cases depth with
      | zero =>
        -- This `end` closes the function, so nothing may follow it.
        cases is with
        | nil => simp [closes, hopens]
        | cons j rest =>
          have hnot : ¬ closes 0 (endMark :: j :: rest) := by simp [closes]
          refine iff_of_false hnot ?_
          rintro ⟨-, -, h⟩
          have hzero := h 0 (Nat.succ_pos _)
          simp [hopens] at hzero
      | succ depth =>
        have hstep : closes (depth + 1) (endMark :: is) = closes depth is := by
          cases is <;> rfl
        rw [hstep, ih depth]
        simp only [hopens, Bool.false_eq_true, if_false, if_true]
        constructor
        · rintro ⟨htotal, hearlier⟩
          refine ⟨by omega, by omega, fun k hk => ?_⟩
          have := hearlier k hk
          omega
        · rintro ⟨htotal, -, hearlier⟩
          refine ⟨by omega, fun k hk => ?_⟩
          have := hearlier k hk
          omega
    · rw [closes_cons hend, ih]
      simp only [if_neg hend]
      split
      · constructor
        · rintro ⟨htotal, hearlier⟩
          refine ⟨by omega, by omega, fun k hk => ?_⟩
          have := hearlier k hk
          omega
        · rintro ⟨htotal, -, hearlier⟩
          refine ⟨by omega, fun k hk => ?_⟩
          have := hearlier k hk
          omega
      · simp

/-- The last of some instructions that close the function is an `end`. -/
theorem getLast?_of_closes : ∀ (is : List Instruction) (depth : Nat), closes depth is →
    is.getLast? = some .endMark := by
  intro is
  induction is with
  | nil =>
    intro depth h
    simp [closes] at h
  | cons i is ih =>
    intro depth h
    -- What comes after the first instruction is closed as well.
    have hrest : is ≠ [] → ∃ depth, closes depth is := by
      intro hne
      by_cases hend : i = .endMark
      · subst hend
        cases depth with
        | zero => simp [closes, hne] at h
        | succ depth => exact ⟨depth, by cases is <;> exact h⟩
      · rw [closes_cons hend] at h
        exact ⟨_, h⟩
    cases is with
    | nil =>
      by_cases hend : i = .endMark
      · rw [hend]
        rfl
      · rw [closes_cons hend] at h
        simp [closes] at h
    | cons j rest =>
      obtain ⟨depth, hdepth⟩ := hrest (List.cons_ne_nil _ _)
      rw [List.getLast?_cons_cons]
      exact ih depth hdepth

theorem nested_of_closes (h : closes 0 is) : Nested is := by
  have hcount := (closes_iff is 0).mp h
  simp only [Nat.zero_add] at hcount
  exact ⟨getLast?_of_closes is 0 h, hcount.1, hcount.2⟩

/-- An access of a load or a store is aligned to no more than its natural alignment. -/
def Aligned : Instruction → Prop
  | .load opcode arg | .store opcode arg =>
    ∃ access, Access.ofOpcode? opcode = some access ∧ arg.align ≤ access.naturalAlignment
  | _ => True

theorem WellFormed.aligned {functions : Nat} (h : i.WellFormed functions) : i.Aligned := by
  cases i with
  | load opcode arg =>
    obtain ⟨access, haccess, -, halign⟩ := h
    exact ⟨access, haccess, halign⟩
  | store opcode arg =>
    obtain ⟨access, haccess, -, halign⟩ := h
    exact ⟨access, haccess, halign⟩
  | _ => trivial

end Instruction

namespace Body

/-- The instructions of a body, without their offsets. -/
def code (b : Body) : List Instruction := b.instructions.toList.map Located.instruction

variable {b : Body} {functions : Nat}

theorem WellFormed.of_mem_code (h : b.WellFormed functions) {i : Instruction} (hi : i ∈ b.code) :
    i.WellFormed functions := by
  obtain ⟨l, hl, rfl⟩ := List.mem_map.mp hi
  exact h.instructions l hl

end Body

namespace Module

/-- What is read from bytes is consistent: indices are below the sizes of what they refer to, each
defined function has a body, no two exports share a name, the start function takes and gives
nothing, globals start with values of their types, sizes of the memory are in order and within a
32-bit address space, only a module with a memory has data, and bodies have few enough locals and
nest as they should. -/
theorem decode_consistent {bytes : ByteArray} {m : Module} (h : decode bytes = .ok m) :
    (∀ e ∈ m.imports, e.typeIndex < m.types.size) ∧
    (∀ i ∈ m.functions, i < m.types.size) ∧
    m.bodies.size = m.functions.size ∧
    (m.exports.map Export.name).Nodup ∧
    (∀ e ∈ m.exports, e.index < m.spaceSize e.kind) ∧
    (∀ i ∈ m.start, i < m.functionCount ∧ m.functionType? i = some ⟨[], []⟩) ∧
    (∀ b ∈ m.bodies, ∀ i, .call i ∈ b.code → i < m.functionCount) ∧
    (∀ g ∈ m.globals, g.init.type = g.type) ∧
    (∀ l ∈ m.memory, l.initial ≤ 65536 ∧ ∀ n ∈ l.maximum, l.initial ≤ n ∧ n ≤ 65536) ∧
    (m.data ≠ [] → m.memory.isSome) ∧
    (∀ b ∈ m.bodies, ∀ i ∈ b.code, i.Aligned) ∧
    (∀ b ∈ m.bodies, b.locals.size ≤ 50000) ∧
    ∀ b ∈ m.bodies, Instruction.Nested b.code := by
  -- Reading keeps a module well formed, and that is more than what is asked for here.
  have hwell := wellFormed_of_decode h
  refine ⟨hwell.imports, hwell.functions, hwell.bodyCount, hwell.exportNames, hwell.exports,
    hwell.start, ?_, fun g hg => (hwell.globals g hg).1, hwell.memory, ?_, ?_, ?_, ?_⟩
  · intro b hb i hi
    exact (hwell.bodies b hb).of_mem_code hi
  · intro hne
    obtain ⟨d, hd⟩ := List.exists_mem_of_ne_nil _ hne
    exact (hwell.data d hd).1
  · intro b hb i hi
    exact ((hwell.bodies b hb).of_mem_code hi).aligned
  · intro b hb
    exact (hwell.bodies b hb).locals
  · intro b hb
    exact Instruction.nested_of_closes (hwell.bodies b hb).closes

/-- A module with something of each kind: an imported function, a memory, a global, two exports, a
start function, data, and a body that calls the import inside a block and loads what it gives. -/
def sample : Module where
  types := #[⟨[.i32], [.i32]⟩, ⟨[], []⟩]
  imports := #[⟨"h", "f", 0⟩]
  functions := #[0, 1]
  memory := some ⟨1, some 2⟩
  globals := #[⟨.i64, true, .i64 7⟩]
  exports := [⟨"f", .function, 1⟩, ⟨"m", .memory, 0⟩]
  start := some 2
  data := [⟨8, [0xab, 0xcd]⟩]
  bodies := #[
    ⟨#[.i64],
      #[⟨68, .block ⟨[], [.i32]⟩⟩, ⟨70, .localGet 0⟩, ⟨72, .call 0⟩, ⟨74, .load 0x28 ⟨2, 4⟩⟩,
        ⟨77, .endMark⟩, ⟨78, .endMark⟩], 65⟩,
    ⟨#[], #[⟨81, .endMark⟩], 80⟩]

def sampleBytes : ByteArray :=
  ⟨#[0x00, 0x61, 0x73, 0x6d, 0x01, 0x00, 0x00, 0x00,
     0x01, 0x09, 0x02, 0x60, 0x01, 0x7f, 0x01, 0x7f, 0x60, 0x00, 0x00,
     0x02, 0x07, 0x01, 0x01, 0x68, 0x01, 0x66, 0x00, 0x00,
     0x03, 0x03, 0x02, 0x00, 0x01,
     0x05, 0x04, 0x01, 0x01, 0x01, 0x02,
     0x06, 0x06, 0x01, 0x7e, 0x01, 0x42, 0x07, 0x0b,
     0x07, 0x09, 0x02, 0x01, 0x66, 0x00, 0x01, 0x01, 0x6d, 0x02, 0x00,
     0x08, 0x01, 0x02,
     0x0a, 0x13, 0x02,
     0x0e, 0x01, 0x01, 0x7e, 0x02, 0x7f, 0x20, 0x00, 0x10, 0x00, 0x28, 0x02, 0x04, 0x0b, 0x0b,
     0x02, 0x00, 0x0b,
     0x0b, 0x08, 0x01, 0x00, 0x41, 0x08, 0x0b, 0x02, 0xab, 0xcd]⟩

theorem decode_sample : decode sampleBytes = .ok sample := by decide +kernel

/-- Its data is there because its memory is, and the block in its first body is closed by the first
of two `end`s. -/
theorem decode_consistent_sample :
    decode sampleBytes = .ok sample ∧ sample.bodies.size = sample.functions.size ∧
      (∀ e ∈ sample.exports, e.index < sample.spaceSize e.kind) ∧
      (sample.data ≠ [] ∧ sample.memory.isSome) ∧
      ∀ b ∈ sample.bodies, Instruction.Nested b.code := by
  obtain ⟨-, -, hcount, -, hexports, -, -, -, -, hdata, -, -, hnested⟩ :=
    decode_consistent decode_sample
  have hne : sample.data ≠ [] := by decide
  exact ⟨decode_sample, hcount, hexports, ⟨hne, hdata hne⟩, hnested⟩

end Module

end WasmScript
