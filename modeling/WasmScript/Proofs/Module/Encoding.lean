/-
  WasmScript/Proofs/Module/Encoding.lean
  ======================================
  **Encodings of code** — which bytes stand for an instruction, and that they are read.

  `Instruction.Encoded` follows the binary format production by production.  Integers may
  be padded, a block type may be written out or refer to a type, and `select` may name its
  type, so an instruction has many encodings; all of them are read as that instruction.
-/
import WasmScript.Module.Decode.Instruction
import WasmScript.Proofs.Module.Accepts
import WasmScript.Proofs.Module.WellFormed
import Mathlib.Data.List.Forall2

namespace WasmScript

open Leb128 WasmScript.Parser

/-! ### The grammar -/

/-- The byte of a value type. -/
def ValueType.byte : ValueType → UInt8
  | .i32 => 0x7f
  | .i64 => 0x7e

/-- Bytes that stand for a block type. -/
inductive BlockType.Encoded (types : Array FunctionType) : BlockType → List UInt8 → Prop where
  | empty : Encoded types ⟨[], []⟩ [0x40]
  | single (t : ValueType) : Encoded types ⟨[], [t]⟩ [t.byte]
  | indexed {index : Nat} {type : FunctionType} {bs : List UInt8} : types[index]? = some type →
      Signed 33 index bs → Encoded types type bs

/-- Bytes that stand for the alignment and the offset of an access. -/
inductive MemArg.Encoded : MemArg → List UInt8 → Prop where
  | mk {align offset : Nat} {as os : List UInt8} : Unsigned 32 align as → Unsigned 32 offset os →
      Encoded ⟨align, offset⟩ (as ++ os)

/-- Bytes that stand for an instruction of a module with some types. -/
inductive Instruction.Encoded (types : Array FunctionType) : Instruction → List UInt8 → Prop where
  | unreachable : Encoded types .unreachable [0x00]
  | nop : Encoded types .nop [0x01]
  | block {type : BlockType} {bs : List UInt8} : BlockType.Encoded types type bs →
      Encoded types (.block type) (0x02 :: bs)
  | loop {type : BlockType} {bs : List UInt8} : BlockType.Encoded types type bs →
      Encoded types (.loop type) (0x03 :: bs)
  | ifBlock {type : BlockType} {bs : List UInt8} : BlockType.Encoded types type bs →
      Encoded types (.ifBlock type) (0x04 :: bs)
  | elseMark : Encoded types .elseMark [0x05]
  | endMark : Encoded types .endMark [0x0b]
  | br {depth : Nat} {bs : List UInt8} : Unsigned 32 depth bs →
      Encoded types (.br depth) (0x0c :: bs)
  | brIf {depth : Nat} {bs : List UInt8} : Unsigned 32 depth bs →
      Encoded types (.brIf depth) (0x0d :: bs)
  | brTable {depths : List Nat} {default : Nat} {cs bs : List UInt8} {bss : List (List UInt8)} :
      Unsigned 32 depths.length cs → List.Forall₂ (Unsigned 32) depths bss →
      Unsigned 32 default bs →
      Encoded types (.brTable depths default) (0x0e :: ((cs ++ bss.flatten) ++ bs))
  | ret : Encoded types .ret [0x0f]
  | call {function : Nat} {bs : List UInt8} : Unsigned 32 function bs →
      Encoded types (.call function) (0x10 :: bs)
  | drop : Encoded types .drop [0x1a]
  | select : Encoded types .select [0x1b]
  | selectTyped (t : ValueType) {cs : List UInt8} : Unsigned 32 1 cs →
      Encoded types .select (0x1c :: (cs ++ [t.byte]))
  | localGet {index : Nat} {bs : List UInt8} : Unsigned 32 index bs →
      Encoded types (.localGet index) (0x20 :: bs)
  | localSet {index : Nat} {bs : List UInt8} : Unsigned 32 index bs →
      Encoded types (.localSet index) (0x21 :: bs)
  | localTee {index : Nat} {bs : List UInt8} : Unsigned 32 index bs →
      Encoded types (.localTee index) (0x22 :: bs)
  | globalGet {index : Nat} {bs : List UInt8} : Unsigned 32 index bs →
      Encoded types (.globalGet index) (0x23 :: bs)
  | globalSet {index : Nat} {bs : List UInt8} : Unsigned 32 index bs →
      Encoded types (.globalSet index) (0x24 :: bs)
  | i32Const {n : Int} {bs : List UInt8} : Signed 32 n bs →
      Encoded types (.const (.i32 n)) (0x41 :: bs)
  | i64Const {n : Int} {bs : List UInt8} : Signed 64 n bs →
      Encoded types (.const (.i64 n)) (0x42 :: bs)
  | numeric {opcode : UInt8} : Encoded types (.numeric opcode.toNat) [opcode]
  | load {opcode : UInt8} {arg : MemArg} {bs : List UInt8} : arg.Encoded bs →
      Encoded types (.load opcode.toNat arg) (opcode :: bs)
  | store {opcode : UInt8} {arg : MemArg} {bs : List UInt8} : arg.Encoded bs →
      Encoded types (.store opcode.toNat arg) (opcode :: bs)
  | memorySize : Encoded types .memorySize [0x3f, 0x00]
  | memoryGrow : Encoded types .memoryGrow [0x40, 0x00]
  | memoryCopy {bs : List UInt8} : Unsigned 32 10 bs →
      Encoded types .memoryCopy (0xfc :: (bs ++ [0x00, 0x00]))
  | memoryFill {bs : List UInt8} : Unsigned 32 11 bs →
      Encoded types .memoryFill (0xfc :: (bs ++ [0x00]))

theorem Instruction.Encoded.ne_nil {types : Array FunctionType} {i : Instruction} {bs : List UInt8}
    (h : i.Encoded types bs) : bs ≠ [] := by
  cases h <;> exact List.cons_ne_nil _ _

namespace Decode

variable {scope : Scope} {bs : List UInt8}

/-! ### Immediates -/

theorem accepts_valueType (t : ValueType) : valueType.Accepts [t.byte] (· = t) := by
  refine .placed fun pos => .finish accepts_byte ?_
  rintro _ rfl
  cases t <;> exact accepts_pure rfl

/-- The index of a type does not start like a block type that is written out. -/
theorem first_of_index {bits index : Nat} (h : Signed bits index bs) :
    ∃ b rest, bs = b :: rest ∧ (b.toNat < 0x40 ∨ 0x80 ≤ b.toNat) := by
  generalize hn : (index : Int) = n at h
  cases h with
  | @last _ b hsmall => exact ⟨b, [], rfl, .inl hsmall⟩
  | @negative _ b _ hhigh => omega
  | @next _ _ b rest hlarge => exact ⟨b, rest, rfl, .inr hlarge⟩

theorem accepts_blockType {type : BlockType} (h : BlockType.Encoded scope.types type bs) :
    (blockType scope).Accepts bs (· = type) := by
  refine .placed fun pos => ?_
  -- The first byte has a code of its own or is the beginning of an index.
  cases h with
  | empty =>
    refine .later (fun _ => reads_peek) ?_
    rintro _ rfl
    exact .finish accepts_byte fun _ _ => accepts_pure rfl
  | single t =>
    refine .later (fun _ => reads_peek) ?_
    rintro _ rfl
    cases t with
    | i32 => exact .map (accepts_valueType .i32) rfl
    | i64 => exact .map (accepts_valueType .i64) rfl
  | @indexed index _ _ htype hbs =>
    obtain ⟨b, rest, rfl, hb⟩ := first_of_index hbs
    refine .later (fun _ => reads_peek) ?_
    rintro _ rfl
    split
    · next heq =>
      have hbyte := Option.some.inj heq
      omega
    · have hnot : ¬ ((some b.toNat).any fun b => decide (0x40 ≤ b ∧ b < 0x80)) := by
        simp only [Option.any_some, decide_eq_true_eq]
        omega
      rw [if_neg hnot]
      refine .finish (accepts_s64 (hbs.mono (by decide))) ?_
      rintro _ rfl
      rw [if_pos (Int.natCast_nonneg index), Int.toNat_natCast, htype]
      exact accepts_pure rfl

theorem accepts_memArg {access : Access} {arg : MemArg} (h : arg.Encoded bs)
    (halign : arg.align ≤ access.naturalAlignment) : (memArg access).Accepts bs (· = arg) := by
  cases h with
  | @mk align offset as os has hos =>
    have hbit : align.testBit 6 = false := by
      refine Nat.testBit_lt_two_pow (Nat.lt_of_le_of_lt halign ?_)
      cases access <;> decide
    refine .placed fun pos => .step (accepts_u32 has) ?_
    rw [if_neg (by rw [hbit]; exact Bool.false_ne_true), if_neg (Nat.not_lt.mpr halign)]
    exact .map (accepts_u32 hos) rfl

theorem accepts_memoryIndex : memoryIndex.Accepts [0x00] fun _ => True := by
  refine .placed fun pos => .finish accepts_byte ?_
  rintro _ rfl
  exact accepts_pure trivial

theorem accepts_depths {depths : List Nat} {cs : List UInt8} {bss : List (List UInt8)}
    (hcs : Unsigned 32 depths.length cs) (h : List.Forall₂ (Unsigned 32) depths bss) :
    (vector u32).Accepts (cs ++ bss.flatten) (· = depths.toArray) :=
  accepts_vector hcs (h.imp fun _ _ hbs => ⟨accepts_u32 hbs, hbs.ne_nil⟩)

/-! ### Instructions -/

theorem operation_of_numeric {opcode : Nat} (h : (NumericOp.ofOpcode? opcode).isSome) (pos : Nat) :
    operation scope pos opcode = pure (.numeric opcode) := by
  have hall : ∀ op ∈ NumericOp.table, Opcode.ofByte? op.opcode = none ∧
      op.opcode ∉ [0x12, 0x13, 0x25, 0x26] := by decide
  obtain ⟨op, hop⟩ := Option.isSome_iff_exists.mp h
  obtain rfl : op.opcode = opcode :=
    eq_of_beq (List.find?_some (p := fun op : NumericOp => op.opcode == opcode) hop)
  obtain ⟨hnone, hother⟩ := hall op (List.mem_of_find?_eq_some hop)
  simp only [List.mem_cons, List.not_mem_nil, or_false, not_or] at hother
  rw [operation, hnone]
  change plain pos op.opcode = _
  rw [plain, if_neg (by omega), if_neg (by omega), if_pos h]

theorem operation_of_access {opcode : Nat} {a : Access} (h : Access.ofOpcode? opcode = some a)
    (pos : Nat) : operation scope pos opcode = access pos opcode := by
  obtain rfl : a.opcode.byte = opcode :=
    eq_of_beq (List.find?_some (p := fun a : Access => a.opcode.byte == opcode) h)
  cases a <;> rfl

theorem accepts_access {opcode : Nat} {a : Access} (h : Access.ofOpcode? opcode = some a)
    {arg : MemArg} (hbs : arg.Encoded bs) (halign : arg.align ≤ a.naturalAlignment) (pos : Nat) :
    (operation scope pos opcode).Accepts bs
      (· = if a.isStore then .store opcode arg else .load opcode arg) := by
  rw [operation_of_access h, access, h]
  exact .map (accepts_memArg hbs halign) rfl

theorem accepts_operation {i : Instruction} {b : UInt8} (h : i.Encoded scope.types (b :: bs))
    (hi : i.WellFormed scope.functions) (pos : Nat) :
    (operation scope pos b.toNat).Accepts bs (· = i) := by
  cases h with
  | unreachable | nop | elseMark | endMark | ret | drop | select => exact accepts_pure rfl
  | block htype | loop htype | ifBlock htype => exact .map (accepts_blockType htype) rfl
  | br hbs | brIf hbs | localGet hbs | localSet hbs | localTee hbs | globalGet hbs
  | globalSet hbs =>
    exact .map (accepts_u32 hbs) rfl
  | brTable hcs hbss hdefault =>
    refine .step (accepts_depths hcs hbss) ?_
    exact .map (accepts_u32 hdefault) rfl
  | @call function _ hbs =>
    have hlt : function < scope.functions := hi
    refine .finish (accepts_u32 hbs) ?_
    rintro _ rfl
    rw [if_pos hlt]
    exact accepts_pure rfl
  | selectTyped t hcs =>
    -- The annotation is read, but the instruction does not keep it.
    have htypes : (vector valueType).Accepts (_ ++ [[t.byte]].flatten) (· = #[t]) :=
      @accepts_vector _ _ _ [t] _ hcs (.cons ⟨accepts_valueType t, List.cons_ne_nil _ _⟩ .nil)
    refine .finish htypes ?_
    rintro _ rfl
    exact accepts_pure rfl
  | i32Const hbs => exact .map (accepts_s32 hbs) rfl
  | i64Const hbs => exact .map (accepts_s64 hbs) rfl
  | numeric =>
    rw [operation_of_numeric hi]
    exact accepts_pure rfl
  | load hbs =>
    obtain ⟨a, ha, hload, halign⟩ := hi
    refine (accepts_access ha hbs halign pos).mono ?_
    rintro _ rfl
    rw [hload]
    rfl
  | store hbs =>
    obtain ⟨a, ha, hstore, halign⟩ := hi
    refine (accepts_access ha hbs halign pos).mono ?_
    rintro _ rfl
    rw [hstore]
    rfl
  | memorySize => exact .finish accepts_memoryIndex fun _ _ => accepts_pure rfl
  | memoryGrow => exact .finish accepts_memoryIndex fun _ _ => accepts_pure rfl
  | memoryCopy hbs =>
    have hfirst : memoryIndex.Accepts [0x00] (· = ()) := accepts_memoryIndex.mono fun _ _ => rfl
    refine .step (accepts_u32 hbs) (.step hfirst ?_)
    exact .finish accepts_memoryIndex fun _ _ => accepts_pure rfl
  | memoryFill hbs =>
    refine .step (accepts_u32 hbs) ?_
    exact .finish accepts_memoryIndex fun _ _ => accepts_pure rfl

theorem accepts_instruction {i : Instruction} (h : i.Encoded scope.types bs)
    (hi : i.WellFormed scope.functions) : (instruction scope).Accepts bs (·.instruction = i) := by
  obtain ⟨b, rest, rfl⟩ := List.exists_cons_of_ne_nil h.ne_nil
  refine .placed fun pos => .next (.finish (accepts_operation h hi pos) ?_)
  rintro _ rfl
  exact accepts_pure rfl

/-- What is read after some other instructions, when so many blocks are open. -/
theorem accepts_instructions {is : List Instruction} {bss : List (List UInt8)}
    (h : List.Forall₂ (Instruction.Encoded scope.types) is bss)
    (hwell : ∀ i ∈ is, i.WellFormed scope.functions) :
    ∀ {depth fuel : Nat} (read : Array Located), Instruction.closes depth is → is.length ≤ fuel →
      (instructions scope fuel depth read).Accepts bss.flatten fun all =>
        ∃ ls, all.toList = read.toList ++ ls ∧ ls.map Located.instruction = is := by
  induction h with
  | nil => exact fun read hcloses => (Bool.false_ne_true hcloses).elim
  | @cons i bs is bss hhead htail ih =>
    intro depth fuel read hcloses hfuel
    rw [List.length_cons] at hfuel
    obtain ⟨fuel, rfl⟩ := Nat.exists_eq_succ_of_ne_zero (show fuel ≠ 0 by omega)
    have hleft : is.length ≤ fuel := Nat.le_of_succ_le_succ hfuel
    intro rest
    rw [List.flatten_cons, List.append_assoc]
    refine .bind (accepts_instruction hhead (hwell i List.mem_cons_self) _) ?_
    rintro next rfl
    -- The rest is read after `next`.
    have hlater {depth' : Nat} (h : Instruction.closes depth' is) :
        (instructions scope fuel depth' (read.push next)).Reads (bss.flatten ++ rest) rest
          fun all => ∃ ls, all.toList = read.toList ++ ls ∧
            ls.map Located.instruction = next.instruction :: is := by
      have hwell' : ∀ j ∈ is, j.WellFormed scope.functions :=
        fun j hj => hwell j (List.mem_cons_of_mem _ hj)
      refine (ih hwell' (read.push next) h hleft rest).mono ?_
      rintro all ⟨ls, hall, hls⟩
      refine ⟨next :: ls, ?_, by rw [List.map_cons, hls]⟩
      rw [hall, Array.toList_push, List.append_assoc]
      rfl
    dsimp only
    split
    · next hend =>
      rw [hend] at hcloses
      obtain rfl : is = [] := List.isEmpty_iff.mp hcloses
      cases htail
      exact reads_pure ⟨[next], Array.toList_push, rfl⟩
    · next depth hend =>
      rw [hend] at hcloses
      exact hlater hcloses
    · next hfirst hlast =>
      refine hlater ?_
      rwa [Instruction.closes_cons] at hcloses
      intro hend
      exact hlast _ hend (Nat.succ_pred_eq_of_ne_zero fun h0 => hfirst hend h0).symm

end Decode

end WasmScript
