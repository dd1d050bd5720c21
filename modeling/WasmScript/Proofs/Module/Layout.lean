/-
  WasmScript/Proofs/Module/Layout.lean
  ====================================
  **The layout of an assembled module** — the bytes that an assembler writes, as one list.

  What is filled of a buffer is only ever appended to.  So the bytes of a module are the header
  and the sections one after another, where a section without items takes no bytes:
  `Assembler.toBytes_eq`.
-/
import WasmScript.Module.Assembler
import WasmScript.Proofs.Integer.Leb128
import WasmScript.Proofs.Module.Buffers

namespace WasmScript

namespace Assembler

open ByteBuffer

/-! ### Sections -/

def sectionBytes (id : SectionId) (content : List UInt8) : List UInt8 :=
  UInt8.ofNat id.number :: counted content

/-- The bytes of a section of items, which is left out if there are none. -/
def itemBytes (id : SectionId) (items : List (List UInt8)) : List UInt8 :=
  if items = [] then [] else sectionBytes id (u32 items.length ++ items.flatten)

/-- The bytes of the section that names the start function, if there is one. -/
def startBytes (start : Option Int) : List UInt8 :=
  start.elim [] fun function => sectionBytes .start (u32 function)

theorem appends_writeSection (id : SectionId) (content : List UInt8) :
    Appends (writeSection id content) (sectionBytes id content) :=
  (appends_push [UInt8.ofNat id.number]).comp (appends_push (counted content))

theorem appends_writeItems (id : SectionId) (items : Array (List UInt8)) :
    Appends (writeItems id items) (itemBytes id items.toList) := by
  unfold writeItems itemBytes
  by_cases h : items = #[]
  · subst h
    exact appends_self
  · have hlist : items.toList ≠ [] := by simpa using h
    have hempty : ¬ items.isEmpty = true := by simpa using h
    simp only [if_neg hlist, if_neg hempty]
    exact appends_writeSection id _

theorem appends_writeStart (start : Option Int) :
    Appends (fun b => match start with
      | some function => writeSection .start (u32 function) b
      | none => b) (startBytes start) := by
  cases start with
  | none => exact appends_self
  | some function => exact appends_writeSection .start _

/-- The sections of an assembler, one after another. -/
def sectionsBytes (a : Assembler) : List UInt8 :=
  itemBytes .type a.types.toList ++ (itemBytes .import a.imports.toList
    ++ (itemBytes .function a.functions.toList ++ (itemBytes .table a.tables.toList
    ++ (itemBytes .memory a.memories.toList ++ (itemBytes .global a.globals.toList
    ++ (itemBytes .export a.exports.toList ++ (startBytes a.start
    ++ (itemBytes .code (a.codes.toList.map counted) ++ (itemBytes .data a.data.toList
    ++ a.customSections.toList.flatMap (sectionBytes .custom))))))))))

/-- The bytes of a module are the header and the sections one after another. -/
theorem toBytes_eq (a : Assembler) :
    a.toBytes.data.toList = Binary.magic ++ (Binary.version ++ a.sectionsBytes) := by
  have hall := (appends_push Binary.magic).comp <| (appends_push Binary.version).comp <|
    (appends_writeItems .type a.types).comp <| (appends_writeItems .import a.imports).comp <|
    (appends_writeItems .function a.functions).comp <| (appends_writeItems .table a.tables).comp <|
    (appends_writeItems .memory a.memories).comp <| (appends_writeItems .global a.globals).comp <|
    (appends_writeItems .export a.exports).comp <| (appends_writeStart a.start).comp <|
    (appends_writeItems .code (a.codes.map counted)).comp <|
    (appends_writeItems .data a.data).comp <|
    appends_foldl (fun content => appends_writeSection .custom content) a.customSections
  obtain ⟨hsound, hempty⟩ := create_spec 4096
  have hcontent := (hall ByteBuffer.create hsound).2
  rw [hempty, List.nil_append, Array.toList_map] at hcontent
  exact hcontent

/-! ### Integers -/

theorem unsigned32_natCast {n : Nat} (h : n < 2 ^ 32) : Bits.unsigned32 n = n := by
  have hpow : (Bits.twoPow 32 : Int) = 2 ^ 32 := by decide
  rw [Bits.unsigned32, Bits.unsigned, hpow]
  omega

theorem u32_reduced (n : Int) : Leb128.Unsigned 32 (Bits.unsigned32 n) (u32 n) := by
  have hpow : (Bits.twoPow 32 : Int) = 2 ^ 32 := by decide
  refine Leb128.unsigned_spec _ 32 ?_
  rw [Bits.unsigned32, Bits.unsigned, hpow]
  omega

theorem u32_spec {n : Nat} (h : n < 2 ^ 32) : Leb128.Unsigned 32 n (u32 n) := by
  have hcode := u32_reduced n
  rwa [unsigned32_natCast h] at hcode

theorem signed_spec (n : Int) {width : Nat} (hwidth : 0 < width) :
    Leb128.Signed width (Bits.signed width n) (Leb128.signed (Bits.signed width n)) := by
  obtain ⟨k, rfl⟩ := Nat.exists_eq_add_of_le' hwidth
  have hpow : Bits.twoPow (k + 1) = 2 * 2 ^ k := Nat.pow_succ'
  have hpos : 0 < 2 * 2 ^ k := Nat.mul_pos (by decide) (Nat.two_pow_pos k)
  have hlow := Int.le_bmod (x := n) hpos
  have hhigh := Int.bmod_lt (x := n) hpos
  refine Leb128.signed_spec _ (k + 1) ?_ ?_
  · rw [Bits.signed, hpow, Nat.add_sub_cancel]
    omega
  · rw [Bits.signed, hpow, Nat.add_sub_cancel]
    omega

theorem s32_spec (n : Int) : Leb128.Signed 32 (Bits.signed32 n) (s32 n) :=
  signed_spec n (by decide)

theorem s64_spec (n : Int) : Leb128.Signed 64 (Bits.signed 64 n) (s64 n) :=
  signed_spec n (by decide)

end Assembler

end WasmScript
