/-
  WasmScript/Proofs/Module/Sections.lean
  ======================================
  **Sections that are read back** — that the items an assembler writes are read as they
  were given.

  There is one lemma for each kind of item, about its reader and its encoder.  Declared
  locals are written as runs and read as the runs say, so what matters of them is that the
  runs of a list spell the list: `Assembler.flatMap_runs`.
-/
import WasmScript.Module.Decode.Module
import WasmScript.Proofs.Integer.Words
import WasmScript.Proofs.Module.Encoding
import WasmScript.Proofs.Module.Layout
import WasmScript.Proofs.Module.Nesting

namespace WasmScript

open Leb128 WasmScript.Parser

/-! ### Runs -/

namespace Assembler

variable {α β : Type}

def spelled (rs : List (α × Nat)) : List α := rs.flatMap fun (a, count) => List.replicate count a

theorem spelled_cons (a : α) (count : Nat) (rs : List (α × Nat)) :
    spelled ((a, count) :: rs) = List.replicate count a ++ spelled rs := rfl

theorem spelled_runs [DecidableEq α] (as : List α) : spelled (runs (· == ·) as) = as := by
  induction as with
  | nil => rfl
  | cons a as ih =>
    rw [runs]
    split
    · next u count more h =>
      rw [h] at ih
      split
      · next hsame =>
        obtain rfl := eq_of_beq hsame
        rw [spelled_cons, List.replicate_succ, List.cons_append, ← spelled_cons, ih]
      · rw [spelled_cons, ih]
        rfl
    · next h =>
      rw [h] at ih
      rw [← ih]
      rfl

theorem length_runs_le (same : α → α → Bool) (as : List α) : (runs same as).length ≤ as.length := by
  induction as with
  | nil => exact Nat.le_refl _
  | cons a as ih =>
    rw [runs]
    split
    · next u count more h =>
      rw [h, List.length_cons] at ih
      split <;> simp only [List.length_cons] <;> omega
    · simp

/-- Items that are told apart have the same runs. -/
theorem runs_map [DecidableEq α] [DecidableEq β] {f : α → β} (hf : Function.Injective f)
    (as : List α) :
    runs (· == ·) (as.map f) = (runs (· == ·) as).map fun (a, count) => (f a, count) := by
  induction as with
  | nil => rfl
  | cons a as ih =>
    rw [List.map_cons, runs, runs, ih]
    cases h : runs (· == ·) as with
    | nil => rfl
    | cons r more =>
      obtain ⟨u, count⟩ := r
      have hbeq : (f a == f u) = (a == u) := by
        rw [Bool.eq_iff_iff, beq_iff_eq, beq_iff_eq]
        exact hf.eq_iff
      simp only [List.map_cons, hbeq]
      split <;> rfl

end Assembler

/-- Bytes that stand for a body: its locals in runs, and any encoding of its instructions. -/
def Body.Encoded (types : Array FunctionType) (b : Body) (bytes : List UInt8) : Prop :=
  ∃ bss : List (List UInt8), List.Forall₂ (Instruction.Encoded types) b.code bss ∧
    bytes = Assembler.encodeLocals (b.locals.toList.map fun t => (t.byte.toNat : Int))
      ++ bss.flatten

/-- Bytes that stand for a constant. -/
inductive Value.Encoded : Value → List UInt8 → Prop where
  | i32 {n : Int} {bs : List UInt8} : Signed 32 n bs → Encoded (.i32 n) (0x41 :: bs)
  | i64 {n : Int} {bs : List UInt8} : Signed 64 n bs → Encoded (.i64 n) (0x42 :: bs)

/-- Whether two bodies are the same up to offsets. -/
def Body.Agrees (b b' : Body) : Prop := b'.locals = b.locals ∧ b'.code = b.code

def ExportKind.byte : ExportKind → UInt8
  | .function => 0
  | .table => 1
  | .memory => 2
  | .global => 3

namespace Decode

open Assembler

variable {bs : List UInt8} {m : Module}

/-! ### Bodies -/

theorem accepts_localGroups (rs : List (ValueType × Nat)) : ∀ locals : Array ValueType,
    locals.size + (spelled rs).length ≤ maxLocals →
    (localGroups rs.length locals).Accepts (rs.flatMap fun (t, count) => u32 count ++ [t.byte])
      (·.toList = locals.toList ++ spelled rs) := by
  induction rs with
  | nil => exact fun locals _ => accepts_pure (List.append_nil _).symm
  | cons r rs ih =>
    obtain ⟨t, count⟩ := r
    intro locals hfew
    rw [spelled_cons, List.length_append, List.length_replicate] at hfew
    have hcount : count < 2 ^ 32 := by
      have hmax : maxLocals = 50000 := rfl
      omega
    have hsize : (locals ++ Array.replicate count t).size = locals.size + count := by
      rw [Array.size_append, Array.size_replicate]
    rw [List.flatMap_cons, List.append_assoc]
    refine .placed fun pos => .step (accepts_u32 (u32_spec hcount)) (.step (accepts_valueType t) ?_)
    rw [if_neg (by omega)]
    refine (ih _ (by omega)).mono fun all hall => ?_
    rw [hall, spelled_cons, Array.toList_append, Array.toList_replicate, List.append_assoc]

theorem byte_injective : Function.Injective fun t : ValueType => (t.byte.toNat : Int) := by
  intro t u h
  cases t <;> cases u <;> first | rfl | exact absurd h (by decide)

theorem encodeLocals_eq (locals : List ValueType) :
    encodeLocals (locals.map fun t => (t.byte.toNat : Int))
      = u32 (runs (· == ·) locals).length
        ++ (runs (· == ·) locals).flatMap fun (t, count) => u32 count ++ [t.byte] := by
  have hbyte (t : ValueType) : ByteBuffer.byteOf t.byte.toNat = t.byte := by cases t <;> decide
  rw [encodeLocals, encodeRuns, runs_map byte_injective]
  simp only [List.map_map, List.length_map, List.flatMap_map, Function.comp_apply, hbyte]

theorem reads_body {scope : Scope} {b : Body} (hb : b.WellFormed scope.functions)
    (h : b.Encoded scope.types bs) : (body scope).Reads bs [] b.Agrees := by
  obtain ⟨bss, hbss, rfl⟩ := h
  have hspelled := spelled_runs b.locals.toList
  have hlocals : b.locals.size ≤ maxLocals := hb.locals
  -- There are no more runs than locals, so their number fits its field.
  have hgroups : (runs (· == ·) b.locals.toList).length < 2 ^ 32 := by
    have hle := length_runs_le (· == ·) b.locals.toList
    have hsize : b.locals.toList.length = b.locals.size := Array.length_toList
    have hmax : maxLocals = 50000 := rfl
    omega
  rw [encodeLocals_eq, List.append_assoc]
  refine .bind reads_position fun pos _ => .bind (accepts_u32 (u32_spec hgroups) _) ?_
  rintro _ rfl
  refine .bind (accepts_localGroups _ #[] ?_ _) fun locals hread => ?_
  · rw [hspelled, Array.length_toList]
    simpa using hlocals
  have hread : locals = b.locals := by
    apply Array.ext'
    rw [hread, hspelled]
    rfl
  refine .bind reads_remaining ?_
  rintro _ rfl
  -- Each instruction takes a byte or more, so there is fuel for all of them.
  have hfuel : b.code.length ≤ bss.flatten.length + 1 :=
    Nat.le_succ_of_le (length_le_flatten hbss fun _ _ hi => hi.ne_nil)
  have hwell : ∀ i ∈ b.code, i.WellFormed scope.functions := fun i hi => hb.of_mem_code hi
  have hinstructions := accepts_instructions hbss hwell #[] hb.closes hfuel []
  rw [List.append_nil] at hinstructions
  refine .bind hinstructions ?_
  rintro all ⟨ls, hall, hls⟩
  refine .bind reads_remaining ?_
  rintro _ rfl
  refine reads_pure ⟨hread, ?_⟩
  rw [← hls]
  exact congrArg _ hall

theorem accepts_bodies {scope : Scope} {all : List Body} {codes : List (List UInt8)}
    (h : List.Forall₂ (fun b code => b.WellFormed scope.functions ∧ b.Encoded scope.types code
      ∧ code.length < 2 ^ 32) all codes) : ∀ read : Array Body,
    (bodies scope all.length read).Accepts (codes.map counted).flatten fun found =>
      ∃ more, found.toList = read.toList ++ more ∧ List.Forall₂ Body.Agrees all more := by
  induction h with
  | nil => exact fun read => accepts_pure ⟨[], (List.append_nil _).symm, .nil⟩
  | @cons b code all codes hhead _ ih =>
    intro read
    obtain ⟨hwell, hcode, hsize⟩ := hhead
    intro rest
    rw [List.map_cons, List.flatten_cons, List.append_assoc, counted, List.append_assoc]
    refine .bind (accepts_u32 (u32_spec hsize) _) ?_
    rintro _ rfl
    refine .bind (accepts_within (reads_body hwell hcode) none _) fun b' hb' => ?_
    refine (ih (read.push b') rest).mono ?_
    rintro found ⟨more, hfound, hmore⟩
    refine ⟨b' :: more, ?_, .cons hb' hmore⟩
    rw [hfound, Array.toList_push, List.append_assoc]
    rfl

/-! ### Types, limits and imports -/

theorem accepts_valueTypes {ts : List ValueType} (h : ts.length < 2 ^ 32) :
    (vector valueType).Accepts (counted (ts.map ValueType.byte)) (· = ts.toArray) := by
  have hitems : Items valueType ts (ts.map fun t => [t.byte]) :=
    List.forall₂_map_right_iff.mpr <| List.forall₂_same.mpr fun t _ =>
      ⟨accepts_valueType t, List.cons_ne_nil _ _⟩
  have hflat : (ts.map fun t => [t.byte]).flatten = ts.map ValueType.byte :=
    List.map_eq_flatMap.symm
  have hvector := accepts_vector (u32_spec h) hitems
  rwa [hflat, ← List.length_map (f := ValueType.byte)] at hvector

def typeBytes (t : FunctionType) : List UInt8 :=
  encodeType (counted (t.params.map ValueType.byte)) (counted (t.results.map ValueType.byte))

theorem accepts_functionType {t : FunctionType} (h : (typeBytes t).length < 2 ^ 32) :
    functionType.Accepts (typeBytes t) (· = t) := by
  have hlength : (typeBytes t).length
      = 1 + (counted (t.params.map ValueType.byte)).length
        + (counted (t.results.map ValueType.byte)).length := by
    rw [typeBytes, encodeType, List.length_append, List.length_cons]
    omega
  simp only [counted, List.length_append, List.length_map] at hlength
  have hparams : t.params.length < 2 ^ 32 := by omega
  have hresults : t.results.length < 2 ^ 32 := by omega
  refine .placed fun pos => .next ?_
  rw [if_neg (by decide)]
  refine .step (accepts_valueTypes hparams) (.finish (accepts_valueTypes hresults) ?_)
  rintro _ rfl
  exact accepts_pure rfl

theorem accepts_typeIndex {index : Nat} (h : index < m.types.size) (hsize : index < 2 ^ 32) :
    (typeIndex m).Accepts (Assembler.u32 index) (· = index) := by
  refine .placed fun pos => .finish (accepts_u32 (u32_spec hsize)) ?_
  rintro _ rfl
  rw [if_pos h]
  exact accepts_pure rfl

def limitBytes (l : Limits) : List UInt8 := encodeLimits l.initial (l.maximum.map Int.ofNat)

theorem accepts_limits {l : Limits} {bound : Nat} (h : l.WellFormed bound) (hbound : bound < 2 ^ 32)
    (what : String) : (limits bound what).Accepts (limitBytes l) (· = l) := by
  obtain ⟨initial, maximum⟩ := l
  obtain ⟨hinitial, hmaximum⟩ := h
  have hsmall : initial < 2 ^ 32 := Nat.lt_of_le_of_lt hinitial hbound
  refine .placed fun pos => ?_
  cases maximum with
  | none =>
    refine .next ?_
    rw [if_neg (by decide), if_neg (by decide), if_neg (by decide)]
    refine .finish (accepts_u32 (u32_spec hsmall)) ?_
    rintro _ rfl
    -- Without a maximum only the bound of the format is checked.
    refine .known ?_
    rw [if_neg]
    · exact accepts_pure rfl
    · rintro (hless | hany)
      · exact Nat.not_lt.mpr hinitial hless
      · cases hany
  | some n =>
    obtain ⟨hle, hn⟩ : initial ≤ n ∧ n ≤ bound := hmaximum n rfl
    refine .next ?_
    rw [if_neg (by decide), if_neg (by decide), if_neg (by decide)]
    refine .step (accepts_u32 (u32_spec hsmall)) ?_
    have hn' : n < 2 ^ 32 := Nat.lt_of_le_of_lt hn hbound
    refine .finish (P := (· = some n)) (.map (accepts_u32 (u32_spec hn')) rfl) ?_
    rintro _ rfl
    rw [if_neg]
    · exact accepts_pure rfl
    · simp only [Option.any_some, decide_eq_true_eq]
      omega

theorem accepts_table {l : Limits} (h : l.WellFormed 0xffffffff) {type : UInt8}
    (htype : type = 0x70 ∨ type = 0x6f) : table.Accepts (type :: limitBytes l) (· = l) := by
  have hbyte : type.toNat = 0x70 ∨ type.toNat = 0x6f := by
    rcases htype with rfl | rfl
    · exact .inl rfl
    · exact .inr rfl
  refine .placed fun pos => .next ?_
  rw [if_pos hbyte]
  exact accepts_limits h (by decide) "table"

/-- An import of either kind. -/
inductive ImportEntry where
  | function (entry : FunctionImport)
  | memory (entry : MemoryImport) (limits : Limits)

namespace ImportEntry

def bytes : ImportEntry → List UInt8
  | .function entry => encodeName entry.module ++ encodeName entry.name ++ 0 :: u32 entry.typeIndex
  | .memory entry found => encodeName entry.module ++ encodeName entry.name ++ 2 :: limitBytes found

def addTo (m : Module) : ImportEntry → Module
  | .function entry => { m with imports := m.imports.push entry }
  | .memory entry found => { m with memory := some found, memoryImport := some entry }

/-- Whether an import may be added to a module.  The type of a function is looked up apart. -/
def Fits (m : Module) : ImportEntry → Prop
  | .function entry => IsName entry.module ∧ IsName entry.name
  | .memory entry found => IsName entry.module ∧ IsName entry.name ∧ m.memory = none ∧
      found.WellFormed maxMemoryPages

/-- Whether imports may be added one after another. -/
def AllFit (m : Module) : List ImportEntry → Prop
  | [] => True
  | e :: es => e.Fits m ∧ AllFit (e.addTo m) es

def typeIndex? : ImportEntry → Option Nat
  | .function entry => some entry.typeIndex
  | .memory _ _ => none

theorem bytes_ne_nil (e : ImportEntry) : e.bytes ≠ [] := by
  cases e <;> exact List.append_ne_nil_of_right_ne_nil _ (List.cons_ne_nil _ _)

theorem types_addTo (e : ImportEntry) (m : Module) : (e.addTo m).types = m.types := by
  cases e <;> rfl

theorem size_imports_foldl (es : List ImportEntry) :
    ∀ m : Module, (es.foldl addTo m).imports.size ≤ m.imports.size + es.length := by
  induction es with
  | nil => exact fun m => Nat.le_refl _
  | cons e es ih =>
    intro m
    have hstep : (e.addTo m).imports.size ≤ m.imports.size + 1 := by
      cases e with
      | function entry => exact Nat.le_of_eq (Array.size_push entry)
      | memory entry found => exact Nat.le_succ _
    have hrest := ih (e.addTo m)
    rw [List.foldl_cons, List.length_cons]
    omega

/-- Imports that are there stay, and those that are added are there. -/
theorem mem_imports_foldl {entry : FunctionImport} (es : List ImportEntry) :
    ∀ m : Module, .function entry ∈ es ∨ entry ∈ m.imports →
      entry ∈ (es.foldl addTo m).imports := by
  induction es with
  | nil =>
    rintro m (h | h)
    · exact absurd h List.not_mem_nil
    · exact h
  | cons e es ih =>
    rintro m (h | h)
    · rcases List.mem_cons.mp h with rfl | h
      · exact ih _ (.inr (Array.mem_push_self))
      · exact ih _ (.inl h)
    · refine ih _ (.inr ?_)
      cases e with
      | function entry' => exact Array.mem_push_of_mem _ h
      | memory entry' found => exact h

end ImportEntry

theorem accepts_encodedName {s : String} (h : IsName s) (hsize : (encodeName s).length < 2 ^ 32) :
    name.Accepts (encodeName s) (· = s) := by
  rw [encodeName, counted, List.length_append] at hsize
  refine accepts_name h (u32_spec (n := (Units.toUTF8 s).size) ?_)
  change (Units.toUTF8 s).data.toList.length < 2 ^ 32
  omega

theorem accepts_importEntry {e : ImportEntry} (h : e.Fits m) (htypes : m.types.size ≤ 2 ^ 32)
    (hindex : ∀ index ∈ e.typeIndex?, index < m.types.size) (hsize : e.bytes.length < 2 ^ 32) :
    (importEntry m).Accepts e.bytes (· = e.addTo m) := by
  cases e with
  | function entry =>
    obtain ⟨hmodule, hname⟩ := h
    have hlt : entry.typeIndex < m.types.size := hindex _ rfl
    rw [ImportEntry.bytes, List.length_append, List.length_append] at hsize
    rw [ImportEntry.bytes, List.append_assoc]
    refine .step (accepts_encodedName hmodule (by omega)) ?_
    refine .step (accepts_encodedName hname (by omega)) ?_
    refine .placed fun pos => .next ?_
    refine .finish (accepts_typeIndex hlt (by omega)) ?_
    rintro _ rfl
    exact accepts_pure rfl
  | memory entry found =>
    obtain ⟨hmodule, hname, hnone, hlimits⟩ := h
    rw [ImportEntry.bytes, List.length_append, List.length_append] at hsize
    rw [ImportEntry.bytes, List.append_assoc]
    refine .step (accepts_encodedName hmodule (by omega)) ?_
    refine .step (accepts_encodedName hname (by omega)) ?_
    refine .placed fun pos => .next ?_
    change (if m.memory.isSome then _ else _ : Parser Module).Accepts _ _
    -- A second memory would be refused, but this is the first one.
    rw [if_neg (by rw [hnone]; exact Bool.false_ne_true)]
    refine .finish (accepts_limits hlimits (by decide) "memory") ?_
    rintro _ rfl
    exact accepts_pure rfl

theorem accepts_importEntries (es : List ImportEntry) : ∀ m : Module, ImportEntry.AllFit m es →
    m.types.size ≤ 2 ^ 32 → (∀ e ∈ es, ∀ index ∈ e.typeIndex?, index < m.types.size) →
    (∀ e ∈ es, e.bytes.length < 2 ^ 32) →
    (importEntries es.length m).Accepts (es.flatMap ImportEntry.bytes)
      (· = es.foldl ImportEntry.addTo m) := by
  induction es with
  | nil => exact fun m _ _ _ _ => accepts_pure rfl
  | cons e es ih =>
    intro m h htypes hindices hsize
    have hsame := ImportEntry.types_addTo e m
    refine .step (accepts_importEntry h.1 htypes (hindices e List.mem_cons_self)
      (hsize e List.mem_cons_self)) (ih _ h.2 ?_ ?_ ?_)
    · rwa [hsame]
    · rw [hsame]
      exact fun d hd => hindices d (List.mem_cons_of_mem e hd)
    · exact fun d hd => hsize d (List.mem_cons_of_mem e hd)

/-! ### The memory, globals and data -/

theorem accepts_memory {l : Limits} (h : l.WellFormed maxMemoryPages) (hnone : m.memory = none) :
    (memory m).Accepts (u32 1 ++ limitBytes l) (· = { m with memory := some l }) := by
  refine .placed fun pos => .step (accepts_u32 (u32_spec (n := 1) (by decide))) ?_
  rw [if_neg (by rw [hnone]; decide), if_pos rfl]
  refine .finish (accepts_limits h (by decide) "memory") ?_
  rintro _ rfl
  exact accepts_pure rfl

theorem accepts_constant {v : Value} (h : v.Encoded bs) :
    (constant v.type).Accepts (bs ++ [0x0b]) (· = v) := by
  have hread : ∃ b rest, bs = b :: rest ∧ ∀ pos, (literal pos b.toNat).Accepts rest (· = v) := by
    cases h with
    | i32 hbs => exact ⟨0x41, _, rfl, fun pos => .map (accepts_s32 hbs) rfl⟩
    | i64 hbs => exact ⟨0x42, _, rfl, fun pos => .map (accepts_s64 hbs) rfl⟩
  obtain ⟨b, rest, rfl, hliteral⟩ := hread
  refine .placed fun pos => .next (.step (hliteral pos) ?_)
  rw [if_neg (not_not.mpr rfl)]
  refine .placed fun last => .finish accepts_byte ?_
  rintro _ rfl
  exact accepts_pure rfl

theorem accepts_global {g : Global} {init : List UInt8} (h : g.init.Encoded init)
    (htype : g.init.type = g.type) :
    global.Accepts (g.type.byte :: (if g.isMutable then 1 else 0) :: init ++ [0x0b]) (· = g) := by
  obtain ⟨type, isMutable, value⟩ := g
  obtain rfl : value.type = type := htype
  rw [List.cons_append, List.cons_append, ← List.singleton_append]
  refine .step (accepts_valueType value.type) (.placed fun pos => ?_)
  cases isMutable with
  | false =>
    refine .next (b := 0x00) ?_
    rw [if_neg (by decide)]
    refine .finish (accepts_constant h) ?_
    rintro _ rfl
    exact accepts_pure rfl
  | true =>
    refine .next (b := 0x01) ?_
    rw [if_neg (by decide)]
    refine .finish (accepts_constant h) ?_
    rintro _ rfl
    exact accepts_pure rfl

theorem accepts_dataSegment (hmemory : m.memory.isSome) (offset : Int) {content : List UInt8}
    (hsize : content.length < 2 ^ 32) :
    (dataSegment m).Accepts (encodeData offset (counted content))
      (· = ⟨Bits.unsigned 32 offset, content⟩) := by
  have hflag : Unsigned 32 0 [0x00] := .last (b := 0x00) (by decide) (by decide)
  have hnone : ¬ m.memory.isNone = true := by
    rw [Option.isNone_eq_false_iff.mpr hmemory]
    exact Bool.false_ne_true
  have hbytes : encodeData offset (counted content)
      = [0x00] ++ ((0x41 :: s32 offset ++ [0x0b]) ++ (u32 content.length ++ content)) := by
    simp [encodeData, counted]
  rw [hbytes]
  refine .placed fun pos => .step (accepts_u32 hflag) ?_
  refine .known ?_
  rw [if_neg hnone]
  refine .step (accepts_constant (.i32 (s32_spec offset))) (.step (accepts_u32 (u32_spec hsize)) ?_)
  refine .finish accepts_bytes fun found hfound => accepts_pure ?_
  rw [hfound]
  exact congrArg (DataSegment.mk · content) (Bits.unsigned_signed 32 offset)

/-! ### Exports and the start function -/

def exportBytes (e : Export) : List UInt8 := encodeName e.name ++ e.kind.byte :: u32 e.index

theorem exportKind?_byte (m : Module) (kind : ExportKind) :
    exportKind? m kind.byte.toNat = some (kind, m.spaceSize kind) := by
  cases kind <;> rfl

theorem accepts_exportEntry {e : Export} (hname : IsName e.name)
    (hindex : e.index < m.spaceSize e.kind) (hsmall : e.index < 2 ^ 32)
    {read : Array Export} (hnew : e.name ∉ read.toList.map Export.name)
    (hsize : (exportBytes e).length < 2 ^ 32) :
    (exportEntry m read).Accepts (exportBytes e) (· = e) := by
  rw [exportBytes, List.length_append] at hsize
  refine .placed fun pos => .step (accepts_encodedName hname (by omega)) ?_
  rw [if_neg]
  · refine .placed fun descriptor => .next ?_
    refine .finish (accepts_u32 (u32_spec hsmall)) ?_
    rintro _ rfl
    rw [exportKind?_byte]
    dsimp only
    rw [if_pos hindex]
    exact accepts_pure rfl
  · intro hany
    obtain ⟨d, hd, hsame⟩ := Array.any_eq_true'.mp hany
    refine hnew (List.mem_map.mpr ⟨d, Array.mem_toList_iff.mpr hd, ?_⟩)
    simpa using hsame

theorem accepts_exportEntries (es : List Export) : ∀ read : Array Export,
    (∀ e ∈ es, IsName e.name ∧ e.index < m.spaceSize e.kind ∧ e.index < 2 ^ 32
      ∧ (exportBytes e).length < 2 ^ 32) →
    (read.toList.map Export.name ++ es.map Export.name).Nodup →
    (exportEntries m es.length read).Accepts (es.flatMap exportBytes)
      (·.toList = read.toList ++ es) := by
  induction es with
  | nil => exact fun read _ _ => accepts_pure (List.append_nil _).symm
  | cons e es ih =>
    intro read h hnodup
    obtain ⟨hname, hindex, hsmall, hsize⟩ := h e List.mem_cons_self
    have hnew : e.name ∉ read.toList.map Export.name := fun hmem =>
      (List.nodup_append.mp hnodup).2.2 e.name hmem e.name List.mem_cons_self rfl
    refine .step (accepts_exportEntry hname hindex hsmall hnew hsize) ?_
    have hrest := ih (read.push e) fun d hd => h d (List.mem_cons_of_mem e hd)
    refine (hrest ?_).mono fun all hall => ?_
    · rw [Array.toList_push, List.map_append, List.append_assoc]
      exact hnodup
    · rw [hall, Array.toList_push, List.append_assoc]
      rfl

theorem accepts_start {function : Nat} (hindex : function < m.functionCount)
    (hsmall : function < 2 ^ 32) (htype : m.functionType? function = some ⟨[], []⟩) :
    (start m).Accepts (u32 function) (· = { m with start := some function }) := by
  refine .placed fun pos => .finish (accepts_u32 (u32_spec hsmall)) ?_
  rintro _ rfl
  rw [if_neg (Nat.not_le.mpr hindex), if_pos htype]
  exact accepts_pure rfl

end Decode

end WasmScript
