/-
  WasmScript/Proofs/Module/Assembling.lean
  ========================================
  **Assembled modules are read back** — what is given to an assembler is what its bytes are
  read as.

  `Assembler.Call.Adds` says what one call adds to a module, and what a call has to be for
  that: imported functions come before defined ones, there is one memory at most, values
  are of the two integer types.  `Assembler.Holds` is what a call keeps: the items of an
  assembler are encodings of the parts of the module that was described so far.  Whether
  the parts fit together is asked of the whole module only.
-/
import WasmScript.Proofs.Module.Framing

namespace WasmScript

open WasmScript.Parser Decode

namespace Assembler

/-! ### Calls -/

/-- A call of an assembler. -/
inductive Call where
  | addType (params results : List UInt8)
  | addImport (module name : String) (typeIndex : Int)
  | addMemoryImport (module name : String) (initial : Int) (maximum : Option Int)
  | addFunction (typeIndex : Int)
  | addCode (index : Int) (locals : List Int) (body : List UInt8)
  | addTable (type : UInt8) (initial : Int) (maximum : Option Int)
  | addMemory (initial : Int) (maximum : Option Int)
  | addGlobal (type : UInt8) (isMutable : Bool) (init : List UInt8)
  | addExport (name : String) (kind : UInt8) (index : Int)
  | addData (offset : Int) (bytes : List UInt8)
  | addCustomSection (name : String) (bytes : List UInt8)
  | setStart (function : Int)
deriving DecidableEq, Repr

namespace Call

def perform (a : Assembler) : Call → Except AssemblyError Assembler
  | .addType params results => .ok (a.addType params results).2
  | .addImport module name typeIndex => .ok (a.addImport module name typeIndex).2
  | .addMemoryImport module name initial maximum =>
    .ok (a.addMemoryImport module name initial maximum)
  | .addFunction typeIndex => .ok (a.addFunction typeIndex).2
  | .addCode index locals body => a.addCode index locals body
  | .addTable type initial maximum => .ok (a.addTable type initial maximum).2
  | .addMemory initial maximum => .ok (a.addMemory initial maximum).2
  | .addGlobal type isMutable init => .ok (a.addGlobal type isMutable init).2
  | .addExport name kind index => .ok (a.addExport name kind index)
  | .addData offset bytes => .ok (a.addData offset bytes).2
  | .addCustomSection name bytes => .ok (a.addCustomSection name bytes)
  | .setStart function => .ok (a.setStart function)

/-- Performs calls one after another. -/
def performAll (a : Assembler) : List Call → Except AssemblyError Assembler
  | [] => .ok a
  | c :: cs => c.perform a >>= fun a => performAll a cs

/-- What a call adds to a module, which in the end has the given types.  Code is known by what it
encodes; code that is to be replaced need not encode anything. -/
inductive Adds (ts : Array FunctionType) (m : Module) : Call → Module → Prop where
  | type (params results : List ValueType) :
      Adds ts m (.addType (params.map ValueType.byte) (results.map ValueType.byte))
        { m with types := m.types.push ⟨params, results⟩ }
  | functionImport (entry : FunctionImport) :
      m.functions = #[] → IsName entry.module → IsName entry.name →
      Adds ts m (.addImport entry.module entry.name entry.typeIndex)
        { m with imports := m.imports.push entry }
  | memoryImport (entry : MemoryImport) (found : Limits) :
      m.memory = none → IsName entry.module → IsName entry.name →
      found.WellFormed maxMemoryPages →
      Adds ts m
        (.addMemoryImport entry.module entry.name found.initial (found.maximum.map Int.ofNat))
        { m with memory := some found, memoryImport := some entry }
  | function (typeIndex : Nat) :
      Adds ts m (.addFunction typeIndex)
        { m with functions := m.functions.push typeIndex, bodies := m.bodies.push ⟨#[], #[], 0⟩ }
  | code {place : Nat} (b : Body) {bss : List (List UInt8)} :
      place < m.functions.size → List.Forall₂ (Instruction.Encoded ts) b.code bss →
      Adds ts m
        (.addCode (m.imports.size + place : Nat)
          (b.locals.toList.map fun t => (t.byte.toNat : Int)) bss.flatten)
        { m with bodies := m.bodies.setIfInBounds place b }
  | replaced {place : Nat} (locals : List Int) (body : List UInt8) :
      place < m.functions.size →
      Adds ts m (.addCode (m.imports.size + place : Nat) locals body)
        { m with bodies := m.bodies.setIfInBounds place ⟨#[], #[], 0⟩ }
  | table (found : Limits) {type : UInt8} : type = 0x70 ∨ type = 0x6f →
      found.WellFormed 0xffffffff →
      Adds ts m (.addTable type found.initial (found.maximum.map Int.ofNat))
        { m with tables := m.tables ++ [found] }
  | memory (found : Limits) : m.memory = none → found.WellFormed maxMemoryPages →
      Adds ts m (.addMemory found.initial (found.maximum.map Int.ofNat))
        { m with memory := some found }
  | global (g : Global) {init : List UInt8} : g.init.type = g.type → g.init.Encoded init →
      Adds ts m (.addGlobal g.type.byte g.isMutable init) { m with globals := m.globals.push g }
  | export (e : Export) : IsName e.name →
      Adds ts m (.addExport e.name e.kind.byte e.index) { m with exports := m.exports ++ [e] }
  | data (offset : Int) (bytes : List UInt8) :
      Adds ts m (.addData offset bytes)
        { m with data := m.data ++ [⟨Bits.unsigned 32 offset, bytes⟩] }
  | customSection {label : String} (bytes : List UInt8) : IsName label →
      Adds ts m (.addCustomSection label bytes)
        { m with customSections := m.customSections ++ [label] }
  | start (function : Nat) :
      Adds ts m (.setStart function) { m with start := some function }

/-- What calls add to a module one after another. -/
inductive AddAll (ts : Array FunctionType) : Module → List Call → Module → Prop where
  | nil (m : Module) : AddAll ts m [] m
  | cons {m m' m'' : Module} {c : Call} {cs : List Call} :
      Adds ts m c m' → AddAll ts m' cs m'' → AddAll ts m (c :: cs) m''

end Call

/-! ### What an assembler holds -/

/-- The memory of a module, if it is imported. -/
def importedMemory (m : Module) : Option Limits := if m.memoryImport.isSome then m.memory else none

/-- What is known of a module once the sections up to one of them are read. -/
def upTo (m : Module) : SectionId → Module
  | .custom => {}
  | .type => { types := m.types }
  | .import =>
    { types := m.types, imports := m.imports, memory := importedMemory m
      memoryImport := m.memoryImport }
  | .function =>
    { types := m.types, imports := m.imports, memory := importedMemory m
      memoryImport := m.memoryImport, functions := m.functions }
  | .table =>
    { types := m.types, imports := m.imports, memory := importedMemory m
      memoryImport := m.memoryImport, functions := m.functions, tables := m.tables }
  | .memory =>
    { types := m.types, imports := m.imports, memory := m.memory
      memoryImport := m.memoryImport, functions := m.functions, tables := m.tables }
  | .global =>
    { m with exports := [], start := none, bodies := #[], data := [], customSections := [] }
  | .export => { m with start := none, bodies := #[], data := [], customSections := [] }
  | .start | .element | .dataCount => { m with bodies := #[], data := [], customSections := [] }
  | .code => { m with data := [], customSections := [] }
  | .data => { m with customSections := [] }

/-- The items of an assembler are encodings of the parts of a module. -/
structure Holds (ts : Array FunctionType) (a : Assembler) (m : Module) : Prop where
  types : a.types.toList = m.types.toList.map typeBytes
  imports : ∃ es : List ImportEntry, a.imports.toList = es.map ImportEntry.bytes ∧
    ImportEntry.AllFit { types := ts } es ∧
    es.foldl ImportEntry.addTo { types := ts } =
      { types := ts, imports := m.imports, memory := importedMemory m
        memoryImport := m.memoryImport }
  importedFunctions : a.importedFunctions = m.imports.size
  functions : a.functions.toList = m.functions.toList.map fun i : Nat => u32 i
  tables : Items table m.tables a.tables.toList
  memories : a.memories.toList =
    if m.memoryImport.isSome then [] else m.memory.toList.map limitBytes
  memory : ∀ found ∈ m.memory, found.WellFormed maxMemoryPages
  imported : m.memoryImport.isSome → m.memory.isSome
  globals : Items global m.globals.toList a.globals.toList
  exports : a.exports.toList = m.exports.map exportBytes
  exportNames : ∀ e ∈ m.exports, IsName e.name
  start : a.start = m.start.map Int.ofNat
  codes : List.Forall₂ (fun b code => b.code ≠ [] → b.Encoded ts code)
    m.bodies.toList a.codes.toList
  bodies : m.bodies.size = m.functions.size
  data : List.Forall₂ (fun d item => ∃ offset : Int, d.offset = Bits.unsigned 32 offset ∧
    item = encodeData offset (counted d.bytes)) m.data a.data.toList
  customSections : List.Forall₂ (fun label content => IsName label ∧
    ∃ more, content = encodeName label ++ more) m.customSections a.customSections.toList

variable {ts : Array FunctionType} {a : Assembler} {m m' : Module} {c : Call}

theorem holds_empty : Holds ts {} {} where
  types := rfl
  imports := ⟨[], rfl, trivial, rfl⟩
  importedFunctions := rfl
  functions := rfl
  tables := .nil
  memories := rfl
  memory := by rintro found ⟨⟩
  imported h := h
  globals := .nil
  exports := rfl
  exportNames := by rintro e ⟨⟩
  start := rfl
  codes := .nil
  bodies := rfl
  data := .nil
  customSections := .nil

theorem forall₂_append_singleton {α β : Type} {R : α → β → Prop} {as : List α} {bs : List β}
    (h : List.Forall₂ R as bs) {a : α} {b : β} (hab : R a b) :
    List.Forall₂ R (as ++ [a]) (bs ++ [b]) :=
  List.rel_append h (.cons hab .nil)

theorem forall₂_set {α β : Type} {R : α → β → Prop} {as : List α} {bs : List β}
    (h : List.Forall₂ R as bs) {a : α} {b : β} (hab : R a b) :
    ∀ i : Nat, List.Forall₂ R (as.set i a) (bs.set i b) := by
  induction h with
  | nil => exact fun i => .nil
  | cons hhead htail ih =>
    intro i
    cases i with
    | zero => exact .cons hab htail
    | succ i => exact .cons hhead (ih i)

theorem allFit_append (e : ImportEntry) : ∀ (es : List ImportEntry) (m : Module),
    ImportEntry.AllFit m es → e.Fits (es.foldl ImportEntry.addTo m) →
    ImportEntry.AllFit m (es ++ [e])
  | [], _, _, he => ⟨he, trivial⟩
  | _ :: es, _, h, he => ⟨h.1, allFit_append e es _ h.2 he⟩

theorem Holds.memoryImport_eq_none (h : Holds ts a m) (hnone : m.memory = none) :
    m.memoryImport = none := by
  rw [← Option.not_isSome_iff_eq_none]
  intro hsome
  have hmemory := h.imported hsome
  rw [hnone] at hmemory
  cases hmemory

/-- Code for a function that is there replaces the code that it had. -/
theorem Holds.addCode (h : Holds ts a m) {place : Nat} (hplace : place < m.functions.size)
    {b : Body} {locals : List Int} {body : List UInt8}
    (hcode : b.code ≠ [] → b.Encoded ts (encodeLocals locals ++ body)) :
    ∃ a', a.addCode (m.imports.size + place : Nat) locals body = .ok a' ∧
      Holds ts a' { m with bodies := m.bodies.setIfInBounds place b } := by
  have hsize : a.codes.size = m.functions.size := by
    rw [← h.bodies, ← Array.length_toList, ← Array.length_toList, h.codes.length_eq]
  have hindex : ((m.imports.size + place : Nat) : Int) - a.importedFunctions = place := by
    rw [h.importedFunctions]
    omega
  refine ⟨a.setCode place (encodeLocals locals ++ body), ?_, { h with codes := ?_, bodies := ?_ }⟩
  · rw [Assembler.addCode, hindex, if_neg (by omega), Int.toNat_natCast]
  · rw [setCode]
    simp only [Array.toList_setIfInBounds]
    exact forall₂_set h.codes hcode place
  · rw [Array.size_setIfInBounds]
    exact h.bodies

/-- A call does not fail, and what it adds to the assembler encodes what it adds to the module. -/
theorem Holds.perform (h : Holds ts a m) (hc : Call.Adds ts m c m') :
    ∃ a', c.perform a = .ok a' ∧ Holds ts a' m' := by
  cases hc with
  | type params results =>
    refine ⟨_, rfl, { h with types := ?_ }⟩
    simp only [addType, pushType, Array.toList_push, List.map_append, h.types]
    rfl
  | functionImport entry hfunctions hmodule hname =>
    obtain ⟨es, hes, hfit, hfold⟩ := h.imports
    refine ⟨_, rfl, { h with
      imports := ⟨es ++ [.function entry], ?_, ?_, ?_⟩
      importedFunctions := ?_ }⟩
    · simp only [addImport, pushImport, Array.toList_push, List.map_append, hes]
      rfl
    · exact allFit_append _ _ _ hfit ⟨hmodule, hname⟩
    · rw [List.foldl_append, hfold]
      rfl
    · simp only [addImport, pushImport, Array.size_push, h.importedFunctions]
  | memoryImport entry found hnone hmodule hname hfound =>
    obtain ⟨es, hes, hfit, hfold⟩ := h.imports
    -- A module has one memory, which is imported or its own.
    have himport := h.memoryImport_eq_none hnone
    refine ⟨_, rfl, { h with
      imports := ⟨es ++ [.memory entry found], ?_, ?_, ?_⟩
      memories := ?_
      memory := ?_
      imported := fun _ => rfl }⟩
    · simp only [addMemoryImport, pushImport, Array.toList_push, List.map_append, hes]
      rfl
    · refine allFit_append _ _ _ hfit ⟨hmodule, hname, ?_, hfound⟩
      rw [hfold, importedMemory, himport]
      rfl
    · rw [List.foldl_append, hfold]
      rfl
    · have hmemories := h.memories
      rw [himport, hnone] at hmemories
      exact hmemories
    · rintro _ ⟨⟩
      exact hfound
  | function typeIndex =>
    refine ⟨_, rfl, { h with functions := ?_, codes := ?_, bodies := ?_ }⟩
    · simp only [addFunction, Array.toList_push, List.map_append, h.functions]
      rfl
    · simp only [addFunction, Array.toList_push]
      exact forall₂_append_singleton h.codes fun hne => (hne rfl).elim
    · simp only [Array.size_push, h.bodies]
  | code b hplace hbss => exact h.addCode hplace fun _ => ⟨_, hbss, rfl⟩
  | replaced locals body hplace => exact h.addCode hplace fun hne => (hne rfl).elim
  | table found htype hfound =>
    refine ⟨_, rfl, { h with tables := ?_ }⟩
    simp only [addTable, Array.toList_push]
    exact forall₂_append_singleton h.tables ⟨accepts_table hfound htype, List.cons_ne_nil _ _⟩
  | memory found hnone hfound =>
    have himport := h.memoryImport_eq_none hnone
    obtain ⟨es, hes, hfit, hfold⟩ := h.imports
    have hmemories := h.memories
    rw [himport, hnone] at hmemories
    rw [importedMemory, himport] at hfold
    refine ⟨_, rfl, { h with
      imports := ⟨es, hes, hfit, ?_⟩
      memories := ?_
      memory := ?_
      imported := fun _ => rfl }⟩
    · rw [hfold, importedMemory, himport]
      rfl
    · simp only [addMemory, Array.toList_push, hmemories, himport]
      rfl
    · rintro _ ⟨⟩
      exact hfound
  | global g htype hinit =>
    refine ⟨_, rfl, { h with globals := ?_ }⟩
    simp only [addGlobal, Array.toList_push]
    exact forall₂_append_singleton h.globals ⟨accepts_global hinit htype, List.cons_ne_nil _ _⟩
  | «export» e hname =>
    refine ⟨_, rfl, { h with exports := ?_, exportNames := ?_ }⟩
    · simp only [addExport, Array.toList_push, List.map_append, h.exports]
      rfl
    · intro e' he'
      rcases List.mem_append.mp he' with he' | he'
      · exact h.exportNames e' he'
      · obtain rfl := List.mem_singleton.mp he'
        exact hname
  | data offset bytes =>
    refine ⟨_, rfl, { h with data := ?_ }⟩
    simp only [addData, pushData, Array.toList_push]
    exact forall₂_append_singleton h.data ⟨offset, rfl, rfl⟩
  | customSection bytes hlabel =>
    refine ⟨_, rfl, { h with customSections := ?_ }⟩
    simp only [addCustomSection, Array.toList_push]
    exact forall₂_append_singleton h.customSections ⟨hlabel, bytes, rfl⟩
  | start function => exact ⟨_, rfl, { h with start := rfl }⟩

theorem Holds.performAll {cs : List Call} (hcs : Call.AddAll ts m cs m') :
    ∀ {a : Assembler}, Holds ts a m → ∃ a', Call.performAll a cs = .ok a' ∧ Holds ts a' m' := by
  induction hcs with
  | nil m => exact fun h => ⟨_, rfl, h⟩
  | cons hc _ ih =>
    intro a h
    obtain ⟨a₁, ha₁, h₁⟩ := h.perform hc
    obtain ⟨a₂, ha₂, h₂⟩ := ih h₁
    refine ⟨a₂, ?_, h₂⟩
    rw [Call.performAll, ha₁]
    exact ha₂

/-! ### Reading the sections -/

theorem forall₂_imp_mem {α β : Type} {R S : α → β → Prop} {as : List α} {bs : List β}
    (h : List.Forall₂ R as bs) (himp : ∀ a ∈ as, ∀ b ∈ bs, R a b → S a b) :
    List.Forall₂ S as bs := by
  induction h with
  | nil => exact .nil
  | cons hhead _ ih =>
    refine .cons (himp _ List.mem_cons_self _ List.mem_cons_self hhead) (ih fun a ha b hb => ?_)
    exact himp a (List.mem_cons_of_mem _ ha) b (List.mem_cons_of_mem _ hb)

theorem items_map {α : Type} {item : Parser α} {write : α → List UInt8} {as : List α}
    (h : ∀ a ∈ as, item.Accepts (write a) (· = a) ∧ write a ≠ []) : Items item as (as.map write) :=
  List.forall₂_map_right_iff.mpr (List.forall₂_same.mpr h)

theorem length_sectionsBytes (a : Assembler) : a.sectionsBytes.length =
    (itemBytes .type a.types.toList).length + (itemBytes .import a.imports.toList).length
    + (itemBytes .function a.functions.toList).length + (itemBytes .table a.tables.toList).length
    + (itemBytes .memory a.memories.toList).length + (itemBytes .global a.globals.toList).length
    + (itemBytes .export a.exports.toList).length + (startBytes a.start).length
    + (itemBytes .code (a.codes.toList.map counted)).length + (itemBytes .data a.data.toList).length
    + (a.customSections.toList.flatMap (sectionBytes .custom)).length := by
  simp only [sectionsBytes, List.length_append]
  omega

section

variable {rest : List UInt8} {Q : Progress → Prop}
variable (h : Holds m.types a m) (hm : m.WellFormed) (hsize : a.sectionsBytes.length < 2 ^ 32)

theorem Holds.imports_ne_nil {ts : Array FunctionType} (h : Holds ts a m) :
    ∀ bs ∈ a.imports.toList, bs ≠ [] := by
  obtain ⟨es, hes, -⟩ := h.imports
  rw [hes]
  intro bs hbs
  obtain ⟨e, -, rfl⟩ := List.mem_map.mp hbs
  exact ImportEntry.bytes_ne_nil e

theorem Holds.functions_ne_nil {ts : Array FunctionType} (h : Holds ts a m) :
    ∀ bs ∈ a.functions.toList, bs ≠ [] := by
  rw [h.functions]
  intro bs hbs
  obtain ⟨i, -, rfl⟩ := List.mem_map.mp hbs
  exact Leb128.unsigned_ne_nil _

include h hsize

theorem size_types_lt : m.types.size < 2 ^ 32 := by
  have hlength := length_sectionsBytes a
  have hnonempty : ∀ bs ∈ a.types.toList, bs ≠ [] := by
    rw [h.types]
    intro bs hbs
    obtain ⟨t, -, rfl⟩ := List.mem_map.mp hbs
    exact List.cons_ne_nil _ _
  have hcount := count_le_itemBytes .type hnonempty
  have hsame : a.types.toList.length = m.types.size := by
    rw [h.types, List.length_map, Array.length_toList]
  omega

/-- An index that names something is one of 32 bits. -/
theorem spaceSize_lt (kind : ExportKind) : m.spaceSize kind < 2 ^ 32 := by
  have hlength := length_sectionsBytes a
  -- Each item takes a byte at least, and all sections together fit into the size of the module.
  cases kind with
  | function =>
    obtain ⟨es, hes, -, hfold⟩ := h.imports
    have himports := ImportEntry.size_imports_foldl es { types := m.types }
    rw [hfold] at himports
    have hentries : a.imports.toList.length = es.length := by rw [hes, List.length_map]
    have hfunctions : a.functions.toList.length = m.functions.size := by
      rw [h.functions, List.length_map, Array.length_toList]
    have hfirst := count_le_itemBytes .import h.imports_ne_nil
    have hsecond := count_le_itemBytes .function h.functions_ne_nil
    change m.imports.size ≤ 0 + es.length at himports
    change m.imports.size + m.functions.size < 2 ^ 32
    omega
  | table =>
    have hcount := count_le_itemBytes .table (ne_nil_of_items h.tables)
    have hsame := h.tables.length_eq
    change m.tables.length < 2 ^ 32
    omega
  | memory =>
    change (if m.memory.isSome then 1 else 0) < 2 ^ 32
    split <;> decide
  | global =>
    have hcount := count_le_itemBytes .global (ne_nil_of_items h.globals)
    have hsame : m.globals.size = a.globals.toList.length := by
      rw [← Array.length_toList, h.globals.length_eq]
    change m.globals.size < 2 ^ 32
    omega

theorem continues_types
    (hnext : Continues rest (SectionId.type.rank + 1) { module := upTo m .type } Q) :
    Continues (itemBytes .type a.types.toList ++ rest) SectionId.type.rank {} Q := by
  have hlength := length_sectionsBytes a
  have hitems : Items functionType m.types.toList a.types.toList := by
    rw [h.types]
    refine items_map fun t ht => ⟨accepts_functionType ?_, List.cons_ne_nil _ _⟩
    have hmem : typeBytes t ∈ a.types.toList := by
      rw [h.types]
      exact List.mem_map_of_mem ht
    have hle := length_le_itemBytes .type hmem
    omega
  exact continues_vector (fun types => { module := upTo { m with types } .type })
    (by decide) rfl rfl hitems (by omega) hnext

include hm

theorem continues_imports
    (hnext : Continues rest (SectionId.import.rank + 1) { module := upTo m .import } Q) :
    Continues (itemBytes .import a.imports.toList ++ rest) SectionId.import.rank
      { module := upTo m .type } Q := by
  have hlength := length_sectionsBytes a
  obtain ⟨es, hes, hfit, hfold⟩ := h.imports
  have hindices : ∀ e ∈ es, ∀ index ∈ e.typeIndex?, index < m.types.size := by
    rintro (entry | entry) he index ⟨⟩
    have hmem := ImportEntry.mem_imports_foldl es { types := m.types } (.inl he)
    rw [hfold] at hmem
    exact hm.imports entry hmem
  have hsmall : ∀ e ∈ es, e.bytes.length < 2 ^ 32 := by
    intro e he
    have hmem : e.bytes ∈ a.imports.toList := by
      rw [hes]
      exact List.mem_map_of_mem he
    have hle := length_le_itemBytes .import hmem
    omega
  refine continues_items (by decide) h.imports_ne_nil (by omega) (fun hspec => ?_)
    (fun hnil => ?_) hnext
  · have htypes : m.types.size ≤ 2 ^ 32 := Nat.le_of_lt (size_types_lt h hsize)
    have hread := accepts_importEntries es { types := m.types } hfit htypes hindices hsmall []
    have hflat : a.imports.toList.flatten = es.flatMap ImportEntry.bytes := by
      rw [hes]
      rfl
    have hcount : a.imports.toList.length = es.length := by rw [hes, List.length_map]
    have hle := length_le_flatten (R := fun _ bs => bs ≠ [])
      (List.forall₂_same.mpr h.imports_ne_nil) fun _ _ h => h
    rw [List.append_nil, hfold, ← hflat] at hread
    refine .bind (reads_vectorCount hspec hle) ?_
    rintro _ rfl
    rw [hcount]
    refine .bind hread ?_
    rintro _ rfl
    exact reads_pure rfl
  -- Without imports there is no section, and nothing that reading it would add.
  · have hempty : es = [] := List.map_eq_nil_iff.mp (hes.symm.trans hnil)
    rw [hempty] at hfold
    exact congrArg (fun module : Module => ({ module } : Progress)) hfold

theorem continues_functions
    (hnext : Continues rest (SectionId.function.rank + 1) { module := upTo m .function } Q) :
    Continues (itemBytes .function a.functions.toList ++ rest) SectionId.function.rank
      { module := upTo m .import } Q := by
  have hlength := length_sectionsBytes a
  have htypes := size_types_lt h hsize
  have hitems : Items (typeIndex (upTo m .import)) m.functions.toList a.functions.toList := by
    rw [h.functions]
    refine items_map fun i hi => ?_
    have hlt := hm.functions i (Array.mem_toList_iff.mp hi)
    exact ⟨accepts_typeIndex hlt (by omega), Leb128.unsigned_ne_nil _⟩
  exact continues_vector (fun functions => { module := upTo { m with functions } .function })
    (by decide) rfl rfl hitems (by omega) hnext

omit hm

theorem continues_tables
    (hnext : Continues rest (SectionId.table.rank + 1) { module := upTo m .table } Q) :
    Continues (itemBytes .table a.tables.toList ++ rest) SectionId.table.rank
      { module := upTo m .function } Q := by
  have hlength := length_sectionsBytes a
  exact continues_vector
    (fun tables => { module := upTo { m with tables := tables.toList } .table })
      (by decide) rfl rfl h.tables (by omega) hnext

theorem continues_memory
    (hnext : Continues rest (SectionId.memory.rank + 1) { module := upTo m .memory } Q) :
    Continues (itemBytes .memory a.memories.toList ++ rest) SectionId.memory.rank
      { module := upTo m .table } Q := by
  have hlength := length_sectionsBytes a
  have hmemories := h.memories
  -- An imported memory has been read with the imports, and has no section of its own.
  by_cases himport : m.memoryImport.isSome = true
  · have hsame : upTo m .table = upTo m .memory := by
      rw [upTo, upTo, importedMemory, if_pos himport]
    rw [if_pos himport] at hmemories
    rw [hmemories, hsame]
    exact hnext.mono (Nat.le_succ _)
  rw [if_neg himport] at hmemories
  cases hmemory : m.memory with
  | none =>
    have hsame : upTo m .table = upTo m .memory := by
      rw [upTo, upTo, importedMemory, hmemory, ite_self]
    rw [hmemory] at hmemories
    rw [hmemories, hsame]
    exact hnext.mono (Nat.le_succ _)
  | some found =>
    have hfound := h.memory found hmemory
    have hnone : (upTo m .table).memory = none := if_neg himport
    have hread := accepts_memory hfound hnone []
    have hone : a.memories.toList = [limitBytes found] := by
      rw [hmemories, hmemory]
      rfl
    rw [List.append_nil] at hread
    rw [hone] at hlength ⊢
    refine continues_items (by decide) ?_ (by omega) (fun hspec => ?_) (fun hnil => ?_) hnext
    · refine List.forall_mem_singleton.mpr ?_
      cases hmaximum : found.maximum <;> simp [limitBytes, encodeLimits, hmaximum]
    · rw [List.flatten_singleton]
      refine .bind hread ?_
      rintro _ rfl
      refine reads_pure (congrArg (fun module : Module => ({ module } : Progress)) ?_)
      rw [upTo, upTo, hmemory]
    · cases hnil

theorem continues_globals
    (hnext : Continues rest (SectionId.global.rank + 1) { module := upTo m .global } Q) :
    Continues (itemBytes .global a.globals.toList ++ rest) SectionId.global.rank
      { module := upTo m .memory } Q := by
  have hlength := length_sectionsBytes a
  exact continues_vector (fun globals => { module := upTo { m with globals } .global })
    (by decide) rfl rfl h.globals (by omega) hnext

include hm

theorem continues_exports
    (hnext : Continues rest (SectionId.export.rank + 1) { module := upTo m .export } Q) :
    Continues (itemBytes .export a.exports.toList ++ rest) SectionId.export.rank
      { module := upTo m .global } Q := by
  have hlength := length_sectionsBytes a
  have hnonempty : ∀ bs ∈ a.exports.toList, bs ≠ [] := by
    rw [h.exports]
    intro bs hbs
    obtain ⟨e, -, rfl⟩ := List.mem_map.mp hbs
    exact List.append_ne_nil_of_right_ne_nil _ (List.cons_ne_nil _ _)
  -- Each export is a part of its section, so its size is in range as well.
  have hall : ∀ e ∈ m.exports, IsName e.name ∧ e.index < m.spaceSize e.kind ∧ e.index < 2 ^ 32
      ∧ (exportBytes e).length < 2 ^ 32 := by
    intro e he
    have hmem : exportBytes e ∈ a.exports.toList := by
      rw [h.exports]
      exact List.mem_map_of_mem he
    have hle := length_le_itemBytes .export hmem
    have hindex := hm.exports e he
    exact ⟨h.exportNames e he, hindex, hindex.trans (spaceSize_lt h hsize e.kind), by omega⟩
  refine continues_items (by decide) hnonempty (by omega) (fun hspec => ?_) (fun hnil => ?_) hnext
  · have hread := accepts_exportEntries (m := upTo m .global) m.exports #[] hall hm.exportNames []
    have hflat : a.exports.toList.flatten = m.exports.flatMap exportBytes := by
      rw [h.exports]
      rfl
    have hcount : a.exports.toList.length = m.exports.length := by rw [h.exports, List.length_map]
    have hle := length_le_flatten (R := fun _ bs => bs ≠ []) (List.forall₂_same.mpr hnonempty)
      fun _ _ h => h
    rw [List.append_nil, ← hflat] at hread
    refine .bind (reads_vectorCount hspec hle) ?_
    rintro _ rfl
    rw [hcount]
    refine .bind hread fun found hfound => ?_
    refine reads_pure ?_
    rw [hfound]
    rfl
  · have hempty : m.exports = [] := List.map_eq_nil_iff.mp (h.exports.symm.trans hnil)
    rw [upTo, upTo, hempty]

theorem continues_start
    (hnext : Continues rest (SectionId.start.rank + 1) { module := upTo m .start } Q) :
    Continues (startBytes a.start ++ rest) SectionId.start.rank
      { module := upTo m .export } Q := by
  -- Without a start function there is no section.
  cases hfunction : m.start with
  | none =>
    have hstart : startBytes a.start = [] := by
      rw [h.start, hfunction]
      rfl
    have hsame : upTo m .export = upTo m .start := by rw [upTo, upTo, hfunction]
    rw [hstart, hsame]
    exact hnext.mono (Nat.le_succ _)
  | some function =>
    obtain ⟨hindex, htype⟩ := hm.start function hfunction
    have hsmall : function < 2 ^ 32 := hindex.trans (spaceSize_lt h hsize .function)
    have hstart : startBytes a.start = sectionBytes .start (u32 function) := by
      rw [h.start, hfunction]
      rfl
    have hread := accepts_start (m := upTo m .export) hindex hsmall htype []
    have hcontents : (contents .start { module := upTo m .export }).Reads (u32 function) []
        (· = { module := upTo m .start }) := by
      rw [List.append_nil] at hread
      refine .bind hread ?_
      rintro _ rfl
      refine reads_pure (congrArg (fun module : Module => ({ module } : Progress)) ?_)
      rw [upTo, upTo, hfunction]
    have hlength := length_sectionsBytes a
    have hlt := length_lt_sectionBytes .start (u32 function)
    rw [hstart] at hlength ⊢
    refine continues_section (by decide) hcontents (by omega) ?_
    rintro _ rfl
    exact hnext

theorem continues_data {found : Array Body} {saw : Bool}
    (hnext : Continues rest (SectionId.data.rank + 1)
      ⟨upTo { m with bodies := found } .data, none, saw⟩ Q) :
    Continues (itemBytes .data a.data.toList ++ rest) SectionId.data.rank
      ⟨upTo { m with bodies := found } .code, none, saw⟩ Q := by
  have hlength := length_sectionsBytes a
  have hitems : Items (dataSegment (upTo { m with bodies := found } .code))
      m.data a.data.toList := by
    refine forall₂_imp_mem h.data fun d hd item hitem => ?_
    rintro ⟨offset, hoffset, rfl⟩
    have hle := length_le_itemBytes .data hitem
    simp only [encodeData, counted, List.length_append, List.length_cons] at hle
    have hcontent : d.bytes.length < 2 ^ 32 := by omega
    have haccepts := accepts_dataSegment (m := upTo { m with bodies := found } .code)
      (hm.data d hd).1 offset hcontent
    rw [← hoffset] at haccepts
    exact ⟨haccepts, List.cons_ne_nil _ _⟩
  exact continues_vector
    (fun data => ⟨upTo { m with bodies := found, data := data.toList } .data, none, saw⟩)
    (by decide) rfl rfl hitems (by omega) hnext

/-- The bodies that are read agree with those of the module; they are there if functions are. -/
theorem continues_code
    (hnext : ∀ found saw, List.Forall₂ Body.Agrees m.bodies.toList found.toList →
      (m.functions.size = 0 ∨ saw = true) → Continues rest (SectionId.code.rank + 1)
        ⟨upTo { m with bodies := found } .code, none, saw⟩ Q) :
    Continues (itemBytes .code (a.codes.toList.map counted) ++ rest) SectionId.code.rank
      { module := upTo m .start } Q := by
  have hlength := length_sectionsBytes a
  have hcount : a.codes.toList.length = m.functions.size := by
    rw [← h.bodies, ← h.codes.length_eq, Array.length_toList]
  have hbodies : List.Forall₂ (fun b code => b.WellFormed m.functionCount ∧ b.Encoded m.types code
      ∧ code.length < 2 ^ 32) m.bodies.toList a.codes.toList := by
    refine forall₂_imp_mem h.codes fun b hb code hcode hencoded => ?_
    have hwell := hm.bodies b (Array.mem_toList_iff.mp hb)
    -- A body without code would not be closed.
    have hne : b.code ≠ [] := by
      intro hnil
      have hcloses : Instruction.closes 0 b.code := hwell.closes
      rw [hnil] at hcloses
      cases hcloses
    have hmem : counted code ∈ a.codes.toList.map counted := List.mem_map_of_mem hcode
    have hle := length_le_itemBytes .code hmem
    rw [counted, List.length_append] at hle
    exact ⟨hwell, hencoded hne, by omega⟩
  have hnonempty : ∀ bs ∈ a.codes.toList.map counted, bs ≠ [] := by
    intro bs hbs
    obtain ⟨code, -, rfl⟩ := List.mem_map.mp hbs
    rw [counted, u32]
    exact List.append_ne_nil_of_left_ne_nil (Leb128.unsigned_ne_nil _) _
  refine continues_found (P := fun p => ∃ found saw,
    p = ⟨upTo { m with bodies := found } .code, none, saw⟩ ∧
      List.Forall₂ Body.Agrees m.bodies.toList found.toList ∧ (m.functions.size = 0 ∨ saw = true))
    (by decide) hnonempty (by omega) (fun hspec => ?_) (fun hnil => ?_) ?_
  · have hread := @accepts_bodies ⟨m.types, m.functionCount⟩ _ _ hbodies #[] []
    rw [Array.length_toList, h.bodies, List.append_nil] at hread
    have hcode : (code (upTo m .start)).Reads
        (u32 (a.codes.toList.map counted).length ++ (a.codes.toList.map counted).flatten) []
        fun m' => ∃ found, m' = upTo { m with bodies := found } .code ∧
          List.Forall₂ Body.Agrees m.bodies.toList found.toList := by
      refine .bind reads_position fun pos _ => .bind (accepts_u32 hspec _) ?_
      rintro _ rfl
      have hsize : ¬ (a.codes.toList.map counted).length ≠ (upTo m .start).functions.size :=
        not_not.mpr ((List.length_map _).trans hcount)
      rw [if_neg hsize, List.length_map, hcount]
      refine .bind hread ?_
      rintro found ⟨more, hfound, hmore⟩
      exact reads_pure ⟨found, rfl, hfound ▸ hmore⟩
    refine .bind hcode ?_
    rintro _ ⟨found, rfl, hfound⟩
    exact reads_pure ⟨found, true, rfl, hfound, .inr rfl⟩
  · have hnone : m.functions.size = 0 := by
      rw [← hcount, List.map_eq_nil_iff.mp hnil]
      rfl
    have hbodiesNil : m.bodies = #[] := Array.eq_empty_of_size_eq_zero (h.bodies.trans hnone)
    refine ⟨#[], false, rfl, ?_, .inl hnone⟩
    rw [hbodiesNil]
    exact .nil
  · rintro _ ⟨found, saw, rfl, hfound, hsaw⟩
    exact hnext found saw hfound hsaw

/-- All sections are read, and only the offsets within bodies are not those of the module. -/
theorem continues_sections : Continues a.sectionsBytes 0 {} fun p => ∃ found saw,
    p = ⟨{ m with bodies := found }, none, saw⟩ ∧
      List.Forall₂ Body.Agrees m.bodies.toList found.toList ∧
        (m.functions.size = 0 ∨ saw = true) := by
  have hlength := length_sectionsBytes a
  refine continues_types h hsize (continues_imports h hm hsize (continues_functions h hm hsize ?_))
  refine continues_tables h hsize (continues_memory h hsize (continues_globals h hsize ?_))
  refine continues_exports h hm hsize (continues_start h hm hsize ?_)
  refine .mono (continues_code h hm hsize fun found saw hfound hsaw => ?_) (by decide)
  refine continues_data h hm hsize ?_
  exact continues_custom _ h.customSections (by omega) _ ⟨found, saw, rfl, hfound, hsaw⟩

theorem reads_module : Decode.module.Reads a.toBytes.data.toList [] fun m' =>
    m' = { m with bodies := m'.bodies } ∧
      List.Forall₂ Body.Agrees m.bodies.toList m'.bodies.toList := by
  rw [toBytes_eq]
  refine .bind (reads_header a.sectionsBytes) fun _ _ => .bind reads_remaining ?_
  rintro _ rfl
  refine .bind (continues_sections h hm hsize _ none (Nat.lt_succ_self _) ?_) ?_
  · rintro r ⟨⟩
  · rintro _ ⟨found, saw, rfl, hfound, hsaw⟩
    have hcode : ¬ (¬ saw = true ∧ 0 < m.functions.size) := by
      rintro ⟨hnot, hpos⟩
      rcases hsaw with hnone | hsaw
      · omega
      · exact hnot hsaw
    have hfinish : finish ⟨{ m with bodies := found }, none, saw⟩
        = pure { m with bodies := found } := by
      rw [finish]
      exact if_neg hcode
    rw [hfinish]
    exact reads_pure ⟨rfl, hfound⟩

end

/-- **What is given to an assembler is what its bytes are read as.**  Calls that add up to a
well-formed module do not fail, and as long as a view can hold its bytes, they are read as this
module: every part is as it was given and in the order in which it was given.  Only the offsets
within bodies are those of the bytes. -/
theorem decode_assembled {cs : List Call} (hcs : Call.AddAll m.types {} cs m) (hm : m.WellFormed) :
    ∃ a, Call.performAll {} cs = .ok a ∧ (a.toBytes.size ≤ ByteBuffer.maxLength →
      ∃ m', Module.decode a.toBytes = .ok m' ∧ m' = { m with bodies := m'.bodies } ∧
        List.Forall₂ (fun b b' => b'.locals = b.locals ∧ b'.code = b.code) m.bodies.toList
          m'.bodies.toList) := by
  obtain ⟨a, ha, h⟩ := holds_empty.performAll hcs
  refine ⟨a, ha, fun hfits => ?_⟩
  have hsize : a.sectionsBytes.length < 2 ^ 32 := by
    have hlength : a.toBytes.size
        = (Binary.magic ++ (Binary.version ++ a.sectionsBytes)).length := by
      rw [← toBytes_eq]
      rfl
    simp only [Binary.magic, Binary.version, List.length_append, List.length_cons,
      List.length_nil] at hlength
    have hmax : ByteBuffer.maxLength = 2 ^ 32 := by decide
    omega
  obtain ⟨m', r, hok, -, hm'⟩ :=
    reads_module h hm hsize _ (Reader.bytesLeft_ofBytes a.toBytes "header")
  exact ⟨m', by rw [Module.decode, hok], hm'⟩

/-- The calls that add up to the module with something of each kind. -/
def sampleCalls : List Call :=
  [.addType [0x7f] [0x7f], .addType [] [], .addImport "h" "f" 0, .addFunction 0, .addFunction 1,
   .addMemory 1 (some 2), .addGlobal 0x7e true [0x42, 0x07], .addExport "f" 0 1, .addExport "m" 2 0,
   .setStart 2,
   .addCode 1 [0x7e] [0x02, 0x7f, 0x20, 0x00, 0x10, 0x00, 0x28, 0x02, 0x04, 0x0b, 0x0b],
   .addCode 2 [] [0x0b], .addData 8 [0xab, 0xcd]]

theorem addAll_sample : Call.AddAll Module.sample.types {} sampleCalls Module.sample := by
  have hbyte (n : Nat) (h : n < 128) : Leb128.Unsigned 32 n [UInt8.ofNat n] := by
    have hlast := @Leb128.Unsigned.last 32 (UInt8.ofNat n)
    rw [Leb128.toNat_ofNat (by omega)] at hlast
    exact hlast h (by omega)
  have hseven : Value.Encoded (.i64 7) [0x42, 0x07] :=
    .i64 (.last (b := 0x07) (by decide) (by decide))
  have hfirst : List.Forall₂ (Instruction.Encoded Module.sample.types)
      [.block ⟨[], [.i32]⟩, .localGet 0, .call 0, .load 0x28 ⟨2, 4⟩, .endMark, .endMark]
      [[0x02, 0x7f], [0x20, 0x00], [0x10, 0x00], [0x28, 0x02, 0x04], [0x0b], [0x0b]] :=
    .cons (.block (.single .i32)) <| .cons (.localGet (hbyte 0 (by decide))) <|
      .cons (.call (hbyte 0 (by decide))) <|
      .cons (@Instruction.Encoded.load _ 0x28
        _ _ (.mk (hbyte 2 (by decide)) (hbyte 4 (by decide)))) <|
      .cons .endMark <| .cons .endMark .nil
  have hsecond : List.Forall₂ (Instruction.Encoded Module.sample.types) [.endMark] [[0x0b]] :=
    .cons .endMark .nil
  have hlimits : Limits.WellFormed maxMemoryPages ⟨1, some 2⟩ := by
    refine ⟨by decide, ?_⟩
    rintro _ ⟨⟩
    decide
  have hh : IsName "h" := ⟨by decide +kernel, by decide +kernel⟩
  have hf : IsName "f" := ⟨by decide +kernel, by decide +kernel⟩
  have hname : IsName "m" := ⟨by decide +kernel, by decide +kernel⟩
  exact .cons (.type [.i32] [.i32]) <| .cons (.type [] []) <|
    .cons (.functionImport ⟨"h", "f", 0⟩ rfl hh hf) <| .cons (.function 0) <|
    .cons (.function 1) <| .cons (.memory ⟨1, some 2⟩ rfl hlimits) <|
    .cons (.global ⟨.i64, true, .i64 7⟩ rfl hseven) <| .cons (.export ⟨"f", .function, 1⟩ hf) <|
    .cons (.export ⟨"m", .memory, 0⟩ hname) <| .cons (.start 2) <|
    .cons (@Call.Adds.code _ _ 0 Module.sample.bodies[0] _ (by decide) hfirst) <|
    .cons (@Call.Adds.code _ _ 1 Module.sample.bodies[1] _ (by decide) hsecond) <|
    .cons (.data 8 [0xab, 0xcd]) <| .nil _

theorem decode_assembled_sample :
    ∃ a m', Call.performAll {} sampleCalls = .ok a ∧ Module.decode a.toBytes = .ok m' ∧
      m' = { Module.sample with bodies := m'.bodies } ∧
      List.Forall₂ (fun b b' => b'.locals = b.locals ∧ b'.code = b.code) Module.sample.bodies.toList
        m'.bodies.toList := by
  have hwell := Module.wellFormed_of_decode Module.decode_sample
  obtain ⟨a, ha, hread⟩ := decode_assembled addAll_sample hwell
  have hsize : (Call.performAll {} sampleCalls).toOption.all
      fun a => decide (a.toBytes.size ≤ ByteBuffer.maxLength) := by decide +kernel
  simp only [ha, Except.toOption, Option.all_some, decide_eq_true_eq] at hsize
  obtain ⟨m', hm'⟩ := hread hsize
  exact ⟨a, m', ha, hm'⟩

end Assembler

end WasmScript
