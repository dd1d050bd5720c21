/-
  WasmScript/Proofs/Script/Declarations.lean
  ==========================================
  **Scripts and their declarations** — that what is declared is what a script hands out and binds.

  The declarations and the script of a module are laid out in two passes that share nothing but the
  module.  Both are given here by their lines: `Declarations.lines` are all lines of the
  declarations, `Program.lines` those of a script around its inner functions.  The lines of the
  members are compared one by one (`LinesAgree`).

  What a script binds and what it defines is read from its whole text, which also says that
  nothing else in it binds or defines anything (`read_bindings`, `read_definitions`).  The imports
  are compared as pairs of module and field, which the declarations have regrouped:
  `declarations_agree`.
-/
import Mathlib.Data.List.Nodup
import WasmScript.Proofs.Text.Sheets
import WasmScript.Proofs.Accepted
import WasmScript.Proofs.Module.Nesting
import WasmScript.Proofs.Script.Readers

namespace WasmScript

namespace Script

open Sheet (Adds Extends Frames indented indented_zero unlines)
open WasmScript.Units (ofString)

variable {m : Module} {options : Options}

/-! ### Inner functions -/

namespace Statement

theorem extends_cases (cases : List Nat) :
    Extends fun s => s.each cases fun i => Sheet.line (caseLine i) :=
  (Adds.each_line cases caseLine).extends

mutual
theorem extends_write (t : Statement) : Extends t.write := by
  cases t with
  | block label body => exact .block _ (extends_writeAll body)
  | forever label body => exact .block _ ((extends_writeAll body).comp (.line _))
  | conditional label condition yes no =>
    exact ((Extends.line _).comp (extends_writeAll yes).indent).comp
      ((extends_writeElse no).comp (.line _))
  | switch index groups defaultCases default =>
    exact .block _ (((extends_writeGroups groups).comp (extends_cases defaultCases)).comp
      ((Extends.line _).comp (extends_writeAll default).indent))
  | _ => exact .line _

theorem extends_writeElse (no : Option (List Statement)) : Extends (writeElse no) := by
  cases no with
  | none => exact .refl
  | some no => exact (Extends.line _).comp (extends_writeAll no).indent

theorem extends_writeAll (ts : List Statement) : Extends (writeAll ts) := by
  cases ts with
  | nil => exact .refl
  | cons t ts => exact (extends_write t).comp (extends_writeAll ts)

theorem extends_writeGroups (groups : List (List Nat × List Statement)) :
    Extends (writeGroups groups) := by
  cases groups with
  | nil => exact .refl
  | cons group rest =>
    obtain ⟨cases, body⟩ := group
    exact ((extends_cases cases).comp (extends_writeAll body).indent).comp
      (extends_writeGroups rest)
end

end Statement

namespace Function

theorem extends_declaration (vars : List (Variable × ValueType)) : Extends (declaration vars) := by
  cases vars with
  | nil => exact .refl
  | cons var vars => exact .line _

theorem extends_exportComment (name : Option String) : Extends (exportComment name) := by
  cases name with
  | none => exact .refl
  | some name => exact .line _

theorem extends_write (f : Function) : Extends f.write :=
  .block _ ((((extends_exportComment f.exportName).comp (extends_declaration _)).comp
    (extends_declaration _)).comp (Statement.extends_writeAll f.body))

end Function

/-! ### Lines of scripts -/

namespace Program

variable (p : Program)

def bindingLines : List String := p.imports.map importLine ++ (p.memory.map memoryLine).toList

def exportLines : List String :=
  ["const exports = Object.create(null);"] ++ p.members.map memberLine ++
    ["return Object.freeze(exports);"]

/-- The lines of a script, of which those between its bindings and its exports are given. -/
def lines (inner : List String) : List String :=
  let body := p.bindingLines.map (indented 1) ++ inner ++ p.exportLines.map (indented 1)
  match p.options.format with
  | .esm =>
    ["// Generated by herkos-ts. Do not edit.",
      "import * as rt from " ++ Quoted.encode p.options.runtimeSpecifier ++ ";", "",
      "export function instantiate(imports = \x7b\x7d) \x7b"] ++ body ++ ["\x7d"]
  | .factory =>
    ["// Generated by herkos-ts. Do not edit.", "'use strict';", "",
      "function instantiate(imports = \x7b\x7d) \x7b"] ++ body ++
        ["\x7d", "", "return instantiate;"]

theorem extends_writeStart : Extends p.writeStart := by
  have hdata : Extends fun s => s.each p.data fun d => Sheet.line (dataLine d) :=
    (Adds.each_line _ _).extends
  intro s
  unfold writeStart
  split
  · exact ⟨[], rfl⟩
  · cases p.start with
    | none => exact Extends.separate.comp hdata s
    | some index => exact (Extends.separate.comp hdata).comp (.line _) s

theorem extends_inner : Extends fun s => (p.writeStart ((s.each p.globals.zipIdx fun (g, index) =>
    Sheet.line (globalLine g index)).each p.functions fun f s => f.write s.separate)).separate := by
  have hglobals : Extends fun s => s.each p.globals.zipIdx fun (g, index) =>
    Sheet.line (globalLine g index) :=
    .each _ fun _ => .line _
  have hfunctions : Extends fun s => s.each p.functions fun f s => f.write s.separate :=
    .each _ fun f => Extends.separate.comp f.extends_write
  exact ((hglobals.comp hfunctions).comp p.extends_writeStart).comp .separate

theorem frames_writeBody : Frames (p.writeBody (p.memory.map memoryLine))
    (fun depth => p.bindingLines.map (indented depth)) fun depth => p.exportLines.map
    (indented depth) := by
  have hbindings : Adds (fun s => (s.each p.imports fun b => Sheet.line (importLine b)).each
      (p.memory.map memoryLine).toList Sheet.line) fun depth =>
        p.bindingLines.map (indented depth) := by
    have hall :=
      (Adds.each_line p.imports importLine).comp
        (Adds.each_line (p.memory.map memoryLine).toList id)
    simp only [bindingLines, List.map_append, List.map_map]
    exact hall
  have hexports :
      Adds (fun s => ((s.line "const exports = Object.create(null);").each p.members fun member =>
      Sheet.line (memberLine member)).line "return Object.freeze(exports);")
      fun depth => p.exportLines.map (indented depth) := by
    have hall :=
      ((Adds.line "const exports = Object.create(null);").comp
        (Adds.each_line p.members memberLine)).comp
        (Adds.line "return Object.freeze(exports);")
    simp only [exportLines, List.map_append, List.map_map]
    exact hall
  have hall := (p.extends_inner.frames.after hbindings).before hexports
  simp only [List.append_nil, List.nil_append] at hall
  exact hall

theorem exists_lines : ∃ inner, p.text = unlines (p.lines inner) := by
  have hblock (header : String) := p.frames_writeBody.block header
  have hmark := Adds.line "// Generated by herkos-ts. Do not edit."
  obtain ⟨inner, hinner⟩ : ∃ inner, p.write .blank = Sheet.blank.extend (p.lines inner) := by
    unfold write writeWith writeAround lines
    cases p.options.format with
    | esm =>
      have hhelpers :=
        Adds.line ("import * as rt from " ++ Quoted.encode p.options.runtimeSpecifier ++ ";")
      obtain ⟨inner, hinner⟩ := (hblock _).after ((hmark.comp hhelpers).comp (.line "")) .blank
      refine ⟨inner, hinner.trans ?_⟩
      simp [Sheet.blank, indented_zero]
    | factory =>
      obtain ⟨inner, hinner⟩ :=
        (((hblock _).after ((hmark.comp (.line "'use strict';")).comp (.line ""))).before
          ((Adds.line "").comp (.line "return instantiate;"))) .blank
      refine ⟨inner, hinner.trans ?_⟩
      simp [Sheet.blank, indented_zero]
  exact ⟨inner, by rw [text, hinner, Sheet.text_extend_blank]⟩

end Program

/-! ### Lines of declarations -/

namespace Declarations

def groupLines (group : String × List Declared) : List String :=
  [indented 1 (Quoted.encode group.1 ++ ": \x7b")] ++
      group.2.map (fun member => indented 2 member.text)
    ++ [indented 1 "\x7d"]

def lines (d : Declarations) : List String :=
  ["// Value mapping at the call boundary:", "//   i32 -> number", "//   i64 -> bigint"]
    ++ (if d.mentionsMemory then
        ["", "import type \x7bLinearMemory\x7d from " ++ Quoted.encode d.runtimeSpecifier ++ ";"]
      else [])
    ++ ["", "export interface Exports \x7b"] ++ d.members.map (fun member => indented 1 member.text)
    ++ ["\x7d", "", "export interface Imports \x7b"] ++ d.imports.flatMap groupLines
    ++ ["\x7d", "", "export declare function instantiate(imports" ++
        (if d.imports = [] then "?" else "")
      ++ ": Imports): Exports;"]

theorem adds_writeMembers (members : List Declared) :
    Adds (writeMembers members) fun depth => members.map fun member => indented depth member.text :=
  .each_line members Declared.text

theorem text_eq (d : Declarations) : d.text = unlines d.lines := by
  have hmapping := (Adds.line "// Value mapping at the call boundary:").comp
    (Adds.each_line [ValueType.i32, .i64] fun type =>
      "//   " ++ type.name ++ " -> " ++ hostType type)
  have hhelpers :
      Adds (fun s =>
        s.each (if d.mentionsMemory then some (Quoted.encode d.runtimeSpecifier) else none).toList
      fun helpers s =>
        (s.line "").line ("import type \x7bLinearMemory\x7d from " ++ helpers ++ ";"))
      fun depth => (if d.mentionsMemory then
        ["", "import type \x7bLinearMemory\x7d from " ++ Quoted.encode d.runtimeSpecifier ++ ";"]
      else []).map (indented depth) := by
    cases d.mentionsMemory with
    | false => exact fun _ => rfl
    | true => exact (Adds.line "").comp (.line _)
  have hexports := (adds_writeMembers d.members).block "export interface Exports"
  have himports := (Adds.each d.imports fun group =>
    (adds_writeMembers group.2).block (Quoted.encode group.1 ++ ":")).block
      "export interface Imports"
  have hdeclare :=
    Adds.line ("export declare function instantiate(imports" ++ (if d.imports = [] then "?" else "")
      ++ ": Imports): Exports;")
  have hall :=
    ((((((hmapping.comp hhelpers).comp (.line "")).comp hexports).comp (.line "")).comp
      himports).comp
      (.line "")).comp hdeclare
  have hwrite : d.write .blank = Sheet.blank.extend d.lines := by
    refine Eq.trans ?_ ((hall .blank).trans (congrArg _ ?_))
    · unfold write writeWith writeParts
      simp only [Sheet.each, List.foldl_map, List.isEmpty_map, List.isEmpty_iff]
    · have hzero : indented 0 = id := funext indented_zero
      have hgroup (group : String × List Declared) :
          indented 1 (Quoted.encode group.1 ++ ":" ++ " \x7b") ::
          group.2.map (fun member => indented 2 member.text) ++ [indented 1 "\x7d"] =
            groupLines group := by
        rw [String.append_assoc]
        rfl
      simp only [Sheet.blank, Nat.zero_add, hzero, hgroup, List.map_id, id, lines,
        List.append_assoc, List.cons_append, List.nil_append]
      rfl
  rw [text, hwrite, Sheet.text_extend_blank]

end Declarations

/-! ### Members -/

/-- A parameter of a function that is handed out: its name, its declared type and the coercion of
it. -/
structure Parameter where
  name : String
  declared : String
  coercion : String

namespace Parameter

/-- The host's type of what the coercion gives. -/
def coerced? (x : Parameter) : Option String :=
  match x.coercion with
  | "toI32" => some "number"
  | "toI64" => some "bigint"
  | _ => none

def ofTypes (types : List ValueType) : List Parameter :=
  types.zipIdx.map fun (type, i) => ⟨s!"a{i}", hostType type, coercionName type⟩

theorem coerced?_ofTypes {types : List ValueType} :
    ∀ x ∈ ofTypes types, x.coerced? = some x.declared := by
  intro x hx
  obtain ⟨⟨type, i⟩, -, rfl⟩ := List.mem_map.mp hx
  cases type <;> rfl

theorem map_name_ofTypes (types : List ValueType) :
    (ofTypes types).map name = (List.range types.length).map fun i => s!"a{i}" := by
  rw [ofTypes, List.map_map, List.range_eq_range', ← List.zipIdx_map_snd 0 types, List.map_map]
  rfl

end Parameter

/-- A line that declares a member and a line that hands one out under the same key.  A function has
the same parameters in both, each declared to be what its coercion gives. -/
inductive LinesAgree : String → String → Prop where
  | function (key result : String) (index : Nat) (params : List Parameter) :
      (∀ x ∈ params, x.coerced? = some x.declared) →
      LinesAgree
        (Quoted.encode key ++ "(" ++ ", ".intercalate
            (params.map fun x => x.name ++ ": " ++ x.declared) ++ "): "
          ++ result ++ ";")
        ("exports[" ++ Quoted.encode key ++ "] = (" ++ ", ".intercalate
            (params.map Parameter.name) ++ ") => "
          ++ functionName index ++ "(" ++ ", ".intercalate
            (params.map fun x => "rt." ++ x.coercion ++ "(" ++ x.name ++ ")")
          ++ ");")
  | memory (key : String) :
      LinesAgree ("readonly " ++ Quoted.encode key ++ ": LinearMemory;")
        ("exports[" ++ Quoted.encode key ++ "] = memory;")
  | globalValue (key : String) (type : ValueType) (index : Nat) :
      LinesAgree ("readonly " ++ Quoted.encode key ++ ": " ++ hostType type ++ ";")
        ("Object.defineProperty(exports, " ++ Quoted.encode key ++ ", \x7bget: () => "
          ++ (Variable.globalVar index).text ++ ", enumerable: true\x7d);")

theorem linesAgree_function (key : String) (index : Nat) (type : FunctionType) :
    LinesAgree (Declared.function key type).text
      (Program.memberLine (.function key index type.params)) := by
  have hagree :=
    LinesAgree.function key (resultType type.results) index (Parameter.ofTypes type.params)
      Parameter.coerced?_ofTypes
  have hdeclared : (Parameter.ofTypes type.params).map (fun x => x.name ++ ": " ++ x.declared)
      = type.params.zipIdx.map fun (type, i) => s!"a{i}: " ++ hostType type := by
    rw [Parameter.ofTypes, List.map_map]
    exact List.map_congr_left fun _ _ => rfl
  have hcoerced :
      (Parameter.ofTypes type.params).map (fun x => "rt." ++ x.coercion ++ "(" ++ x.name ++ ")")
      = type.params.zipIdx.map fun (type, i) => "rt." ++ coercionName type ++ s!"(a{i})" := by
    rw [Parameter.ofTypes, List.map_map]
    refine List.map_congr_left fun (type, i) _ => ?_
    change "rt." ++ coercionName type ++ "(" ++ ("a" ++ toString i) ++ ")"
      = "rt." ++ coercionName type ++ ("(" ++ "a" ++ toString i ++ ")")
    simp only [String.append_assoc]
  rw [hdeclared, hcoerced, Parameter.map_name_ofTypes] at hagree
  exact hagree

/-- A table is in neither of the two, and all else in both. -/
theorem ofExport?_cases (hm : m.WellFormed) {e : Export} (he : e ∈ m.exports) :
    (e.kind = .table ∧ Declared.ofExport? m e = none ∧ Member.ofExport? m e = none) ∨
      e.kind ≠ .table ∧ ∃ declared member, Declared.ofExport? m e = some declared ∧
        Member.ofExport? m e = some member ∧ declared.name = e.name ∧ member.key = e.name ∧
        LinesAgree declared.text (Program.memberLine member) := by
  have hindex := hm.exports e he
  obtain ⟨name, kind, index⟩ := e
  cases kind with
  | function =>
    obtain ⟨type, htype⟩ := hm.exists_functionType hindex
    refine .inr ⟨nofun, .function name type, .function name index type.params, ?_, ?_, rfl, rfl, ?_⟩
    · exact congrArg (Option.map fun type => Declared.function name type) htype
    · exact congrArg (Option.map fun type => Member.function name index type.params) htype
    · exact linesAgree_function name index type
  | table => exact .inl ⟨rfl, rfl, rfl⟩
  | memory => exact .inr ⟨nofun, .memory name true, .memory name, rfl, rfl, rfl, rfl, .memory name⟩
  | global =>
    refine .inr
      ⟨nofun, .globalValue name m.globals[index].type, .globalValue name index, ?_, rfl,
        rfl, rfl, ?_⟩
    · exact congrArg (Option.map fun g => Declared.globalValue name g.type)
        (Array.getElem?_eq_getElem hindex)
    · exact .globalValue name _ index

def handedOut (exports : List Export) : List Export := exports.filter fun e => e.kind ≠ .table

theorem members_agree (hm : m.WellFormed) {exports : List Export}
    (hall : ∀ e ∈ exports, e ∈ m.exports) :
    List.Forall₂ LinesAgree ((exports.filterMap (Declared.ofExport? m)).map Declared.text)
        ((exports.filterMap (Member.ofExport? m)).map Program.memberLine) ∧
      (exports.filterMap (Declared.ofExport? m)).map Declared.name =
      (handedOut exports).map Export.name ∧
      (exports.filterMap (Member.ofExport? m)).map Member.key =
      (handedOut exports).map Export.name := by
  induction exports with
  | nil => exact ⟨.nil, rfl, rfl⟩
  | cons e exports ih =>
    obtain ⟨he, hrest⟩ := List.forall_mem_cons.mp hall
    obtain ⟨hlines, hnames, hkeys⟩ := ih hrest
    -- A table is neither declared nor handed out.
    rcases ofExport?_cases hm he with
      ⟨htable, hnone, hnone'⟩ | ⟨hkind, x, y, hx, hy, hname, hkey, hagree⟩
    · have hout : handedOut (e :: exports) = handedOut exports := by
        exact List.filter_cons_of_neg (by simp [htable])
      rw [List.filterMap_cons_none hnone, List.filterMap_cons_none hnone', hout]
      exact ⟨hlines, hnames, hkeys⟩
    · have hout : handedOut (e :: exports) = e :: handedOut exports := by
        exact List.filter_cons_of_pos (by simp [hkind])
      rw [List.filterMap_cons_some hx, List.filterMap_cons_some hy, hout]
      exact ⟨.cons hagree hlines, congrArg₂ List.cons hname hnames, congrArg₂ List.cons hkey hkeys⟩

/-! ### Imports -/

namespace Declarations

/-- The imports of some groups, each with the module that it comes from. -/
def ungrouped (groups : List (String × List Declared)) : List (String × Declared) :=
  groups.flatMap fun group => group.2.map (group.1, ·)

theorem ungrouped_addTo (module : String) (member : Declared)
    (groups : List (String × List Declared)) :
    (ungrouped (addTo module member groups)).Perm ((module, member) :: ungrouped groups) := by
  induction groups with
  | nil => exact .refl _
  | cons group groups ih =>
    obtain ⟨name, members⟩ := group
    rw [addTo]
    split
    · next heq =>
      subst heq
      have hlast : ungrouped ((name, members ++ [member]) :: groups)
          = members.map (name, ·) ++ (name, member) :: ungrouped groups := by
        simp [ungrouped]
      rw [hlast]
      exact List.perm_middle
    -- The group stands further back, and the entries of this one before all of it.
    · exact (ih.append_left (members.map (name, ·))).trans List.perm_middle

theorem ungrouped_foldl (entries : List (String × Declared)) :
    ∀ groups : List (String × List Declared),
    (ungrouped
      (entries.foldl (fun groups (module, member) => addTo module member groups) groups)).Perm
      (entries ++ ungrouped groups) := by
  induction entries with
  | nil => exact fun groups => .refl _
  | cons entry entries ih =>
    intro groups
    refine (ih _).trans ?_
    exact ((ungrouped_addTo entry.1 entry.2 groups).append_left entries).trans List.perm_middle

/-- A module heads one group only: its name is added where it is not there. -/
theorem nodup_addTo {module : String} (member : Declared) {groups : List (String × List Declared)}
    (h : (groups.map Prod.fst).Nodup) : ((addTo module member groups).map Prod.fst).Nodup := by
  -- Adding a member brings in no other name than that of its module.
  have hnames (name : String) (groups : List (String × List Declared)) :
      name ∈ (addTo module member groups).map Prod.fst → name = module ∨
        name ∈ groups.map Prod.fst := by
    induction groups with
    | nil => exact fun hname => .inl (List.mem_singleton.mp hname)
    | cons group groups ih =>
      rw [addTo]
      split
      · exact .inr
      · intro hname
        rcases List.mem_cons.mp hname with hfirst | hrest
        · exact .inr (List.mem_cons.mpr (.inl hfirst))
        · exact (ih hrest).imp id fun hrest => List.mem_cons.mpr (.inr hrest)
  induction groups with
  | nil => exact List.nodup_cons.mpr ⟨List.not_mem_nil, List.nodup_nil⟩
  | cons group groups ih =>
    obtain ⟨hfirst, hrest⟩ := List.nodup_cons.mp h
    rw [addTo]
    split
    · exact h
    · next hne =>
      refine List.nodup_cons.mpr ⟨fun hname => ?_, ih hrest⟩
      exact (hnames _ _ hname).elim hne hfirst

theorem nodup_foldl (entries : List (String × Declared)) : ∀ groups : List (String × List Declared),
    (groups.map Prod.fst).Nodup →
      ((entries.foldl (fun groups (module, member) => addTo module member groups) groups).map
        Prod.fst).Nodup := by
  induction entries with
  | nil => exact fun _ h => h
  | cons entry entries ih => exact fun _ h => ih _ (nodup_addTo entry.2 h)

/-- The imports of a module, functions first. -/
def importsOf (m : Module) : List (String × Declared) := functionImports m ++ memoryImports m

theorem ungrouped_ofModule (m : Module) (options : Options) :
    (ungrouped (ofModule m options).imports).Perm (importsOf m) := by
  have hall := ungrouped_foldl (importsOf m) []
  rwa [show ungrouped [] = [] from rfl, List.append_nil] at hall

theorem imports_eq_nil_iff (m : Module) (options : Options) :
    (ofModule m options).imports = [] ↔ importsOf m = [] := by
  constructor
  · intro h
    have hperm := ungrouped_ofModule m options
    rw [h] at hperm
    exact hperm.symm.eq_nil
  · intro h
    have hfold : (ofModule m options).imports
        = (importsOf m).foldl (fun groups (module, member) => addTo module member groups) [] := rfl
    rw [hfold, h]
    rfl

end Declarations

def MemoryBinding.place? : MemoryBinding → Option (String × String)
  | .lent module field _ => some (module, field)
  | .owned .. => none

namespace Program

/-- The modules and the fields of what a script binds, functions first. -/
def bound (p : Program) : List (String × String) :=
  p.imports.map (fun b => (b.module, b.field)) ++ p.memory.toList.filterMap MemoryBinding.place?

theorem ofModule_eq_ok {functions : List IR.Function} {p : Program}
    (h : ofModule m functions options = .ok p) :
    p.imports = importBindings m ∧ p.memory = memoryBinding m options ∧
      p.members = membersOf m := by
  unfold ofModule at h
  cases hfunctions : functionsOf (functions.mergeSort fun f g => f.index ≤ g.index) with
  | error e =>
    rw [hfunctions] at h
    cases h
  | ok fs =>
    rw [hfunctions] at h
    cases h
    exact ⟨rfl, rfl, rfl⟩

/-- A script binds the imports of its module. -/
theorem bound_eq (hm : m.WellFormed) {p : Program} (himports : p.imports = importBindings m)
    (hmemory : p.memory = memoryBinding m options) :
    p.bound = (Declarations.importsOf m).map fun (module, member) => (module, member.name) := by
  have hfunctions : (importBindings m).map (fun b => (b.module, b.field))
      = (Declarations.functionImports m).map fun (module, member) => (module, member.name) := by
    have hnumbered := List.zipIdx_map_fst 0 m.imports.toList
    rw [importBindings, Declarations.functionImports, List.map_filterMap, List.map_filterMap]
    conv_rhs => rw [← hnumbered, List.filterMap_map]
    refine congrArg (m.imports.toList.zipIdx.filterMap ·) (funext fun (entry, i) => ?_)
    change (m.types[entry.typeIndex]?.map _).map _ = (m.types[entry.typeIndex]?.map _).map _
    cases m.types[entry.typeIndex]? <;> rfl
  have hplaces : (memoryBinding m options).toList.filterMap MemoryBinding.place?
      = (Declarations.memoryImports m).map fun (module, member) => (module, member.name) := by
    have hlent := hm.memoryImport
    rw [memoryBinding, Declarations.memoryImports]
    cases hplace : m.memoryImport with
    | none => cases m.memory <;> rfl
    | some place =>
      rw [hplace] at hlent
      obtain ⟨limits, hlimits⟩ := Option.isSome_iff_exists.mp (hlent rfl)
      rw [hlimits]
      rfl
  rw [bound, himports, hmemory, hfunctions, hplaces, ← List.map_append]
  rfl

end Program

/-! ### Memories -/

namespace Declared

/-- A line that says of a member that it is a memory. -/
def MentionsMemory (line : String) : Prop := ": LinearMemory;".toList <:+ line.toList

def isMemory : Declared → Bool
  | .memory .. => true
  | _ => false

/-- A text that ends in two characters of which it can be told that it ends in no mention. -/
def EndsOtherwise (text : String) : Prop :=
  ∃ front back, text = front ++ back ∧ back.toList.length = 2 ∧ back.toList ≠ ['y', ';']

theorem EndsOtherwise.prepend {text : String} (h : EndsOtherwise text) (before : String) :
    EndsOtherwise (before ++ text) := by
  obtain ⟨front, back, rfl, hback⟩ := h
  exact ⟨before ++ front, back, (String.append_assoc ..).symm, hback⟩

theorem EndsOtherwise.not_mentionsMemory {text : String} (h : EndsOtherwise text) :
    ¬ MentionsMemory text := by
  obtain ⟨front, back, rfl, hlength, hback⟩ := h
  intro hmention
  have hword : ['y', ';'] <:+ ": LinearMemory;".toList := by decide
  have hlast := hword.trans hmention
  rw [String.toList_append] at hlast
  have hsame :=
    List.suffix_of_suffix_length_le hlast (List.suffix_append front.toList back.toList) hlength.ge
  exact hback (hsame.eq_of_length hlength.symm).symm

theorem endsOtherwise_hostType (type : ValueType) : EndsOtherwise (hostType type ++ ";") := by
  cases type with
  | i32 => exact ⟨"numbe", "r;", by decide, by decide, by decide⟩
  | i64 => exact ⟨"bigin", "t;", by decide, by decide, by decide⟩

theorem endsOtherwise_resultType (types : List ValueType) :
    EndsOtherwise (resultType types ++ ";") := by
  match types with
  | [] => exact ⟨"voi", "d;", by decide, by decide, by decide⟩
  | [type] => exact endsOtherwise_hostType type
  | type :: type' :: types =>
    refine ⟨"[" ++ ", ".intercalate ((type :: type' :: types).map hostType), "];",
      ?_, by decide, by decide⟩
    exact String.append_assoc ..

/-- The line of a memory mentions its type, and no other line does. -/
theorem mentionsMemory_text_iff (x : Declared) : MentionsMemory x.text ↔ x.isMemory := by
  cases x with
  | function name type =>
    have hend := (endsOtherwise_resultType type.results).prepend
      (Quoted.encode name ++ "(" ++ parameterList type.params ++ "): ")
    rw [← String.append_assoc] at hend
    exact iff_of_false hend.not_mentionsMemory Bool.false_ne_true
  | memory name fixed =>
    refine iff_of_true ?_ rfl
    rw [MentionsMemory, text, String.toList_append]
    exact List.suffix_append _ _
  | globalValue name type =>
    have hend := (endsOtherwise_hostType type).prepend ("readonly " ++ Quoted.encode name ++ ": ")
    rw [← String.append_assoc] at hend
    exact iff_of_false hend.not_mentionsMemory Bool.false_ne_true

theorem isMemory_of_ofExport? {e : Export} {x : Declared} (h : ofExport? m e = some x) :
    x.isMemory ↔ e.kind = .memory := by
  obtain ⟨name, kind, index⟩ := e
  cases kind with
  | function =>
    obtain ⟨type, -, rfl⟩ := Option.map_eq_some_iff.mp h
    exact iff_of_false Bool.false_ne_true nofun
  | table => cases h
  | memory =>
    cases h
    exact iff_of_true rfl rfl
  | global =>
    obtain ⟨g, -, rfl⟩ := Option.map_eq_some_iff.mp h
    exact iff_of_false Bool.false_ne_true nofun

end Declared

namespace Declarations

def allMembers (d : Declarations) : List Declared := d.members ++ (ungrouped d.imports).map Prod.snd

theorem mentionsMemory_iff (m : Module) (options : Options) :
    (ofModule m options).mentionsMemory ↔ ∃ x ∈ (ofModule m options).allMembers, x.isMemory := by
  -- A memory is exported just if one of the members is a memory.
  have hexports : m.exportsMemory ↔ ∃ x ∈ (ofModule m options).members, x.isMemory := by
    rw [Module.exportsMemory, List.any_eq_true]
    constructor
    · rintro ⟨e, he, hkind⟩
      have hmemory : Declared.ofExport? m e = some (.memory e.name true) := by
        rw [Declared.ofExport?, of_decide_eq_true hkind]
      exact ⟨_, List.mem_filterMap.mpr ⟨e, he, hmemory⟩, rfl⟩
    · rintro ⟨x, hx, hmemory⟩
      obtain ⟨e, he, hsome⟩ := List.mem_filterMap.mp hx
      exact ⟨e, he, decide_eq_true ((Declared.isMemory_of_ofExport? hsome).mp hmemory)⟩
  -- It is imported just if one of the imports is, since functions make no such member.
  have himports : m.memoryImport.isSome ↔
      ∃ x ∈ (ungrouped (ofModule m options).imports).map Prod.snd, x.isMemory := by
    have hperm := ungrouped_ofModule m options
    constructor
    · intro hlent
      obtain ⟨place, hplace⟩ := Option.isSome_iff_exists.mp hlent
      have hentry : (place.module, .memory place.name false) ∈ importsOf m := by
        refine List.mem_append.mpr (.inr ?_)
        rw [memoryImports, hplace]
        exact List.mem_singleton_self _
      exact ⟨_, List.mem_map_of_mem (hperm.mem_iff.mpr hentry), rfl⟩
    · rintro ⟨x, hx, hmemory⟩
      obtain ⟨entry, hentry, rfl⟩ := List.mem_map.mp hx
      rcases List.mem_append.mp (hperm.mem_iff.mp hentry) with hfunction | hlent
      · obtain ⟨e, -, hsome⟩ := List.mem_filterMap.mp hfunction
        obtain ⟨type, -, rfl⟩ := Option.map_eq_some_iff.mp hsome
        cases hmemory
      · obtain ⟨place, hplace, -⟩ := List.mem_map.mp hlent
        exact Option.isSome_iff_exists.mpr ⟨place, Option.mem_toList.mp hplace⟩
  have hmentions :
    (ofModule m options).mentionsMemory = (m.exportsMemory || m.memoryImport.isSome) := rfl
  rw [hmentions, Bool.or_eq_true, hexports, himports, allMembers]
  simp only [List.mem_append, or_and_right, exists_or]

end Declarations

/-! ### What a script binds and defines -/

namespace Program

/-- A script calls `rt.bindImport` and `rt.bindMemory` for each of what it binds and uses them for
nothing else. -/
theorem read_bindings (p : Program) : bindings.read (ofString p.text)
    = some (p.bound.map fun (module, field) => [ofString module, ofString field]) := by
  refine (read_text .bound p).trans (congrArg some ?_)
  have hsome {f : Lexer.Form} (hf : f ∈ bindings.forms) (values : List String) :
      FormReader.bound.ofForm f values = [values.map ofString] := if_pos hf
  have hnone {f : Lexer.Form} (hf : f ∉ bindings.forms) (values : List String) :
      FormReader.bound.ofForm f values = [] := if_neg hf
  have htypes (types : List ValueType) : FormReader.bound.ofTypes types = [] :=
    List.flatMap_eq_nil_iff.mpr fun _ _ => rfl
  -- An import has one binding call, and the names of its types are strings only.
  have himports : p.imports.flatMap FormReader.bound.ofImport
      = p.imports.map fun b => [ofString b.module, ofString b.field] := by
    rw [List.map_eq_flatMap]
    refine congrArg (p.imports.flatMap ·) (funext fun b => ?_)
    rw [FormReader.ofImport, htypes, htypes, hsome (by decide)]
    rfl
  have hmemory : p.memory.toList.flatMap FormReader.bound.ofMemory
      = (p.memory.toList.filterMap MemoryBinding.place?).map fun (module, field) =>
        [ofString module, ofString field] := by
    cases p.memory with
    | none => rfl
    | some b => cases b <;> rfl
  have hmembers : p.members.flatMap FormReader.bound.ofMember = [] := by
    refine List.flatMap_eq_nil_iff.mpr fun x _ => ?_
    cases x with
    | globalValue key index => exact hnone (by decide) _
    | _ => exact hnone (by decide) _
  have hdata :
      p.data.flatMap (fun d => FormReader.bound.ofLiteral (ofString (Hex.ofBytes d.bytes))) = [] :=
    List.flatMap_eq_nil_iff.mpr fun _ _ => rfl
  have hcreate : FormReader.bound.ofForm createForm [] = [] := hnone (by decide) _
  have hfreeze : FormReader.bound.ofForm freezeForm [] = [] := hnone (by decide) _
  rw [FormReader.ofProgram, himports, hmemory, hmembers, hdata, hcreate, hfreeze, bound,
    List.map_append, List.map_map]
  cases p.options.format <;>
    simp [FormReader.bound, FormReader.ofSearch, TokenReader.ofSearch, Function.comp_def]

/-- A script makes its exports object, defines the keys of its members on it, hands it out frozen
and uses it for nothing else. -/
theorem read_definitions (p : Program) : definitions.read (ofString p.text)
    = some ([[]] ++ (p.members.map fun x => [ofString x.key]) ++ [[]]) := by
  refine (read_text .defined p).trans (congrArg some ?_)
  have hsome {f : Lexer.Form} (hf : f ∈ definitions.forms) (values : List String) :
      FormReader.defined.ofForm f values = [values.map ofString] := if_pos hf
  have hnone {f : Lexer.Form} (hf : f ∉ definitions.forms) (values : List String) :
      FormReader.defined.ofForm f values = [] := if_neg hf
  have htypes (types : List ValueType) : FormReader.defined.ofTypes types = [] :=
    List.flatMap_eq_nil_iff.mpr fun _ _ => rfl
  -- Neither the imports nor the memory touch the exports object.
  have himports : p.imports.flatMap FormReader.defined.ofImport = [] := by
    refine List.flatMap_eq_nil_iff.mpr fun b _ => ?_
    rw [FormReader.ofImport, htypes, htypes, hnone (by decide)]
    rfl
  have hmemory : p.memory.toList.flatMap FormReader.defined.ofMemory = [] := by
    refine List.flatMap_eq_nil_iff.mpr fun b _ => ?_
    cases b with
    | lent module field limits => exact hnone (by decide) _
    | owned initial maximum => rfl
  -- Each member is defined on it once, with an assignment or a getter.
  have hmembers : p.members.flatMap FormReader.defined.ofMember = p.members.map fun x =>
      [ofString x.key] := by
    rw [List.map_eq_flatMap]
    refine congrArg (p.members.flatMap ·) (funext fun x => ?_)
    cases x with
    | globalValue key index => exact hsome (by decide) _
    | _ => exact hsome (by decide) _
  have hdata :
      p.data.flatMap (fun d => FormReader.defined.ofLiteral (ofString (Hex.ofBytes d.bytes))) =
        [] :=
    List.flatMap_eq_nil_iff.mpr fun _ _ => rfl
  have hcreate : FormReader.defined.ofForm createForm [] = [[]] := hsome (by decide) _
  have hfreeze : FormReader.defined.ofForm freezeForm [] = [[]] := hsome (by decide) _
  rw [FormReader.ofProgram, himports, hmemory, hmembers, hdata, hcreate, hfreeze]
  cases p.options.format <;> rfl

end Program

/-! ### Agreement -/

/-- What the declarations and the script of a module have in common. -/
structure Corresponds (m : Module) (d : Declarations) (p : Program) (code : String) : Prop where
  /-- Their members are about the same keys, one by one, and have the same parameters. -/
  members : List.Forall₂ LinesAgree (d.members.map Declared.text) (p.members.map Program.memberLine)
  /-- The members are the exports other than tables. -/
  names : d.members.map Declared.name = (handedOut m.exports).map Export.name
  keys : p.members.map Member.key = (handedOut m.exports).map Export.name
  tables : ∀ e ∈ m.exports, e.kind = .table →
    e.name ∉ d.members.map Declared.name ∧ e.name ∉ p.members.map Member.key
  /-- Between making its exports object and handing it out, the code defines the names of the
  members on it, one by one, and it has no other use of it. -/
  defines : definitions.read (ofString code)
    = some ([[]] ++ (d.members.map fun x => [ofString x.name]) ++ [[]])
  /-- The code passes these modules and fields to `rt.bindImport` and `rt.bindMemory`, one by one,
  and it has no other use of them. -/
  binds : bindings.read (ofString code) =
    some (p.bound.map fun (module, field) => [ofString module, ofString field])
  /-- The declared imports are those that are bound, as often as they are bound. -/
  imports :
    ((Declarations.ungrouped d.imports).map fun (module, member) => (module, member.name)).Perm
      p.bound
  groups : (d.imports.map Prod.fst).Nodup
  /-- Without bindings no imports are asked for. -/
  optional : d.imports = [] ↔ p.bound = []
  /-- The type of memories is imported just if some line has it. -/
  memory : d.mentionsMemory ↔ ∃ line ∈ d.allMembers.map Declared.text, Declared.MentionsMemory line

theorem corresponds_of_ofModule (hm : m.WellFormed) {functions : List IR.Function} {p : Program}
    (h : Program.ofModule m functions options = .ok p) :
    Corresponds m (Declarations.ofModule m options) p p.text := by
  obtain ⟨himports, hmemory, hmembers⟩ := Program.ofModule_eq_ok h
  have hbound := Program.bound_eq hm himports hmemory
  have hall : ∀ e ∈ m.exports, e ∈ m.exports := fun _ he => he
  obtain ⟨hlines, hnames, hkeys⟩ := members_agree hm hall
  have hhanded : p.members = m.exports.filterMap (Member.ofExport? m) := hmembers
  rw [← hhanded] at hlines hkeys
  have hdefines : definitions.read (ofString p.text)
      = some ([[]] ++ ((Declarations.ofModule m options).members.map fun x => [ofString x.name]) ++
        [[]]) := by
    have hsame :
        p.members.map Member.key = (Declarations.ofModule m options).members.map Declared.name :=
      hkeys.trans hnames.symm
    have hunits := congrArg (List.map fun key => [ofString key]) hsame
    rw [List.map_map, List.map_map] at hunits
    exact p.read_definitions.trans (congrArg (fun keys => some ([[]] ++ keys ++ [[]])) hunits)
  refine ⟨hlines, hnames, hkeys, ?_, hdefines, p.read_bindings, ?_, ?_, ?_, ?_⟩
  · intro e he htable
    have hout : e.name ∉ (handedOut m.exports).map Export.name := by
      intro hmem
      obtain ⟨other, hother, hname⟩ := List.mem_map.mp hmem
      obtain ⟨hin, hkind⟩ := List.mem_filter.mp hother
      -- Another export would need the same name.
      obtain rfl := List.inj_on_of_nodup_map hm.exportNames hin he hname
      exact of_decide_eq_true hkind htable
    exact ⟨hnames ▸ hout, hkeys ▸ hout⟩
  · rw [hbound]
    exact (Declarations.ungrouped_ofModule m options).map _
  · exact Declarations.nodup_foldl _ [] List.nodup_nil
  · rw [hbound, List.map_eq_nil_iff]
    exact Declarations.imports_eq_nil_iff m options
  · rw [Declarations.mentionsMemory_iff]
    simp only [List.mem_map, exists_exists_and_eq_and, Declared.mentionsMemory_text_iff]

end Script

open WasmScript.Script

/-- The declarations of a module and its script agree on what is handed out and on what is bound.
The declarations are given by their lines; of the script, all that is done with imports and exports
is read from the code. -/
theorem declarations_agree {bytes : ByteArray} {m : Module} {functions : List IR.Function}
    {options : Script.Options} {code : String} (h : Module.decode bytes = .ok m)
    (hcode : generate m functions options = .ok code) :
    declare m options = Sheet.unlines (Declarations.ofModule m options).lines ∧
      ∃ p inner, Program.ofModule m functions options = .ok p ∧
        code = Sheet.unlines (p.lines inner) ∧
        Corresponds m (Declarations.ofModule m options) p code := by
  refine ⟨Declarations.text_eq _, ?_⟩
  rw [generate] at hcode
  cases hprogram : Program.ofModule m functions options with
  | error e =>
    rw [hprogram] at hcode
    cases hcode
  | ok p =>
    rw [hprogram] at hcode
    cases hcode
    obtain ⟨inner, hlines⟩ := p.exists_lines
    exact ⟨p, inner, rfl, hlines, corresponds_of_ofModule (Module.wellFormed_of_decode h) hprogram⟩

/-- A module that hands out a function and its memory and has a function lent. -/
theorem declarations_agree_sample :
    ∃ functions code p, IR.buildModule Module.sample = .ok ⟨functions, []⟩ ∧
      generate Module.sample functions {} = .ok code ∧
        Program.ofModule Module.sample functions {} = .ok p ∧
      Corresponds Module.sample (Declarations.ofModule Module.sample {}) p code ∧
      p.members.map Member.key = ["f", "m"] ∧ p.bound = [("h", "f")] := by
  have hfacts : (check Module.sampleBytes {}).toOption.map (fun c => (c.module, c.options))
      = some (Module.sample, ⟨.esm, 256, "@herkos-ts/runtime"⟩) := by decide +kernel
  cases hcheck : check Module.sampleBytes {} with
  | error e =>
    rw [hcheck] at hfacts
    cases hfacts
  | ok c =>
    obtain ⟨m, functions, options⟩ := c
    rw [hcheck] at hfacts
    cases hfacts
    obtain ⟨hdecode, hbuild, -⟩ := built_of_check hcheck
    obtain ⟨code, hcode⟩ := (accepted_of_check hcheck).exists_generate
    obtain ⟨-, p, -, hprogram, -, hagree⟩ := declarations_agree hdecode hcode
    exact ⟨functions, code, p, hbuild, hcode, hprogram, hagree, hagree.keys,
      List.perm_singleton.mp hagree.imports.symm⟩

end WasmScript
