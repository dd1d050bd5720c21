/-
  WasmScript/Script/Declarations.lean
  ===================================
  **Type declarations** — what a generated script promises to its users.

  The declarations name one member per export and group the imports by the module they
  come from, in the order in which the modules are first mentioned.  They are laid out
  from the module on their own, without a look at the script, and the two must agree.
-/
import WasmScript.Script.Program

namespace WasmScript.Script

/-! ### How types appear in declarations -/

def hostType : ValueType → String
  | .i32 => "number"
  | .i64 => "bigint"

/-- The host's type of some results: nothing, one value, or a tuple. -/
def resultType : List ValueType → String
  | [] => "void"
  | [type] => hostType type
  | types => bracketed (types.map hostType)

def parameterList (params : List ValueType) : String :=
  ", ".intercalate (params.zipIdx.map fun (type, i) => s!"a{i}: " ++ hostType type)

/-! ### Layout -/

inductive Declared where
  | function (name : String) (type : FunctionType)
  /-- A memory; the users of a script may not replace one that it hands out. -/
  | memory (name : String) (fixed : Bool)
  | globalValue (name : String) (type : ValueType)
deriving DecidableEq, Repr, Inhabited

namespace Declared

def name : Declared → String
  | .function name _ | .memory name _ | .globalValue name _ => name

def text : Declared → String
  | .function name type =>
    Quoted.encode name ++ "(" ++ parameterList type.params ++ "): " ++ resultType type.results
      ++ ";"
  | .memory name fixed =>
    (if fixed then "readonly " else "") ++ Quoted.encode name ++ ": LinearMemory;"
  | .globalValue name type => "readonly " ++ Quoted.encode name ++ ": " ++ hostType type ++ ";"

def ofExport? (m : Module) (e : Export) : Option Declared :=
  match e.kind with
  | .function => (m.functionType? e.index).map fun type => .function e.name type
  | .memory => some (.memory e.name true)
  | .global => m.globals[e.index]?.map fun g => .globalValue e.name g.type
  | .table => none

end Declared

structure Declarations where
  runtimeSpecifier : String
  /-- Whether memories are mentioned, so that their type has to be imported. -/
  mentionsMemory : Bool
  members : List Declared
  /-- The imports, grouped by the module they come from. -/
  imports : List (String × List Declared)
deriving DecidableEq, Repr, Inhabited

namespace Declarations

/-- Adds a member to the group of a module, which is opened if it is not there. -/
def addTo (module : String) (member : Declared) :
    List (String × List Declared) → List (String × List Declared)
  | [] => [(module, [member])]
  | (name, members) :: rest =>
    if name = module then (name, members ++ [member]) :: rest
    else (name, members) :: addTo module member rest

/-- The imported functions whose type exists, with the module they come from. -/
def functionImports (m : Module) : List (String × Declared) :=
  m.imports.toList.filterMap fun entry =>
    m.types[entry.typeIndex]?.map fun type => (entry.module, .function entry.name type)

/-- The lent memory, with the module it comes from. -/
def memoryImports (m : Module) : List (String × Declared) :=
  m.memoryImport.toList.map fun place => (place.module, .memory place.name false)

def ofModule (m : Module) (options : Options) : Declarations :=
  { runtimeSpecifier := options.runtimeSpecifier
    mentionsMemory := m.exportsMemory || m.memoryImport.isSome
    members := m.exports.filterMap (Declared.ofExport? m)
    imports := (functionImports m ++ memoryImports m).foldl
      (fun groups (module, member) => addTo module member groups) [] }

/-! ### Text -/

def writeMembers (members : List Declared) (s : Sheet) : Sheet :=
  s.each members fun member => Sheet.line member.text

/-- Writes declarations: the literal of the place of the helpers if memories are mentioned, the
members of the exports, and the groups of the imports, each under a literal. -/
def writeParts (helpers : Option String) (exports : Sheet → Sheet)
    (imports : List (String × (Sheet → Sheet))) (s : Sheet) : Sheet :=
  let s := s.line "// Value mapping at the call boundary:"
  let s := s.each [ValueType.i32, .i64] fun type =>
    Sheet.line ("//   " ++ type.name ++ " -> " ++ hostType type)
  let s := s.each helpers.toList fun helpers s =>
    (s.line "").line ("import type \x7bLinearMemory\x7d from " ++ helpers ++ ";")
  let s := (s.line "").block "export interface Exports" exports
  let s := (s.line "").block "export interface Imports" fun s =>
    s.each imports fun (module, members) => Sheet.block (module ++ ":") members
  let mark := if imports.isEmpty then "?" else ""
  (s.line "").line
    ("export declare function instantiate(imports" ++ mark ++ ": Imports): Exports;")

/-- Writes the declarations, with the literal of the place of the helpers. -/
def writeWith (d : Declarations) (helpers : String) : Sheet → Sheet :=
  writeParts (if d.mentionsMemory then some helpers else none) (writeMembers d.members)
    (d.imports.map fun (module, members) => (Quoted.encode module, writeMembers members))

def write (d : Declarations) : Sheet → Sheet := d.writeWith (Quoted.encode d.runtimeSpecifier)

/-- The text of the declarations, with the literal of the place of the helpers. -/
def textWith (d : Declarations) (helpers : String) : String := (d.writeWith helpers .blank).text

def text (d : Declarations) : String := (d.write .blank).text

end Declarations

end WasmScript.Script
