/-
  WasmScript/Module/Section.lean
  ==============================
  **Sections** — the parts of a binary module, their numbers, names and order.

  Sections come in the order of `SectionId.order`, each at most once; the data count
  stands between the elements and the code although its number is larger.  A custom
  section may stand anywhere.
-/
namespace WasmScript

/-- A part of a binary module. -/
inductive SectionId where
  | custom
  | type
  | import
  | function
  | table
  | memory
  | global
  | export
  | start
  | element
  | code
  | data
  | dataCount
deriving DecidableEq, Repr

namespace SectionId

def all : List SectionId :=
  [.custom, .type, .import, .function, .table, .memory, .global, .export, .start, .element,
   .code, .data, .dataCount]

def number : SectionId → Nat
  | .custom => 0
  | .type => 1
  | .import => 2
  | .function => 3
  | .table => 4
  | .memory => 5
  | .global => 6
  | .export => 7
  | .start => 8
  | .element => 9
  | .code => 10
  | .data => 11
  | .dataCount => 12

def name : SectionId → String
  | .custom => "custom"
  | .type => "type"
  | .import => "import"
  | .function => "function"
  | .table => "table"
  | .memory => "memory"
  | .global => "global"
  | .export => "export"
  | .start => "start"
  | .element => "element"
  | .code => "code"
  | .data => "data"
  | .dataCount => "data count"

def label : SectionId → String
  | .custom => "Custom"
  | .type => "Type"
  | .import => "Import"
  | .function => "Function"
  | .table => "Table"
  | .memory => "Memory"
  | .global => "Global"
  | .export => "Export"
  | .start => "Start"
  | .element => "Element"
  | .code => "Code"
  | .data => "Data"
  | .dataCount => "DataCount"

def ofNumber? (n : Nat) : Option SectionId := all[n]?

/-- The order in which sections other than custom ones come. -/
def order : List SectionId :=
  [.type, .import, .function, .table, .memory, .global, .export, .start, .element,
   .dataCount, .code, .data]

def rank (id : SectionId) : Nat := order.idxOf id

end SectionId

/-! ### Fixed bytes -/

namespace Binary

/-- The first four bytes of a module. -/
def magic : List UInt8 := [0x00, 0x61, 0x73, 0x6d]

def version : List UInt8 := [0x01, 0x00, 0x00, 0x00]

/-- The type of a block that takes and leaves nothing. -/
def emptyBlock : Nat := 0x40

def functionForm : Nat := 0x60

/-- The first bytes of the types, by name. -/
def typeBytes : List (String × Nat) :=
  [("i32", 0x7f), ("i64", 0x7e), ("f32", 0x7d), ("f64", 0x7c), ("v128", 0x7b),
   ("funcref", 0x70), ("externref", 0x6f)]

/-- The kinds of imports and exports, by name. -/
def descriptors : List (String × Nat) := [("Func", 0), ("Table", 1), ("Mem", 2), ("Global", 3)]

/-- The instructions behind the byte `0xfc` that have a name. -/
def escaped : List (String × Nat) :=
  [("memory_init", 8), ("data_drop", 9), ("memory_copy", 10), ("memory_fill", 11)]

end Binary

end WasmScript
