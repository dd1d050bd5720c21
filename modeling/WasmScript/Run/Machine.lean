/-
  WasmScript/Run/Machine.lean
  ===========================
  **Calling and instantiating** — what both ways of running a module have in common.

  A `Machine` is a module together with its host and with a way to run the bodies of its
  functions.  `Machine.invoke` calls a function of an instance, imported or defined.
  Calls are nested no deeper than a bound, which counts down with every call, also with
  those that a host function makes; reaching it is a failure of its own.

  `Machine.instantiate` binds the imports, first the functions in order and then the
  memory, before it changes anything.  Then it makes the globals, writes the data
  segments in order and calls the start function.
-/
import WasmScript.Run.Store

namespace WasmScript

/-- A module, its host and a way to run its bodies. -/
structure Machine (σ : Type) where
  module : Module
  host : Host σ
  boundary : Boundary
  /-- The most pages of a memory that declares no maximum. -/
  maxPages : Nat
  /-- Runs a defined function of an instance, given how that instance calls functions. -/
  body : (place : Nat) → (call : Nat → List Cell → Action σ (List Cell)) →
    (function : Nat) → List Cell → Action σ (List Cell)

namespace Machine

variable {σ : Type}

open WasmScript.Action

/-! ### Calls -/

def callBound (host : Host σ) (boundary : Boundary) (exports : Exports σ) (target : Nat)
    (module field : String) (type : FunctionType) (args : List HostValue) :
    Action σ (List Value) := do
  let args ← ofExcept id (boundary.pass type.params args)
  let returned ← runHost exports (host target args)
  ofExcept id (boundary.results module field type.results returned)

def callImport (m : Machine σ) (exports : Exports σ) (place function : Nat)
    (entry : FunctionImport) (args : List HostValue) : Action σ (List Value) := do
  let i ← instanceAt place
  let target ← ofOption i.imports[function]?
  let type ← ofOption m.module.types[entry.typeIndex]?
  callBound m.host m.boundary exports target entry.module entry.name type args

/-- Calls the function that an instance exports under a name, given how its functions are
called. -/
def callExported (m : Machine σ) (invoke : Nat → Nat → List Cell → Action σ (List Cell)) :
    Exports σ := fun place name args => do
  requireInstance place
  match m.module.exports.find? fun e => e.name == name with
  | some ⟨_, .function, index⟩ =>
    let type ← ofOption (m.module.functionType? index)
    let args ← ofExcept id (m.boundary.acceptAll type.params args)
    let results ← invoke place index (args.map .plain)
    pure (.ofResults (results.map Cell.toHost))
  | _ => throw .noFunction

/-- Calls a function of an instance, at most `depth` calls deep. -/
def invoke (m : Machine σ) : (depth : Nat) → (place function : Nat) → List Cell →
    Action σ (List Cell)
  | 0, _, _, _ => throw .tooDeep
  | depth + 1, place, function, args =>
    match m.module.imports[function]? with
    | some entry => do
      let results ←
        m.callImport (m.callExported (m.invoke depth)) place function entry (args.map Cell.toHost)
      pure (results.map .plain)
    | none => m.body place (m.invoke depth place) function args

/-- Calls the function that an instance exports under a name. -/
def callExport (m : Machine σ) (depth : Nat) : Exports σ := m.callExported (m.invoke depth)

/-! ### Linking -/

def supplied (imports : HostValue) (module field : String) : HostValue :=
  (imports.field module).field field

def bindFunction (imports : HostValue) (module field : String) : Action σ Nat := do
  match supplied imports module field with
  | .function place _ => pure place
  | other => throw (.link (.notFunction module field other.typeName))

/-- The functions that the host supplies, in order. -/
def bindFunctions (imports : HostValue) : List FunctionImport → Action σ (List Nat)
  | [] => pure []
  | entry :: rest => do
    let place ← bindFunction imports entry.module entry.name
    let places ← bindFunctions imports rest
    pure (place :: places)

/-- The memory that the host lends.  It must hold as many pages as are required, and must not be
able to grow past the maximum, if there is one. -/
def bindMemory (imports : HostValue) (module field : String) (required allowed : HostValue) :
    Action σ Nat := do
  match supplied imports module field with
  | .memory place .. => do
    let m ← ofOption (← get).memories[place]?
    let pages : HostValue := .number m.pagesNumber
    let maximum : HostValue := .number m.maximumNumber
    if ← ofExcept id (pages.lt required) then
      let required ← ofExcept id required.toText
      throw (.link (.fewPages module field pages.text required))
    match allowed with
    | .undefined => pure place
    | allowed => do
      if ← ofExcept id (allowed.lt maximum) then
        let allowed ← ofExcept id allowed.toText
        throw (.link (.mayGrow module field maximum.text allowed))
      pure place
  | other => throw (.link (.notMemory module field other.typeName))

/-- A number of pages as a host value; nothing if there is none. -/
def pagesValue (pages : Option Nat) : HostValue := pages.elim .undefined fun n => .number (.ofInt n)

/-- The memory of a new instance: one that the host lends, or one of its own. -/
def linkMemory (m : Machine σ) (imports : HostValue) : Action σ (Option Nat) :=
  match m.module.memory, m.module.memoryImport with
  | none, _ => pure none
  | some limits, some source =>
    some <$> bindMemory imports source.module source.name (pagesValue limits.initial)
      (pagesValue limits.maximum)
  | some limits, none =>
    let maximum := limits.maximum.getD (max limits.initial m.maxPages)
    some <$> addMemory (.create limits.initial maximum)

/-- A new instance, with its imports bound and with nothing run. -/
def link (m : Machine σ) (imports : HostValue) : Action σ Nat := do
  let functions ← bindFunctions imports m.module.imports.toList
  let memory ← m.linkMemory imports
  addInstance ⟨functions.toArray, memory, m.module.globals.map fun g => .plain g.init⟩

def writeData (place : Nat) : List DataSegment → Action σ Unit
  | [] => pure ()
  | d :: rest => do
    onOwnMemory place (LinearMemory.write d.offset ⟨d.bytes.toArray⟩)
    writeData place rest

def instantiate (m : Machine σ) (depth : Nat) (imports : HostValue) : Action σ Nat := do
  let place ← m.link imports
  writeData place m.module.data
  match m.module.start with
  | some function =>
    let _ ← m.invoke depth place function []
    pure place
  | none => pure place

/-! ### Exports -/

/-- What an instance hands out under a name. -/
inductive Exported where
  | function
  | value (v : HostValue)

/-- What an instance hands out for an export: nothing for a table, or for a function that does
not exist. -/
def exported (m : Machine σ) (place : Nat) (e : Export) : Action σ (Option Exported) :=
  match e.kind with
  | .function => pure ((m.module.functionType? e.index).map fun _ => .function)
  | .memory => do
    let i ← instanceAt place
    match i.memory with
    | some memory => (fun v => some (.value v)) <$> memoryValue memory
    | none => pure none
  | .global => do
    let v ← getGlobal place e.index
    pure (some (.value v.toHost))
  | .table => pure none

/-- All that an instance hands out, in the order of the exports. -/
def exportedAll (m : Machine σ) (place : Nat) : List Export → Action σ (List (String × Exported))
  | [] => pure []
  | e :: rest => do
    let x ← m.exported place e
    let xs ← m.exportedAll place rest
    pure (x.toList.map (fun x => (e.name, x)) ++ xs)

/-- What an instance hands out under a name. -/
def exportNamed (m : Machine σ) (place : Nat) (name : String) : Action σ (Option Exported) :=
  match m.module.exports.find? fun e => e.name == name with
  | some e => m.exported place e
  | none => pure none

/-- The memory that an instance hands out, under whatever name. -/
def exportedMemory (m : Machine σ) (place : Nat) : Action σ (Option Nat) := do
  let i ← instanceAt place
  pure (if m.module.exportsMemory then i.memory else none)

end Machine

end WasmScript
