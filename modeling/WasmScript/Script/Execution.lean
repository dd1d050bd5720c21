/-
  WasmScript/Script/Execution.lean
  ================================
  **Running generated scripts** — what the statements of a script do, and the function that
  it defines.

  Statements run by the rules of the script language, in the variables and the store of
  `WasmScript.Script.Evaluation`.  A labelled statement is left by a jump with its label, a
  loop is started again by one, and a `switch` goes on from the first of its groups that has
  the value.  A constant is in scope up to the end of the block that declares it; slots and
  local variables last as long as the call.

  `Program.instantiate` runs the body of the function that a script defines.  Its parts are
  those of `Machine.instantiate`, but they come from the script alone: the bindings with their
  names and types, the memory, the globals, the inner functions, the data and the start.
-/
import WasmScript.Script.Evaluation
import WasmScript.Script.Program

namespace WasmScript.Script

open IR (Ending Run Surroundings Variables)

variable {σ : Type}

/-! ### Values -/

def Datum.cell? (d : Datum) : Option Cell := d.scalar?.bind Scalar.toCell?

/-- What variables hold that are bound to a datum: several of them are bound to the items of a
list. -/
def Datum.bound? (d : Datum) : (ids : List Nat) → Option (List Cell)
  | [_] => d.cell?.map ([·])
  | _ =>
    match d with
    | .several items => items.mapM Scalar.toCell?
    | _ => none

namespace Term

/-- The values of some expressions, from left to right. -/
def cells (around : Surroundings σ) (ts : List Term) : Run σ (List Cell) := do
  let ds ← evaluateAll around ts
  Run.present (ds.mapM Datum.cell?)

def holds (around : Surroundings σ) (t : Term) : Run σ Bool := do
  match ← t.evaluate around with
  | .truth b => pure b
  | _ => throw .stuck

/-- The integer that a `switch` compares with its cases. -/
def selector (around : Surroundings σ) (t : Term) : Run σ Int := do
  let d ← t.evaluate around
  Run.present (d.scalar?.bind (Scalar.toInteger? .i32))

end Term

/-! ### Statements -/

def Jump.take (around : Surroundings σ) : Jump → Run σ Ending
  | .leave values => do pure (.leave (← Term.cells around values))
  | .exit label => pure (.exit label)
  | .restart label => pure (.restart label)

namespace Statement

/-- The constants that a statement declares in the block where it stands. -/
def binds : Statement → List Nat
  | .define ids _ => ids
  | _ => []

/-- The constants that some statements declare in the block where they stand. -/
def bindsAll (ts : List Statement) : List Nat := ts.flatMap binds

/-- Runs the statements of a block, whose constants are not in scope any more at its end. -/
def inScope (body : List Statement) (run : Run σ Ending) : Run σ Ending := do
  let ending ← run
  Run.clearTemps (bindsAll body)
  pure ending

mutual
def execute (around : Surroundings σ) : Statement → Run σ Ending
  | .block label body => do
    let ending ← inScope body (executeAll around body)
    pure (Run.endBlock label ending)
  | .forever label body => do
    -- The last statement of a loop leaves it, so a body that goes on ends the loop.
    let ending ← Run.repeatBody label (inScope body (executeAll around body)) around.turns
    pure (Run.endBlock label ending)
  | .conditional label condition yes no => do
    let holds ← condition.holds around
    let ending ← if holds then inScope yes (executeAll around yes) else executeElse around no
    pure (label.elim ending fun l => Run.endBlock l ending)
  | .jumpIf condition j => do
    let holds ← condition.holds around
    if holds then j.take around else pure .next
  | .jump j => j.take around
  | .switch index groups _ default => do
    let i ← index.selector around
    inScope (groups.flatMap Prod.snd ++ default)
      (executeGroups around i (executeAll around default) false groups)
  | .unreachable => throw (.trap .unreachable)
  | .define ids value => do
    let d ← value.evaluate around
    let cells ← Run.present (d.bound? ids)
    Run.setTemps ids cells
    pure .next
  | .assign ids values => do
    let cells ← Term.cells around values
    Run.setTemps ids cells
    pure .next
  | .evaluate value => do
    let _ ← value.evaluate around
    pure .next

/-- Runs the second part of a choice, if there is one. -/
def executeElse (around : Surroundings σ) : Option (List Statement) → Run σ Ending
  | none => pure .next
  | some no => inScope no (executeAll around no)

/-- Runs statements one after another, up to one that does not go on to the next. -/
def executeAll (around : Surroundings σ) : List Statement → Run σ Ending
  | [] => pure .next
  | t :: ts => do
    match ← execute around t with
    | .next => executeAll around ts
    | other => pure other

/-- Runs the groups of a `switch` from the first one that has a case for a value, or from where
one was entered before, and then the default. -/
def executeGroups (around : Surroundings σ) (i : Int) (default : Run σ Ending) :
    (entered : Bool) → List (List Nat × List Statement) → Run σ Ending
  | _, [] => default
  | entered, (cases, body) :: rest =>
    if entered || cases.any fun n => (n : Int) = i then do
      match ← executeAll around body with
      | .next => executeGroups around i default true rest
      | other => pure other
    else executeGroups around i default false rest
end

mutual
/-- The constants that are declared in a statement, at whatever depth. -/
def declares : Statement → List Nat
  | .block _ body | .forever _ body => declaresAll body
  | .conditional _ _ yes no => declaresAll yes ++ declaresElse no
  | .switch _ groups _ default => declaresGroups groups ++ declaresAll default
  | .define ids _ => ids
  | _ => []

def declaresElse : Option (List Statement) → List Nat
  | none => []
  | some no => declaresAll no

def declaresAll : List Statement → List Nat
  | [] => []
  | t :: ts => declares t ++ declaresAll ts

def declaresGroups : List (List Nat × List Statement) → List Nat
  | [] => []
  | (_, body) :: rest => declaresAll body ++ declaresGroups rest
end

end Statement

/-! ### Functions -/

namespace Function

def temps (f : Function) : List Nat := f.slots.map Prod.fst ++ Statement.declaresAll f.body

/-- The number of places that have one for each slot and each constant. -/
def room (f : Function) : Nat := f.temps.foldr (fun id n => max (id + 1) n) 0

/-- The variables that a call starts with: declared locals and slots are zero, and no constant
is in scope. -/
def start (f : Function) (args : List Cell) (store : Store σ) : Variables σ where
  locals := (args ++ f.locals.map Cell.zero).toArray
  temps := f.slots.foldl (fun temps (id, type) => temps.setIfInBounds id (some (.zero type)))
    (Array.replicate f.room none)
  store

/-- Calls a function.  One that falls off its end has no results. -/
def run (f : Function) (around : Surroundings σ) (args : List Cell) : Action σ (List Cell) :=
  fun store =>
    if args.length = f.paramCount then
      match Statement.executeAll around f.body (f.start args store) with
      | .ok (.leave values) after => .ok values after.store
      | .ok .next after => .ok [] after.store
      | .ok _ after => .error .stuck after.store
      | .error e after => .error e after.store
    else .error .stuck store

end Function

/-! ### Scripts -/

namespace Program

open WasmScript.Action

variable (p : Program)

/-- The member under a name of the object that a script hands out; a later one takes the place
of an earlier one. -/
def member? (name : String) : Option Member := p.members.reverse.find? fun x => x.key == name

/-- Calls a member of the object that an instance hands out, given how its functions are called. -/
def callMember (invoke : Nat → Nat → List Cell → Action σ (List Cell)) : Exports σ :=
  fun place name args => do
    requireInstance place
    match p.member? name with
    | some (.function _ index params) =>
      let args ← ofExcept id (Boundary.script.acceptAll params args)
      let results ← invoke place index (args.map .plain)
      pure (.ofResults (results.map Cell.toHost))
    | _ => throw .noFunction

/-- Calls a function by its index, at most `depth` calls deep: one that was bound to an import,
or an inner function. -/
def invoke (host : Host σ) (turns : Nat) : (depth : Nat) → (place function : Nat) → List Cell →
    Action σ (List Cell)
  | 0, _, _, _ => throw .tooDeep
  | depth + 1, place, function, args =>
    match p.imports.zipIdx.find? fun x => x.1.index == function with
    | some (b, position) => do
      let i ← instanceAt place
      let target ← ofOption i.imports[position]?
      let results ← Machine.callBound host .script (p.callMember (invoke host turns depth)) target
        b.module b.field b.type (args.map Cell.toHost)
      pure (results.map .plain)
    | none => do
      let f ← ofOption (p.functions.find? fun f => f.index == function)
      f.run ⟨place, invoke host turns depth place, turns, fun _ _ _ => true⟩ args

/-- The functions that the host supplies for the imports, in order. -/
def bindImports (imports : HostValue) : List ImportBinding → Action σ (List Nat)
  | [] => pure []
  | b :: rest => do
    let target ← Machine.bindFunction imports b.module b.field
    let targets ← bindImports imports rest
    pure (target :: targets)

/-- The memory of a new instance: lent by the host, or made. -/
def bindMemory (imports : HostValue) : Option MemoryBinding → Action σ (Option Nat)
  | none => pure none
  | some (.lent module field limits) =>
    some <$> Machine.bindMemory imports module field (Machine.pagesValue limits.initial)
      (Machine.pagesValue limits.maximum)
  | some (.owned initial maximum) => some <$> addMemory (.create initial maximum)

/-- Runs the function that a script defines. -/
def instantiate (host : Host σ) (turns depth : Nat) (imports : HostValue) : Action σ Nat := do
  let functions ← bindImports imports p.imports
  let memory ← bindMemory imports p.memory
  let globals := p.globals.map fun g => Cell.plain g.init
  let place ← addInstance ⟨functions.toArray, memory, globals.toArray⟩
  Machine.writeData place p.data
  match p.start with
  | some function =>
    let _ ← p.invoke host turns depth place function []
    pure place
  | none => pure place

def handedOut (place : Nat) (name : String) : Action σ (Option Machine.Exported) :=
  match p.member? name with
  | none => pure none
  | some (.function ..) => pure (some .function)
  | some (.memory _) => do
    let i ← instanceAt place
    match i.memory with
    | some memory => (fun v => some (.value v)) <$> memoryValue memory
    | none => pure none
  | some (.globalValue _ index) => do
    let v ← getGlobal place index
    pure (some (.value v.toHost))

end Program

end WasmScript.Script
