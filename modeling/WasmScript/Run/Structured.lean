/-
  WasmScript/Run/Structured.lean
  ==============================
  **Running structured bodies** — what the generated scripts compute.

  Operands are evaluated from left to right, statements run in order.  Variables are kept
  together with the store, so that a failure keeps what was changed before it.  Each run
  of a loop makes at most `turns` turns; reaching that bound is a failure of its own.

  A temporary that is bound once holds nothing before that, and nothing any more after the
  list of statements that binds it: each turn of a loop and each arm of a choice starts
  without what was bound in it before.  A slot lives as long as the function.

  A run may be watched: `Surroundings.watch` is asked about each value that an expression
  gives, together with the variables at that moment, and the run stops where it objects.
-/
import WasmScript.Run.Machine
import WasmScript.Run.Operation
import WasmScript.IR.Basic

namespace WasmScript.IR

/-- The variables of a running function, and the store. -/
structure Variables (σ : Type) where
  locals : Array Cell
  /-- The temporaries, of which some hold nothing yet. -/
  temps : Array (Option Cell)
  store : Store σ

/-- A change of variables and store that gives a value or fails. -/
abbrev Run (σ : Type) := EStateM Failure (Variables σ)

inductive Ending where
  | next
  | exit (label : Int)
  | restart (label : Int)
  | leave (values : List Cell)
deriving DecidableEq, Repr, Inhabited

/-- What a running function has around it. -/
structure Surroundings (σ : Type) where
  /-- The place of its instance. -/
  place : Nat
  call : Nat → List Cell → Action σ (List Cell)
  /-- The most turns of a loop. -/
  turns : Nat
  /-- Whether a value and the variables are as they should be, where an expression gives it. -/
  watch : Expression → Cell → Variables σ → Bool := fun _ _ _ => true

/-- The temporaries that a list of statements binds, without those that are bound deeper inside. -/
def bound : List Statement → List Nat
  | [] => []
  | .define ids _ :: rest => ids ++ bound rest
  | _ :: rest => bound rest

namespace Run

variable {σ : Type}

def act {α : Type} (a : Action σ α) : Run σ α := fun ⟨locals, temps, store⟩ =>
  match a store with
  | .ok v store => .ok v ⟨locals, temps, store⟩
  | .error e store => .error e ⟨locals, temps, store⟩

def result {α : Type} : Except Failure α → Run σ α
  | .ok a => pure a
  | .error e => throw e

/-- What is there; an accepted body never asks for anything else. -/
def present {α : Type} : Option α → Run σ α
  | some a => pure a
  | none => throw .stuck

def setLocal (index : Nat) (v : Cell) : Run σ Unit := fun ⟨locals, temps, store⟩ =>
  if index < locals.size then .ok () ⟨locals.setIfInBounds index v, temps, store⟩
  else .error .stuck ⟨locals, temps, store⟩

def setTemp (id : Nat) (v : Cell) : Run σ Unit := fun ⟨locals, temps, store⟩ =>
  if id < temps.size then .ok () ⟨locals, temps.setIfInBounds id (some v), store⟩
  else .error .stuck ⟨locals, temps, store⟩

/-- Assigns temporaries, one value each. -/
def setTemps : List Nat → List Cell → Run σ Unit
  | [], [] => pure ()
  | id :: ids, v :: vs => do
    setTemp id v
    setTemps ids vs
  | _, _ => throw .stuck

/-- Takes away what some temporaries hold. -/
def clearTemps (ids : List Nat) : Run σ Unit := modify fun ⟨locals, temps, store⟩ =>
  ⟨locals, ids.foldl (fun temps id => temps.setIfInBounds id none) temps, store⟩

def toI32 (v : Cell) : Run σ Int :=
  match v.toValue with
  | .i32 n => pure n
  | .i64 _ => throw .stuck

def toAddress (v : Cell) : Run σ Nat := do pure (Bits.unsigned32 (← toI32 v))

def theOnly : List Cell → Run σ Cell
  | [v] => pure v
  | _ => throw .stuck

/-! ### Expressions -/

/-- Passes the value of an expression on, unless the run is watched and something is wrong. -/
def watched (around : Surroundings σ) (e : Expression) (run : Run σ Cell) : Run σ Cell := do
  let v ← run
  if around.watch e v (← get) then pure v else throw .stuck

mutual
def evaluate (around : Surroundings σ) : Expression → Run σ Cell
  | e@(.literal v) => watched around e (pure v)
  | e@(.localRef _ index) => watched around e do present (← get).locals[index]?
  | e@(.tempRef _ id) => watched around e do present (← get).temps[id]?.join
  | e@(.globalRef _ index) => watched around e (act (.getGlobal around.place index))
  | e@(.unary _ op operand) => watched around e do
    let a ← evaluate around operand
    result (.plain <$> Operation.applyUnary op a.toValue)
  | e@(.binary _ op left right) => watched around e do
    let a ← evaluate around left
    let b ← evaluate around right
    result (.plain <$> Operation.applyBinary op a.toValue b.toValue)
  | e@(.compare op left right) => watched around e do
    let a ← evaluate around left
    let b ← evaluate around right
    result (.plain <$> Operation.applyComparison op a.toValue b.toValue)
  | e@(.select _ condition ifTrue ifFalse) => watched around e do
    let c ← toI32 (← evaluate around condition)
    if c ≠ 0 then evaluate around ifTrue else evaluate around ifFalse
  | e@(.call _ function args) => watched around e do
    let args ← evaluateAll around args
    theOnly (← act (around.call function args))
  | e@(.tee _ index value) => watched around e do
    let v ← evaluate around value
    setLocal index v
    pure v
  | e@(.address base offset) => watched around e do
    let n ← toI32 (← evaluate around base)
    pure (.plain (.i32 (Bits.unsigned32 (n + offset))))
  | e@(.load access address) => watched around e do
    let address ← toAddress (← evaluate around address)
    let n ← act (.onOwnMemory around.place (LinearMemory.load access.accessor address))
    pure (Operation.loaded access n)
  | e@.memorySize => watched around e (act (.memorySize around.place))
  | e@(.memoryGrow delta) => watched around e do
    let delta ← toAddress (← evaluate around delta)
    act (.memoryGrow around.place delta)

/-- The values of some expressions, from left to right. -/
def evaluateAll (around : Surroundings σ) : List Expression → Run σ (List Cell)
  | [] => pure []
  | e :: es => do
    let v ← evaluate around e
    let vs ← evaluateAll around es
    pure (v :: vs)
end

def evaluateOperand (around : Surroundings σ) : Operand → Run σ (List Cell)
  | .single e => do
    let v ← evaluate around e
    pure [v]
  | .multi function args _ => do
    let args ← evaluateAll around args
    act (around.call function args)

/-! ### Statements -/

def takeBranch (around : Surroundings σ) (b : Branch) : Run σ Ending := do
  let values ← evaluateAll around b.values
  match b.mode with
  | .leave => pure (.leave values)
  | .exit =>
    setTemps b.slots values
    pure (.exit b.label)
  | .restart =>
    setTemps b.slots values
    pure (.restart b.label)

def repeatBody (label : Int) (body : Run σ Ending) : (turns : Nat) → Run σ Ending
  | 0 => throw .tooLong
  | turns + 1 => do
    match ← body with
    | .restart l => if l = label then repeatBody label body turns else pure (.restart l)
    | other => pure other

/-- Runs a list of statements, and forgets what it binds. -/
def inScope (body : List Statement) (run : Run σ Ending) : Run σ Ending := do
  let ending ← run
  clearTemps (bound body)
  pure ending

def endBlock (label : Int) : Ending → Ending
  | .exit l => if l = label then .next else .exit l
  | other => other

mutual
def execute (around : Surroundings σ) : Statement → Run σ Ending
  | .block label _ body => do
    let ending ← inScope body (executeAll around body)
    pure (endBlock label ending)
  | .loop label _ body => repeatBody label (inScope body (executeAll around body)) around.turns
  | .conditional label _ condition yes no => do
    let c ← toI32 (← evaluate around condition)
    let ending ←
      if c ≠ 0 then inScope yes (executeAll around yes) else inScope no (executeAll around no)
    pure (endBlock label ending)
  | .branch b => takeBranch around b
  | .branchIf condition b => do
    let c ← toI32 (← evaluate around condition)
    if c ≠ 0 then takeBranch around b else pure .next
  | .branchTable index targets default => do
    let i ← toAddress (← evaluate around index)
    takeBranch around (targets[i]?.getD default)
  | .leave values => do
    let values ← evaluateAll around values
    pure (.leave values)
  | .unreachable => throw (.trap .unreachable)
  | .localSet index value => do
    let v ← evaluate around value
    setLocal index v
    pure .next
  | .globalSet index value => do
    let v ← evaluate around value
    act (.setGlobal around.place index v)
    pure .next
  | .define ids value => do
    let values ← evaluateOperand around value
    setTemps ids values
    pure .next
  | .assign ids values => do
    let values ← evaluateAll around values
    setTemps ids values
    pure .next
  | .store access address value => do
    let address ← toAddress (← evaluate around address)
    let v ← evaluate around value
    let n ← result (Operation.stored access v.toValue)
    act (.onOwnMemory around.place (LinearMemory.store access.accessor address n))
    pure .next
  | .memoryCopy destination source length => do
    let d ← toAddress (← evaluate around destination)
    let s ← toAddress (← evaluate around source)
    let n ← toAddress (← evaluate around length)
    act (.onOwnMemory around.place (LinearMemory.copy d s n))
    pure .next
  | .memoryFill destination value length => do
    let d ← toAddress (← evaluate around destination)
    let v ← toI32 (← evaluate around value)
    let n ← toAddress (← evaluate around length)
    act (.onOwnMemory around.place (LinearMemory.fill d v n))
    pure .next
  | .evaluate value => do
    let _ ← evaluateOperand around value
    pure .next

/-- Runs statements one after another, up to one that does not go on to the next. -/
def executeAll (around : Surroundings σ) : List Statement → Run σ Ending
  | [] => pure .next
  | s :: rest => do
    match ← execute around s with
    | .next => executeAll around rest
    | other => pure other
end

end Run

/-! ### Functions -/

/-- The results of a function whose body ended in some way.  A function without results may fall
off its end. -/
def Function.results? (f : Function) : Ending → Option (List Cell)
  | .leave values => some values
  | .next => if f.results = [] then some [] else none
  | _ => none

/-- What a temporary holds when the function starts: a slot holds a zero. -/
def Temp.initial (t : Temp) : Option Cell :=
  match t.kind with
  | .value => none
  | .slot => some (.zero t.type)

/-- Runs a function on arguments.  Declared locals and slots start at zero. -/
def Function.run {σ : Type} (f : Function) (around : Surroundings σ) (args : List Cell) :
    Action σ (List Cell) := fun store =>
  let locals := (args ++ f.locals.map Cell.zero).toArray
  let temps := (f.temps.map Temp.initial).toArray
  match Run.executeAll around f.body ⟨locals, temps, store⟩ with
  | .ok ending after =>
    match f.results? ending with
    | some values => .ok values after.store
    | none => .error .stuck after.store
  | .error e after => .error e after.store

abbrev Watch (σ : Type) := (place : Nat) → Function → Expression → Cell → Variables σ → Bool

/-- The machine that runs structured bodies, listed in the order of the defined functions, and
watches them. -/
def watchedMachine {σ : Type} (watch : Watch σ) (m : Module) (functions : Array Function)
    (host : Host σ) (maxPages turns : Nat) : Machine σ :=
  { module := m
    host
    boundary := .script
    maxPages
    body := fun place call function args => do
      let f ← Action.ofOption functions[function - m.imports.size]?
      f.run ⟨place, call, turns, watch place f⟩ args }

/-- The machine that runs structured bodies, listed in the order of the defined functions. -/
def machine {σ : Type} (m : Module) (functions : Array Function) (host : Host σ)
    (maxPages turns : Nat) : Machine σ :=
  watchedMachine (fun _ _ _ _ _ => true) m functions host maxPages turns

end WasmScript.IR
