/-
  WasmScript/Run/Network.lean
  ===========================
  **Several modules in one store** — instances of different modules, which may share a memory
  that a host lends to them, and which call one another through the host.

  A `Network` has a machine for each place of an instance: that of the module that is made
  there.  Calls go to the machine of the instance that is called, with one bound on their
  depth for all of them.  A network of one module runs as the machine of that module does.
-/
import WasmScript.Run.Machine

namespace WasmScript

abbrev Network (σ : Type) := Nat → Machine σ

namespace Network

variable {σ : Type}

open WasmScript.Action

/-- Calls a function of an instance, at most `depth` calls deep. -/
def invoke (n : Network σ) :
    (depth : Nat) → (place function : Nat) → List Cell → Action σ (List Cell)
  | 0, _, _, _ => throw .tooDeep
  | depth + 1, place, function, args =>
    match (n place).module.imports[function]? with
    | some entry => do
      let exports : Exports σ := fun p => (n p).callExported (n.invoke depth) p
      let results ← (n place).callImport exports place function entry (args.map Cell.toHost)
      pure (results.map .plain)
    | none => (n place).body place (n.invoke depth place) function args

/-- Calls the function that an instance exports under a name. -/
def callExport (n : Network σ) (depth : Nat) : Exports σ := fun place =>
  (n place).callExported (n.invoke depth) place

/-- Writes the data segments of an instance that has its imports, and calls its start function. -/
def start (n : Network σ) (depth place : Nat) : Action σ Nat := do
  Machine.writeData place (n place).module.data
  match (n place).module.start with
  | some function =>
    let _ ← n.invoke depth place function []
    pure place
  | none => pure place

/-- A new instance of the module that the next place is for. -/
def instantiate (n : Network σ) (depth : Nat) (imports : HostValue) : Action σ Nat := do
  let place ← (n (← get).instances.size).link imports
  n.start depth place

variable (M : Machine σ)

theorem invoke_single (depth : Nat) : invoke (fun _ => M) depth = M.invoke depth := by
  let next (call : Nat → Nat → List Cell → Action σ (List Cell)) (place function : Nat)
      (args : List Cell) :
      Action σ (List Cell) :=
    match M.module.imports[function]? with
    | some entry => do
      let results ← M.callImport (M.callExported call) place function entry (args.map Cell.toHost)
      pure (results.map .plain)
    | none => M.body place (call place) function args
  induction depth with
  | zero => rfl
  | succ depth ih => exact congrArg next ih

theorem instantiate_single (depth : Nat) :
    instantiate (fun _ => M) depth = M.instantiate depth := by
  funext imports s
  unfold instantiate start Machine.instantiate
  rw [invoke_single]
  rfl

end Network

end WasmScript
