/-
  WasmScript/Script/Statement.lean
  ================================
  **Script statements** — the statements that generated scripts consist of, and how a
  structured body is written with them.

  A block or loop that no branch targets is no statement of its own: its body is written
  in its place.  A second part of a choice is kept even where nothing is left of it.  A
  branch table becomes a `switch` whose cases are grouped by target, in the order of first
  use; those that share the target of the default stand with it.
-/
import WasmScript.Script.Expression
import WasmScript.Text.Layout
import WasmScript.Text.Quoted

namespace WasmScript.Script

open WasmScript.IR (Branch Expression Operand)

/-- What a jump does after its values are assigned. -/
inductive Jump where
  | leave (values : List Term)
  | exit (label : Int)
  | restart (label : Int)
deriving Repr, Inhabited

inductive Statement where
  | block (label : Int) (body : List Statement)
  /-- A loop that its last statement leaves. -/
  | forever (label : Int) (body : List Statement)
  /-- A choice on a condition; an empty second part is not the same as none. -/
  | conditional (label : Option Int) (condition : Term) (yes : List Statement)
      (no : Option (List Statement))
  /-- A jump taken on a condition, on a line of its own. -/
  | jumpIf (condition : Term) (jump : Jump)
  | jump (jump : Jump)
  /-- A choice by index: groups of cases with a body each, and the cases that share the body of
  the default. -/
  | switch (index : Term) (groups : List (List Nat × List Statement)) (defaultCases : List Nat)
      (default : List Statement)
  | unreachable
  /-- Binds fresh temporaries. -/
  | define (ids : List Nat) (value : Term)
  /-- Assigns slots, all at once. -/
  | assign (ids : List Nat) (values : List Term)
  | evaluate (value : Term)
deriving Repr, Inhabited

/-! ### Printing -/

def labelName (label : Int) : String := s!"L{label}"

def tempName (id : Nat) : String := (Variable.tempVar id).text

def bracketed (texts : List String) : String := "[" ++ ", ".intercalate texts ++ "]"

def Jump.text : Jump → String
  | .leave [] => "return;"
  | .leave [value] => "return " ++ value.text ++ ";"
  | .leave values => "return " ++ bracketed (Term.texts values) ++ ";"
  | .exit label => "break " ++ labelName label ++ ";"
  | .restart label => "continue " ++ labelName label ++ ";"

def assignmentText (ids : List Nat) (values : List Term) : String :=
  match ids with
  | [id] => tempName id ++ " = " ++ ((Term.texts values).head?.getD "undefined") ++ ";"
  | ids =>
    bracketed (ids.map tempName) ++ " = " ++ bracketed (Term.texts values) ++ ";"

def boundText (ids : List Nat) : String :=
  match ids with
  | [id] => tempName id
  | ids => bracketed (ids.map tempName)

def caseLine (i : Nat) : String := s!"case {i}:"

namespace Statement

mutual
def write : Statement → Sheet → Sheet
  | .block label body => Sheet.block (labelName label ++ ":") (writeAll body)
  | .forever label body =>
    Sheet.block (labelName label ++ ": while (true)") fun s =>
      (writeAll body s).line ("break " ++ labelName label ++ ";")
  | .conditional label condition yes no => fun s =>
    let start := label.elim "" fun l => labelName l ++ ": "
    let s := s.line (start ++ "if (" ++ condition.text ++ ") \x7b")
    (writeElse no (s.indent (writeAll yes))).line "\x7d"
  | .jumpIf condition j => Sheet.line ("if (" ++ condition.text ++ ") " ++ j.text)
  | .jump j => Sheet.line j.text
  | .switch index groups defaultCases default =>
    Sheet.block ("switch (" ++ index.text ++ ")") fun s =>
      let s := writeGroups groups s
      let s := s.each defaultCases fun i => Sheet.line (caseLine i)
      (s.line "default:").indent (writeAll default)
  | .unreachable => Sheet.line "throw new rt.WasmTrap(rt.TrapKind.Unreachable);"
  | .define ids value => Sheet.line ("const " ++ boundText ids ++ " = " ++ value.text ++ ";")
  | .assign ids values => Sheet.line (assignmentText ids values)
  | .evaluate value => Sheet.line (value.text ++ ";")

/-- Writes the second part of a choice, if there is one. -/
def writeElse : Option (List Statement) → Sheet → Sheet
  | none, s => s
  | some no, s => (s.line "\x7d else \x7b").indent (writeAll no)

def writeAll : List Statement → Sheet → Sheet
  | [], s => s
  | t :: ts, s => writeAll ts (write t s)

/-- Writes the groups of a `switch`: the cases of each and its body, one level deeper. -/
def writeGroups : List (List Nat × List Statement) → Sheet → Sheet
  | [], s => s
  | (cases, body) :: rest, s =>
    writeGroups rest ((s.each cases fun i => Sheet.line (caseLine i)).indent (writeAll body))
end

end Statement

/-! ### From structured bodies -/

def jumpOf (b : Branch) (values : List Term) : Jump :=
  match b.mode with
  | .leave => .leave values
  | .restart => .restart b.label
  | .exit => .exit b.label

/-- A branch: its values are written to the target's slots, and control is transferred. -/
def ofBranch (b : Branch) : Except FormError (List Statement) := do
  let values ← ofExpressions b.values
  pure <|
    if b.mode ≠ .leave ∧ b.values.length ≠ 0 then
      [.assign b.slots values, .jump (jumpOf b values)]
    else [.jump (jumpOf b values)]

def ofBranchIf (condition : Expression) (b : Branch) : Except FormError Statement := do
  let c ← ofCondition condition
  if b.values.length = 0 ∨ b.mode = .leave then
    let values ← ofExpressions b.values
    pure (.jumpIf c (jumpOf b values))
  else
    let body ← ofBranch b
    pure (.conditional none c body none)

/-- The values of a list without repetition, in the order of first use. -/
def firstUses : List Nat → List Nat
  | [] => []
  | n :: rest => n :: (firstUses rest).filter (· ≠ n)

def casesOf (targets : List Branch) (depth : Nat) : List Nat :=
  (List.range targets.length).filter fun i => (targets[i]?.map Branch.depth) = some depth

/-- The branch that stands for all targets of a depth: the last of them. -/
def branchOf? (targets : List Branch) (depth : Nat) : Option Branch :=
  targets.reverse.find? fun b => b.depth = depth

def ofGroups (targets : List Branch) :
    List Nat → Except FormError (List (List Nat × List Statement))
  | [] => .ok []
  | depth :: rest => do
    match branchOf? targets depth with
    | some b =>
      let body ← ofBranch b
      let groups ← ofGroups targets rest
      pure ((casesOf targets depth, body) :: groups)
    | none => ofGroups targets rest

/-- A branch table.  Negative indices are large unsigned ones, so they reach the default like
every other index out of range. -/
def ofBranchTable (index : Expression) (targets : List Branch) (default : Branch) :
    Except FormError Statement := do
  let t ← ofExpression index
  let depths := (firstUses (targets.map Branch.depth)).filter (· ≠ default.depth)
  let groups ← ofGroups targets depths
  let last ← ofBranch default
  pure (.switch t groups (casesOf targets default.depth) last)

def memoryCall (callee : Callee) (args : List Term) : Statement := .evaluate (.call callee args)

mutual
def ofStatement : IR.Statement → Except FormError (List Statement)
  | .block label targeted body => do
    let ts ← ofStatements body
    pure (if targeted then [.block label ts] else ts)
  | .loop label targeted body => do
    let ts ← ofStatements body
    pure (if targeted then [.forever label ts] else ts)
  | .conditional label targeted condition yes no => do
    let c ← ofCondition condition
    let yes ← ofStatements yes
    let other ← ofStatements no
    pure [.conditional (if targeted then some label else none) c yes
      (if no.isEmpty then none else some other)]
  | .branch b => ofBranch b
  | .branchIf condition b => do
    let t ← ofBranchIf condition b
    pure [t]
  | .branchTable index targets default => do
    let t ← ofBranchTable index targets default
    pure [t]
  | .leave values => do
    let ts ← ofExpressions values
    pure [.jump (.leave ts)]
  | .unreachable => .ok [.unreachable]
  | .localSet index value => do
    let t ← ofExpression value
    pure [.evaluate (.assign (.localVar index) t)]
  | .globalSet index value => do
    let t ← ofExpression value
    pure [.evaluate (.assign (.globalVar index) t)]
  | .define ids value => do
    let t ← ofOperand value
    pure [.define ids t]
  | .assign ids values => do
    let ts ← ofExpressions values
    pure [.assign ids ts]
  | .store access address value => do
    let a ← ofAddress address
    let v ← ofExpression value
    let v := if access.isNarrowI64 then Term.help .i32WrapI64 [v] else v
    pure [memoryCall (.access access.accessor) [a, v]]
  | .memoryCopy destination source length => do
    let d ← ofAddress destination
    let s ← ofAddress source
    let n ← ofAddress length
    pure [memoryCall .memoryCopy [d, s, n]]
  | .memoryFill destination value length => do
    let d ← ofAddress destination
    let v ← ofExpression value
    let n ← ofAddress length
    pure [memoryCall .memoryFill [d, v, n]]
  | .evaluate value => do
    let t ← ofOperand value
    pure [.evaluate t]

def ofStatements : List IR.Statement → Except FormError (List Statement)
  | [] => .ok []
  | t :: ts => do
    let a ← ofStatement t
    let b ← ofStatements ts
    pure (a ++ b)
end

end WasmScript.Script
