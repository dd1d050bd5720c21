/-
  WasmScript/Host/NodeScript.lean
  ===============================
  **Scripts of nodes** — how the nodes that a host has as objects are written.

  A node is written as the node of a structured body is, with whatever its parts read as:
  an index is the text of what stands in its place, and an expression of no known kind is
  what nothing reads as.  The parts are looked at in the order in which they are written,
  so that the first one that cannot be used decides.

  The operators have the forms that they have in every script.  Writers of statements are
  functions on the sheet, as everywhere.
-/
import WasmScript.Host.Node
import WasmScript.Host.ScriptText

namespace WasmScript.HostNode

open HostValue (part listPart?)
open Script (Term)

/-! ### Expressions -/

inductive Written where
  /-- A 32-bit literal, which reads differently as an address. -/
  | literal (value : HostValue)
  /-- A comparison, by its bare condition. -/
  | comparison (condition : String)
  /-- An unsigned address. -/
  | address (text : String)
  | other (text : String)
  /-- Not at all: the node is of no known kind. -/
  | nothing
deriving Inhabited

/-- A literal, in parentheses if it lies below zero. -/
def literalText (value zero : HostValue) (suffix : String) : Except Failure String := do
  let below ← value.lt zero
  let digits := (← value.toText) ++ suffix
  pure (if below then "(" ++ digits ++ ")" else digits)

namespace Written

def text : Written → Except Failure (Option String)
  | .literal value => some <$> literalText value (.ofNat 0) ""
  | .comparison condition => pure (some ("(" ++ condition ++ " ? 1 : 0)"))
  | .address text | .other text => pure (some text)
  | .nothing => pure none

def shown (w : Written) : Except Failure String := (·.getD "undefined") <$> w.text

def condition : Written → Except Failure String
  | .comparison condition => pure condition
  | w => (· ++ " !== 0") <$> w.shown

/-- The text of an expression used as an unsigned address. -/
def asAddress : Written → Except Failure String
  | .literal value => (fun n => toString n.toUInt32) <$> value.toOperand
  | .address text => pure text
  | w => (fun text => "(" ++ text ++ " >>> 0)") <$> w.shown

end Written

/-- A form of two operands that are written already. -/
def formed (form : Term → Term → Except Script.FormError Term) (a b : String) :
    Except Failure String :=
  match form (.variable (.tempVar 0)) (.variable (.tempVar 1)) with
  | .ok t => .ok (t.textWith fun v => if v = .tempVar 0 then a else b)
  | .error e => .error (.thrown e.message)

def operatorOf (op : HostValue) : Except Failure NumericOp := do
  let operand ← op.memberNamed "operand"
  let operator ← op.memberNamed "operator"
  let name ← op.memberNamed "name"
  pure
    { opcode := 0
      name := name.text
      category := .binary
      operator := match operator with
        | .string word => .ofWord word
        | other => .unknown other.text
      operand := if operand.same (.string ValueType.i64.name) then .i64 else .i32
      result := .i32 }

/-- A unary operator on an operand that is written already. -/
def unaryText (op : HostValue) (a : String) : Except Failure String := do
  let name ← op.memberNamed "name"
  let op ← operatorOf op
  formed (fun a _ => Script.unaryForm { op with name := name.text } a) a ""

/-- Texts in a row; one that is missing leaves its place empty. -/
def joined (texts : List (Option String)) : String :=
  ", ".intercalate (texts.map (·.getD ""))

def callText (function : String) (args : List (Option String)) : String :=
  "f" ++ function ++ "(" ++ joined args ++ ")"

mutual
def written : HostValue → Except Failure Written
  | .record fields => do
    let own (key : String) : HostValue := (part fields key).val
    let sub (key : String) : Except Failure String := do (← written (part fields key).val).shown
    match kindOf fields with
    | "Literal" =>
      if (own "type").same (.string ValueType.i32.name) then pure (.literal (own "value"))
      else .other <$> literalText (own "value") (.bigint 0) "n"
    | "LocalRef" => (fun index => .other ("l" ++ index)) <$> (own "index").toText
    | "TempRef" => (fun id => .other ("t" ++ id)) <$> (own "id").toText
    | "GlobalRef" => (fun index => .other ("g" ++ index)) <$> (own "index").toText
    | "LocalTee" => do
      let index ← (own "index").toText
      let value ← sub "value"
      pure (.other ("(l" ++ index ++ " = " ++ value ++ ")"))
    | "UnaryOp" => do
      let a ← sub "operand"
      .other <$> unaryText (own "op") a
    | "BinaryOp" => do
      let a ← sub "left"
      let b ← sub "right"
      let op ← operatorOf (own "op")
      .other <$> formed (Script.binaryForm op) a b
    | "Compare" => do
      let a ← sub "left"
      let b ← sub "right"
      let op ← operatorOf (own "op")
      .comparison <$> formed (Script.comparisonForm op) a b
    | "Select" => do
      let condition ← (← written (part fields "condition").val).condition
      let yes ← sub "ifTrue"
      let no ← sub "ifFalse"
      pure (.other ("(" ++ condition ++ " ? " ++ yes ++ " : " ++ no ++ ")"))
    | "Call" => do
      let function ← (own "funcIndex").toText
      match listPart? fields "args" with
      | some ⟨args, _⟩ => (fun texts => .other (callText function texts)) <$> writtenAll args
      | none => throw ((own "args").noList "args" "map")
    | "EffectiveAddress" => do
      let base ← sub "base"
      let offset := own "offset"
      if offset.isNumber (.ofInt 0) then pure (.address ("(" ++ base ++ " >>> 0)"))
      else
        let offset ← offset.toText
        pure (.address ("((" ++ base ++ " + " ++ offset ++ ") >>> 0)"))
    | "MemoryLoad" => do
      let accessor ← (← (own "access").memberNamed "accessor").toText
      let address ← (← written (part fields "address").val).asAddress
      let load := "memory." ++ accessor ++ "(" ++ address ++ ")"
      pure (.other (if ← isNarrow (own "access") then "BigInt(" ++ load ++ ")" else load))
    | "MemorySize" => pure (.other "memory.pages")
    | "MemoryGrow" => do
      let delta ← sub "delta"
      pure (.other ("memory.grow(" ++ delta ++ ")"))
    | _ => pure .nothing
  | v => do
    let _ ← v.memberNamed "kind"
    pure .nothing
termination_by v => sizeOf v
decreasing_by all_goals first | exact (part _ _).property | assumption

def writtenAll : List HostValue → Except Failure (List (Option String))
  | [] => pure []
  | v :: rest => do
    let text ← (← written v).text
    let texts ← writtenAll rest
    pure (text :: texts)
termination_by vs => sizeOf vs
decreasing_by all_goals simp only [List.cons.sizeOf_spec]; omega
end

def expressionText (v : HostValue) : Except Failure (Option String) := do (← written v).text

def shownText (v : HostValue) : Except Failure String := do (← written v).shown

def conditionText (v : HostValue) : Except Failure String := do (← written v).condition

def addressText (v : HostValue) : Except Failure String := do (← written v).asAddress

/-- The texts of the items of a list, which a complaint calls by a name. -/
def textsOf (what : String) : HostValue → Except Failure (List (Option String))
  | .array items => writtenAll items
  | other => throw (other.noList what "map")

/-- The text of an expression or of a call with any number of results, if it has one. -/
def operandText (v : HostValue) : Except Failure (Option String) := do
  if (← v.memberNamed "kind").same (.string "MultiCall") then
    let function ← (← v.memberNamed "funcIndex").toText
    let args ← textsOf "args" (← v.memberNamed "args")
    pure (some (callText function args))
  else expressionText v

/-! ### Statements -/

abbrev Writing := Sheet → Sheet

/-- The line that a value is used as.  Only what is nothing or the empty text leaves it blank: other
values that read as nothing are lines without text, which have a margin. -/
def lineWriting (v : HostValue) : Except Failure Writing := do
  match v with
  | .undefined | .string "" => pure (Sheet.line "")
  | v => do
    let text := (← v.primitive).text
    pure fun s => { s with reversed := (Sheet.margin s.depth ++ text) :: s.reversed }

/-- Whether a list has a certain number of items. -/
def hasLength (v : HostValue) (n : Nat) : Except Failure Bool := do
  pure ((← v.memberNamed "length").isNumber (.ofInt n))

def hasItems (v : HostValue) : Except Failure Bool := do
  (HostValue.ofNat 0).lt (← v.memberNamed "length")

def namesText (ids : List HostValue) : Except Failure String := do
  let names ← ids.mapM fun id => ("t" ++ ·) <$> id.toText
  pure ("[" ++ ", ".intercalate names ++ "]")

def assignmentText (ids values : HostValue) : Except Failure String := do
  let texts ← textsOf "values" values
  if ← hasLength ids 1 then
    let id ← (← ids.memberNamed "0").toText
    pure ("t" ++ id ++ " = " ++ (texts.head?.getD none).getD "undefined" ++ ";")
  else
    match ids with
    | .array ids => (fun names => names ++ " = [" ++ joined texts ++ "];") <$> namesText ids
    | other => throw (other.noList "ids" "map")

def leaveText (values : HostValue) : Except Failure String := do
  if ← hasLength values 0 then pure "return;"
  else if ← hasLength values 1 then do
    let value ← shownText (← values.memberNamed "0")
    pure ("return " ++ value ++ ";")
  else do
    let texts ← textsOf "values" values
    pure ("return [" ++ joined texts ++ "];")

def leaves (branch : HostValue) : Except Failure Bool := do
  pure ((← branch.memberNamed "mode").same (.string IR.BranchMode.leave.name))

/-- The jump that a branch ends with, if its mode is known. -/
def jumpText (branch : HostValue) : Except Failure (Option String) := do
  let label ← branch.memberNamed "label"
  let labelled (jump : String) : Except Failure (Option String) := do
    pure (some (jump ++ " L" ++ (← label.toText) ++ ";"))
  match ← branch.memberNamed "mode" with
  | .string mode =>
    if mode = IR.BranchMode.leave.name then some <$> leaveText (← branch.memberNamed "values")
    else if mode = IR.BranchMode.restart.name then labelled "continue"
    else if mode = IR.BranchMode.exit.name then labelled "break"
    else pure none
  | _ => pure none

/-- A branch: its values are written to the target's slots, and control is transferred. -/
def branchWriting (branch : HostValue) : Except Failure Writing := do
  let assigns : Writing ←
    if ← leaves branch then pure id
    else do
      let values ← branch.memberNamed "values"
      if ← hasItems values then
        Sheet.line <$> assignmentText (← branch.memberNamed "slots") values
      else pure id
  let jump ← jumpText branch
  pure fun s => (assigns s).line (jump.getD "")

def branchIfWriting (condition : String) (branch : HostValue) : Except Failure Writing := do
  let start := "if (" ++ condition ++ ")"
  let values ← branch.memberNamed "values"
  let short ← if ← hasLength values 0 then pure true else leaves branch
  if short then
    let jump ← jumpText branch
    pure (Sheet.line (start ++ " " ++ jump.getD "undefined"))
  else Sheet.block start <$> branchWriting branch

def sameKey (a b : HostValue) : Bool := a.same b || (a.isNumber .nan && b.isNumber .nan)

/-- The keys of a list without repetition, in the order of first use. -/
def firstUses : List HostValue → List HostValue
  | [] => []
  | key :: rest => key :: (firstUses rest).filter fun other => !sameKey key other

def caseLines (depths : List HostValue) (depth : HostValue) : Writing := fun s =>
  s.each (depths.zipIdx.filter fun d => sameKey d.1 depth) fun d =>
    Sheet.line (Script.caseLine d.2)

/-- The group of cases that branch to a depth; the last branch to it stands for all of them. -/
def groupWriting (targets : List (HostValue × HostValue)) (depth : HostValue) :
    Except Failure Writing := do
  match targets.reverse.find? fun t => sameKey t.1 depth with
  | some (_, branch) =>
    let body ← branchWriting branch
    pure fun s => (caseLines (targets.map Prod.fst) depth s).indent body
  | none => pure id

/-- A branch table.  The cases of a depth stand together, in the order of first use; those of the
depth of the default stand with it. -/
def tableWriting (index targets default : HostValue) : Except Failure Writing := do
  let targets ← match targets with
    | .array items => items.mapM fun branch => do pure (← branch.memberNamed "depth", branch)
    | other => throw (other.noList "statement.targets" "forEach")
  let index ← shownText index
  let last ← default.memberNamed "depth"
  let depths := targets.map Prod.fst
  let groups ← ((firstUses depths).filter fun depth => !depth.same last).mapM (groupWriting targets)
  let body ← branchWriting default
  pure <| Sheet.block ("switch (" ++ index ++ ")") fun s =>
    let s := s.each groups fun group => group
    ((caseLines depths last s).line "default:").indent body

def definitionText (ids value : HostValue) : Except Failure String := do
  match ids with
  | .array ids =>
    let names ← match ids with
      | [id] => ("t" ++ ·) <$> id.toText
      | ids => namesText ids
    let value ← operandText value
    pure ("const " ++ names ++ " = " ++ value.getD "undefined" ++ ";")
  | other => throw (other.noList "statement.ids" "map")

def memoryText (method : String) (args : List String) : String :=
  "memory." ++ method ++ "(" ++ ", ".intercalate args ++ ");"

def storeText (access address value : HostValue) : Except Failure String := do
  let address ← addressText address
  let value ← shownText value
  let value := if ← isNarrow access then "rt.i32WrapI64(" ++ value ++ ")" else value
  pure (memoryText (← (← access.memberNamed "accessor").toText) [address, value])

mutual
/-- What a statement writes; one of no known kind writes nothing. -/
def statement : HostValue → Except Failure Writing
  | .record fields => do
    let own (key : String) : HostValue := (part fields key).val
    let targeted := (own "targeted").truthy
    let label : Except Failure String :=
      if targeted then ("L" ++ ·) <$> (own "label").toText else pure ""
    match kindOf fields with
    | "Block" => do
      let label ← label
      let inner ← body (part fields "body").val
      pure (if targeted then Sheet.block (label ++ ":") inner else inner)
    | "Loop" => do
      let label ← label
      let inner ← body (part fields "body").val
      pure <|
        if targeted then
          Sheet.block (label ++ ": while (true)") fun s => (inner s).line ("break " ++ label ++ ";")
        else inner
    | "If" => do
      let label ← label
      let condition ← conditionText (own "condition")
      let yes ← body (part fields "then").val
      let other ← hasItems (own "else")
      let no ← if other then body (part fields "else").val else pure id
      let start := if targeted then label ++ ": " else ""
      pure fun s =>
        let s := (s.line (start ++ "if (" ++ condition ++ ") \x7b")).indent yes
        let s := if other then (s.line "\x7d else \x7b").indent no else s
        s.line "\x7d"
    | "Branch" => branchWriting (.record fields)
    | "BranchIf" => do
      let condition ← conditionText (own "condition")
      branchIfWriting condition (own "branch")
    | "BranchTable" => tableWriting (own "index") (own "targets") (own "defaultTarget")
    | "Return" => Sheet.line <$> leaveText (own "values")
    | "Unreachable" => pure (Script.Statement.write .unreachable)
    | "LocalSet" => do
      let index ← (own "index").toText
      let value ← shownText (own "value")
      pure (Sheet.line ("l" ++ index ++ " = " ++ value ++ ";"))
    | "GlobalSet" => do
      let index ← (own "index").toText
      let value ← shownText (own "value")
      pure (Sheet.line ("g" ++ index ++ " = " ++ value ++ ";"))
    | "TempDef" => Sheet.line <$> definitionText (own "ids") (own "value")
    | "SlotAssign" => Sheet.line <$> assignmentText (own "ids") (own "values")
    | "MemoryStore" => Sheet.line <$> storeText (own "access") (own "address") (own "value")
    | "MemoryCopy" => do
      let destination ← addressText (own "destination")
      let source ← addressText (own "source")
      let length ← addressText (own "length")
      pure (Sheet.line (memoryText "copy" [destination, source, length]))
    | "MemoryFill" => do
      let destination ← addressText (own "destination")
      let value ← shownText (own "value")
      let length ← addressText (own "length")
      pure (Sheet.line (memoryText "fill" [destination, value, length]))
    | "ExpressionStatement" => do
      let value ← operandText (own "expression")
      pure (Sheet.line (value.getD "undefined" ++ ";"))
    | _ => pure id
  | v => do
    let _ ← v.memberNamed "kind"
    pure id
termination_by v => sizeOf v
decreasing_by all_goals exact (part _ _).property

def body : HostValue → Except Failure Writing
  | .array items => statements items
  | v => do
    let _ ← v.itemsOf "statements"
    pure id
termination_by v => sizeOf v
decreasing_by simp only [HostValue.array.sizeOf_spec]; omega

def statements : List HostValue → Except Failure Writing
  | [] => pure id
  | v :: rest => do
    let first ← statement v
    let others ← statements rest
    pure fun s => others (first s)
termination_by vs => sizeOf vs
decreasing_by all_goals simp only [List.cons.sizeOf_spec]; omega
end

/-! ### Functions -/

def zeroed (name : String) (type : HostValue) : Except Failure String := do
  pure (name ++ " = " ++ (← (← type.zeroText).toText))

/-- A declaration of variables, if there are any. -/
def declaration (texts : List String) : Writing :=
  if texts.isEmpty then id else Sheet.line ("let " ++ ", ".intercalate texts ++ ";")

def listOf (v : HostValue) (what key method : String) : Except Failure (List HostValue) := do
  match ← v.memberNamed key with
  | .array items => pure items
  | other => throw (other.noList (what ++ "." ++ key) method)

def function (f : HostValue) : Except Failure Writing := do
  let params := (List.range (← listOf f "fn" "params" "map").length).map fun i => s!"l{i}"
  let index ← (← f.memberNamed "index").toText
  let comment ← match ← f.memberNamed "name" with
    | .undefined => pure id
    | name => do
      let literal ← name.quoted.mapError .type
      pure (Sheet.line ("// export " ++ literal))
  let types ← listOf f "fn" "locals" "map"
  let locals ← types.zipIdx.mapM fun (type, i) => zeroed s!"l{params.length + i}" type
  let temps ← listOf f "fn" "temps" "filter"
  let kinds ← temps.mapM fun t => t.memberNamed "kind"
  let slots := (temps.zip kinds).filter fun t => t.2.same (.string IR.TempKind.slot.name)
  let slots ← slots.mapM fun (t, _) => do
    let id ← (← t.memberNamed "id").toText
    zeroed ("t" ++ id) (← t.memberNamed "type")
  let inner ← body (← f.memberNamed "body")
  pure <| Sheet.block ("function f" ++ index ++ "(" ++ ", ".intercalate params ++ ")") fun s =>
    inner (declaration slots (declaration locals (comment s)))

end WasmScript.HostNode
