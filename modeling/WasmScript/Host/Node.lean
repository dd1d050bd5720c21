/-
  WasmScript/Host/Node.lean
  =========================
  **Nodes as objects** — the nodes of structured bodies as a host has them: objects that
  say under `kind` what they are and hold everything else under names.

  What an object holds is smaller than the object (`HostValue.part`), so that questions
  about a node are answered by recursion on its size.  A host may hold anything there, and
  whether a part is one that makes sense shows only where it is used.

  Operators and accesses are objects themselves, and a host writes their names instead:
  `resolve` puts the objects where the names are, and `abbreviate` the names back.
-/
import WasmScript.Host.Convert
import WasmScript.IR.FromHost

namespace WasmScript

/-! ### Parts of objects -/

namespace HostValue

/-- What an object itself has under a name, which is smaller than the object. -/
def part (fields : List (String × HostValue)) (key : String) :
    { v : HostValue // sizeOf v < sizeOf (HostValue.record fields) } :=
  match h : fields.find? fun f => f.1 == key with
  | some f => ⟨f.2, by
      have inside := List.sizeOf_lt_of_mem (List.mem_of_find?_eq_some h)
      obtain ⟨name, v⟩ := f
      simp only [Prod.mk.sizeOf_spec] at inside
      simp only [record.sizeOf_spec]
      omega⟩
  | none => ⟨.undefined, by
      have : 0 < sizeOf fields := by
        cases fields with
        | nil => simp
        | cons => simp only [List.cons.sizeOf_spec]; omega
      simp only [undefined.sizeOf_spec, record.sizeOf_spec]
      omega⟩

/-- The items of the list that an object has under a name, if there is a list. -/
def listPart? (fields : List (String × HostValue)) (key : String) :
    Option { items : List HostValue // sizeOf items < sizeOf (HostValue.record fields) } :=
  match part fields key with
  | ⟨.array items, h⟩ => some ⟨items, by simp only [array.sizeOf_spec] at h; omega⟩
  | _ => none

/-- The value if it counts as true, and else the other one. -/
def or (v other : HostValue) : HostValue := if v.truthy then v else other

/-- The complaint that a value cannot do what lists do. -/
def noList (what method : String) : HostValue → Failure
  | .undefined => .type (.noMembers "undefined" method)
  | .null => .type (.noMembers "null" method)
  | _ => .type (.notFunction (what ++ "." ++ method))

end HostValue

/-! ### Operators and accesses -/

def NumericOp.toHost (op : NumericOp) : HostValue :=
  .record [("opcode", .ofNat op.opcode), ("name", .string op.name),
    ("category", .string op.category.name), ("operator", .string op.operator.word),
    ("operand", .string op.operand.name), ("result", .string op.result.name)]

def Access.toHost (a : Access) : HostValue :=
  .record [("opcode", .ofNat a.opcode.byte), ("name", .string a.name), ("store", .bool a.isStore),
    ("width", .ofNat a.width), ("extension", .string a.extension.name),
    ("type", .string a.type.name), ("accessor", .string a.accessor.name)]

namespace HostNode

open HostValue (part)

/-- The access that a name stands for, which is nothing if there is none; anything else stands for
itself. -/
def accessNamed : HostValue → HostValue
  | .string name => (Access.ofName? name).elim .undefined Access.toHost
  | v => v

/-- The object that a name stands for where an operator or an access belongs, if it is a name. -/
def named? (key : String) : HostValue → Option (Except NumericOp.Unknown HostValue)
  | .string name =>
    if key = "op" then some (NumericOp.toHost <$> NumericOp.ofName name)
    else if key = "access" then some (.ok (accessNamed (.string name)))
    else none
  | _ => none

mutual
/-- A value with the operators and accesses in the place of their names. -/
def resolve : HostValue → Except NumericOp.Unknown HostValue
  | .array items => .array <$> resolveItems items
  | .record fields => .record <$> resolveFields fields
  | v => .ok v

/-- Items with the operators and accesses in the place of their names. -/
def resolveItems : List HostValue → Except NumericOp.Unknown (List HostValue)
  | [] => .ok []
  | item :: rest => do
    let item ← resolve item
    let rest ← resolveItems rest
    pure (item :: rest)

/-- Fields with the operators and accesses in the place of their names. -/
def resolveFields :
    List (String × HostValue) → Except NumericOp.Unknown (List (String × HostValue))
  | [] => .ok []
  | (key, v) :: rest => do
    let v ← (named? key v).getD (resolve v)
    let rest ← resolveFields rest
    pure ((key, v) :: rest)
end

/-- The name of what stands where an operator or an access belongs. -/
def nameOf (key : String) : HostValue → Option HostValue
  | .record fields => if key = "op" ∨ key = "access" then some (part fields "name").val else none
  | _ => none

mutual
/-- A value with the names in the place of operators and accesses. -/
def abbreviate : HostValue → HostValue
  | .array items => .array (abbreviateItems items)
  | .record fields => .record (abbreviateFields fields)
  | v => v

/-- Items with the names in the place of operators and accesses. -/
def abbreviateItems : List HostValue → List HostValue
  | [] => []
  | item :: rest => abbreviate item :: abbreviateItems rest

/-- Fields with the names in the place of operators and accesses. -/
def abbreviateFields : List (String × HostValue) → List (String × HostValue)
  | [] => []
  | (key, v) :: rest => (key, (nameOf key v).getD (abbreviate v)) :: abbreviateFields rest
end

/-! ### Questions about nodes -/

def node (kind : String) (fields : List (String × HostValue)) : HostValue :=
  .record (("kind", .string kind) :: fields)

/-- The literal of a type, where every type but the one of 32 bits counts as that of 64 bits. -/
def literal (type v : HostValue) : Except Failure HostValue := do
  let width : ValueType := if type.same (.string ValueType.i32.name) then .i32 else .i64
  let value ← IR.constantOf width v
  pure (node "Literal" [("type", type), ("value", .ofValue value)])

/-- The kind of an object; none if it does not say. -/
def kindOf (fields : List (String × HostValue)) : String :=
  match (part fields "kind").val with
  | .string kind => kind
  | _ => ""

/-- Whether an operator may trap, by its word. -/
def traps (op : HostValue) : Except Failure Bool := do
  match ← op.memberNamed "operator" with
  | .string word => pure (Operator.ofWord word).traps
  | other => throw (other.noList "op.operator" "startsWith")

/-- Whether an access takes a 64-bit value through fewer bytes. -/
def isNarrow (access : HostValue) : Except Failure Bool := do
  if (← access.memberNamed "type").same (.string ValueType.i64.name) then
    (← access.memberNamed "width").lt (.ofNat 8)
  else pure false

/-- Whether evaluating an expression may trap or change state; nothing if it is of no known kind. -/
def hasEffects : HostValue → Except Failure HostValue
  | .record fields =>
    match kindOf fields with
    | "Literal" | "LocalRef" | "TempRef" | "GlobalRef" | "MemorySize" => pure (.bool false)
    | "Call" | "LocalTee" | "MemoryGrow" | "MemoryLoad" => pure (.bool true)
    | "UnaryOp" => hasEffects (part fields "operand").val
    | "BinaryOp" => do
      if ← traps (part fields "op").val then return .bool true
      let left ← hasEffects (part fields "left").val
      if left.truthy then pure left else hasEffects (part fields "right").val
    | "Compare" => do
      let left ← hasEffects (part fields "left").val
      if left.truthy then pure left else hasEffects (part fields "right").val
    | "Select" => do
      let condition ← hasEffects (part fields "condition").val
      if condition.truthy then return condition
      let yes ← hasEffects (part fields "ifTrue").val
      if yes.truthy then pure yes else hasEffects (part fields "ifFalse").val
    | "EffectiveAddress" => hasEffects (part fields "base").val
    | _ => pure .undefined
  | v => do
    let _ ← v.memberNamed "kind"
    pure .undefined
termination_by v => sizeOf v
decreasing_by all_goals exact (part _ _).property

/-! ### Accesses from an address -/

def isLiteral32 (v : HostValue) : Except Failure Bool := do
  if (← v.memberNamed "kind").same (.string "Literal") then
    pure ((← v.memberNamed "type").same (.string ValueType.i32.name))
  else pure false

/-- The address of an access.  A literal base is folded into a literal address. -/
def effectiveAddress (base offset : HostValue) : Except Failure HostValue := do
  let type := ("type", HostValue.string ValueType.i32.name)
  if ← isLiteral32 base then
    let sum ← (← (← base.memberNamed "value").plus offset).toOperand
    pure (node "Literal" [type, ("value", .number (.ofInt sum.toInt32))])
  else pure (node "EffectiveAddress" [type, ("base", base), ("offset", offset)])

def loadOf (opcode arg base : HostValue) : Except Failure HostValue := do
  let access ← IR.accessOf opcode
  if access.isStore then throw (.thrown (IR.AccessError.notLoad access).message)
  let address ← effectiveAddress base (← arg.memberNamed "offset")
  pure (node "MemoryLoad" [("type", .string access.type.name), ("access", access.toHost),
    ("address", address)])

def storeOf (opcode arg base value : HostValue) : Except Failure HostValue := do
  let access ← IR.accessOf opcode
  if !access.isStore then throw (.thrown (IR.AccessError.notStore access).message)
  let address ← effectiveAddress base (← arg.memberNamed "offset")
  pure (node "MemoryStore" [("access", access.toHost), ("address", address), ("value", value)])

end HostNode

end WasmScript
