/-
  WasmScript/Host/Body.lean
  =========================
  **Bodies as objects** — what a host gets of structured bodies.

  Every node becomes an object that says under `kind` what it is.  Operators and accesses
  are written by their names.
-/
import WasmScript.Host.Node

namespace WasmScript

open HostNode (node)

def HostValue.ofList {α : Type} (view : α → HostValue) (items : List α) : HostValue :=
  .array (items.map view)

def ValueType.toHost (t : ValueType) : HostValue := .string t.name

def HostValue.ofInt (n : Int) : HostValue := .number (.ofInt n)

def HostValue.ofOption {α : Type} (view : α → HostValue) (a : Option α) : HostValue :=
  a.elim .undefined view

namespace IR

open HostValue (ofList ofOption)

namespace Expression

def typed (kind : String) (t : ValueType) (fields : List (String × HostValue)) : HostValue :=
  node kind (("type", t.toHost) :: fields)

mutual
def toHost : Expression → HostValue
  | .literal v => typed "Literal" v.type [("value", .ofValue v)]
  | .localRef t index => typed "LocalRef" t [("index", .ofNat index)]
  | .tempRef t id => typed "TempRef" t [("id", .ofNat id)]
  | .globalRef t index => typed "GlobalRef" t [("index", .ofNat index)]
  | .unary t op operand => typed "UnaryOp" t [("op", .string op.name), ("operand", operand.toHost)]
  | .binary t op left right =>
    typed "BinaryOp" t [("op", .string op.name), ("left", left.toHost), ("right", right.toHost)]
  | .compare op left right =>
    typed "Compare" .i32 [("op", .string op.name), ("left", left.toHost), ("right", right.toHost)]
  | .select t condition ifTrue ifFalse =>
    typed "Select" t [("condition", condition.toHost), ("ifTrue", ifTrue.toHost),
      ("ifFalse", ifFalse.toHost)]
  | .call t function args =>
    typed "Call" t [("funcIndex", .ofNat function), ("args", .array (listToHost args))]
  | .tee t index value => typed "LocalTee" t [("index", .ofNat index), ("value", value.toHost)]
  | .address base offset =>
    typed "EffectiveAddress" .i32 [("base", base.toHost), ("offset", .ofNat offset)]
  | .load access place =>
    typed "MemoryLoad" access.type [("access", .string access.name), ("address", place.toHost)]
  | .memorySize => typed "MemorySize" .i32 []
  | .memoryGrow delta => typed "MemoryGrow" .i32 [("delta", delta.toHost)]

def listToHost : List Expression → List HostValue
  | [] => []
  | e :: es => e.toHost :: listToHost es
end

end Expression

def Operand.toHost : Operand → HostValue
  | .single value => value.toHost
  | .multi function args types =>
    node "MultiCall" [("funcIndex", .ofNat function), ("args", ofList Expression.toHost args),
      ("types", ofList ValueType.toHost types)]

def Branch.toHost (b : Branch) : HostValue :=
  node "Branch"
      [("depth", .ofNat b.depth), ("label", .ofInt b.label), ("mode", .string b.mode.name),
    ("slots", ofList .ofNat b.slots), ("values", ofList Expression.toHost b.values)]

namespace Statement

def labelled (kind : String) (label : Int) (targeted : Bool) (fields : List (String × HostValue)) :
    HostValue :=
  node kind ([("label", .ofInt label), ("targeted", .bool targeted)] ++ fields)

mutual
def toHost : Statement → HostValue
  | .block label targeted body =>
    labelled "Block" label targeted [("body", .array (listToHost body))]
  | .loop label targeted body => labelled "Loop" label targeted [("body", .array (listToHost body))]
  | .conditional label targeted condition yes no =>
    labelled "If" label targeted [("condition", condition.toHost),
      ("then", .array (listToHost yes)), ("else", .array (listToHost no))]
  | .branch b => b.toHost
  | .branchIf condition b =>
    node "BranchIf" [("condition", condition.toHost), ("branch", b.toHost)]
  | .branchTable index targets default =>
    node "BranchTable" [("index", index.toHost), ("targets", ofList Branch.toHost targets),
      ("defaultTarget", default.toHost)]
  | .leave values => node "Return" [("values", ofList Expression.toHost values)]
  | .unreachable => node "Unreachable" []
  | .localSet index value =>
    node "LocalSet" [("index", .ofNat index), ("value", value.toHost)]
  | .globalSet index value =>
    node "GlobalSet" [("index", .ofNat index), ("value", value.toHost)]
  | .define ids value =>
    node "TempDef" [("ids", ofList .ofNat ids), ("value", value.toHost)]
  | .assign ids values =>
    node "SlotAssign" [("ids", ofList .ofNat ids), ("values", ofList Expression.toHost values)]
  | .store access address value =>
    node "MemoryStore" [("access", .string access.name), ("address", address.toHost),
      ("value", value.toHost)]
  | .memoryCopy destination source length =>
    node "MemoryCopy" [("destination", destination.toHost), ("source", source.toHost),
      ("length", length.toHost)]
  | .memoryFill destination value length =>
    node "MemoryFill" [("destination", destination.toHost), ("value", value.toHost),
      ("length", length.toHost)]
  | .evaluate value => node "ExpressionStatement" [("expression", value.toHost)]

def listToHost : List Statement → List HostValue
  | [] => []
  | s :: ss => s.toHost :: listToHost ss
end

end Statement

def Temp.toHost (t : Temp) : HostValue :=
  node t.kind.name [("id", .ofNat t.id), ("type", t.type.toHost)]

def Function.toHost (f : Function) : HostValue :=
  .record
    [("index", .ofNat f.index), ("name", ofOption .string f.name),
     ("params", ofList ValueType.toHost f.params), ("results", ofList ValueType.toHost f.results),
     ("locals", ofList ValueType.toHost f.locals), ("temps", ofList Temp.toHost f.temps),
     ("body", ofList Statement.toHost f.body)]

end IR

end WasmScript
