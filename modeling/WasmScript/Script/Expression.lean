/-
  WasmScript/Script/Expression.lean
  =================================
  **Script expressions** — the expressions that generated scripts consist of, and how
  each wasm operator is written with them.

  A script expression is a tree of script operators in which parentheses are nodes of
  their own, so that printing only joins texts.  The forms of the wasm operators put
  parentheses around every operator that does not fill an argument of a call.  A 32-bit
  value is a signed number and a 64-bit value a signed big integer; a form brings its
  result back into that shape.
-/
import WasmScript.IR.Basic
import WasmScript.Script.Helper

namespace WasmScript.Script

open WasmScript.IR (Expression Operand)

inductive Variable where
  | localVar (index : Nat)
  | tempVar (id : Nat)
  | globalVar (index : Nat)
deriving DecidableEq, Repr, Inhabited

/-- A binary operator of the script language. -/
inductive Symbol where
  | plus
  | minus
  | times
  | and
  | or
  | xor
  | shl
  | shr
  | ushr
  | equal
  | unequal
  | less
  | greater
  | lessEqual
  | greaterEqual
deriving DecidableEq, Repr

namespace Symbol

def text : Symbol → String
  | .plus => "+"
  | .minus => "-"
  | .times => "*"
  | .and => "&"
  | .or => "|"
  | .xor => "^"
  | .shl => "<<"
  | .shr => ">>"
  | .ushr => ">>>"
  | .equal => "==="
  | .unequal => "!=="
  | .less => "<"
  | .greater => ">"
  | .lessEqual => "<="
  | .greaterEqual => ">="

end Symbol

inductive Callee where
  /-- A function of the module. -/
  | function (index : Nat)
  | helper (helper : Helper)
  /-- The product of two numbers, modulo 2^32. -/
  | imul
  /-- The zeros above the highest one of a number. -/
  | clz32
  /-- The big integer of a number. -/
  | bigInt
  /-- The signed integer with the low bits of a big integer. -/
  | asIntN
  /-- The unsigned integer with the low bits of a big integer. -/
  | asUintN
  | access (accessor : Accessor)
  | memoryGrow
  | memoryCopy
  | memoryFill
deriving DecidableEq, Repr

def functionName (index : Nat) : String := s!"f{index}"

namespace Callee

def text : Callee → String
  | .function index => functionName index
  | .helper h => "rt." ++ h.name
  | .imul => "Math.imul"
  | .clz32 => "Math.clz32"
  | .bigInt => "BigInt"
  | .asIntN => "BigInt.asIntN"
  | .asUintN => "BigInt.asUintN"
  | .access accessor => "memory." ++ accessor.name
  | .memoryGrow => "memory.grow"
  | .memoryCopy => "memory.copy"
  | .memoryFill => "memory.fill"

end Callee

inductive Term where
  | variable (v : Variable)
  | memoryPages
  | number (n : Int)
  | bigInteger (n : Int)
  | parens (inner : Term)
  | binary (symbol : Symbol) (left right : Term)
  | conditional (condition yes no : Term)
  | assign (v : Variable) (value : Term)
  | call (callee : Callee) (args : List Term)
deriving Repr, Inhabited

namespace Variable

def text : Variable → String
  | .localVar index => s!"l{index}"
  | .tempVar id => s!"t{id}"
  | .globalVar index => s!"g{index}"

end Variable

namespace Term

/-- A literal, in parentheses if it has a sign. -/
def literalText (n : Int) (suffix : String) : String :=
  let digits := toString n ++ suffix
  if n < 0 then "(" ++ digits ++ ")" else digits

mutual
/-- The text of an expression, its variables having certain names. -/
def textWith (name : Variable → String) : Term → String
  | .variable v => name v
  | .memoryPages => "memory.pages"
  | .number n => literalText n ""
  | .bigInteger n => literalText n "n"
  | .parens inner => "(" ++ textWith name inner ++ ")"
  | .binary symbol left right =>
    textWith name left ++ " " ++ symbol.text ++ " " ++ textWith name right
  | .conditional condition yes no =>
    textWith name condition ++ " ? " ++ textWith name yes ++ " : " ++ textWith name no
  | .assign v value => name v ++ " = " ++ textWith name value
  | .call callee args => callee.text ++ "(" ++ ", ".intercalate (textsWith name args) ++ ")"

def textsWith (name : Variable → String) : List Term → List String
  | [] => []
  | t :: ts => textWith name t :: textsWith name ts
end

def text (t : Term) : String := t.textWith Variable.text

def texts (ts : List Term) : List String := textsWith Variable.text ts

/-! ### Shapes -/

def group (symbol : Symbol) (left right : Term) : Term := .parens (.binary symbol left right)

/-- A number brought into the signed 32-bit range. -/
def toSigned32 (t : Term) : Term := group .or t (.number 0)

/-- A number brought into the unsigned 32-bit range. -/
def toUnsigned32 (t : Term) : Term := group .ushr t (.number 0)

/-- A big integer brought into a signed range. -/
def toSigned (width : Int) (t : Term) : Term := .call .asIntN [.number width, t]

/-- A big integer brought into the unsigned 64-bit range. -/
def toUnsigned64 (t : Term) : Term := .call .asUintN [.number 64, t]

def help (helper : Helper) (args : List Term) : Term := .call (.helper helper) args

/-- A shift count, reduced modulo the width. -/
def count32 (t : Term) : Term := group .and t (.number 31)

/-- A shift count, reduced modulo the width. -/
def count64 (t : Term) : Term := group .and t (.bigInteger 63)

end Term

/-! ### Forms of the operators -/

/-- Why nothing can be generated for an operator. -/
inductive FormError where
  | comparison (name : String)
  | binary (type : ValueType) (word : String)
  | unary (name : String)
deriving DecidableEq, Repr

namespace FormError

def message : FormError → String
  | .comparison name => "Unknown comparison " ++ name
  | .binary type word => s!"Unknown {type} operator {word}"
  | .unary name => "Unknown unary operator " ++ name

end FormError

open WasmScript.Script.Term

def unsignedForm (type : ValueType) (t : Term) : Term :=
  match type with
  | .i32 => toUnsigned32 t
  | .i64 => toUnsigned64 t

def comparisonForm (op : NumericOp) (a b : Term) : Except FormError Term :=
  let unsigned (symbol : Symbol) : Term :=
    .binary symbol (unsignedForm op.operand a) (unsignedForm op.operand b)
  match op.operator with
  | .eqz | .eq => .ok (.binary .equal a b)
  | .ne => .ok (.binary .unequal a b)
  | .ltS => .ok (.binary .less a b)
  | .gtS => .ok (.binary .greater a b)
  | .leS => .ok (.binary .lessEqual a b)
  | .geS => .ok (.binary .greaterEqual a b)
  | .ltU => .ok (unsigned .less)
  | .gtU => .ok (unsigned .greater)
  | .leU => .ok (unsigned .lessEqual)
  | .geU => .ok (unsigned .greaterEqual)
  | _ => .error (.comparison op.name)

def binaryForm32 (operator : Operator) (a b : Term) : Except FormError Term :=
  match operator with
  | .add => .ok (toSigned32 (group .plus a b))
  | .sub => .ok (toSigned32 (group .minus a b))
  | .mul => .ok (.call .imul [a, b])
  | .divS => .ok (help .i32DivS [a, b])
  | .divU => .ok (help .i32DivU [a, b])
  | .remS => .ok (help .i32RemS [a, b])
  | .remU => .ok (help .i32RemU [a, b])
  | .and => .ok (group .and a b)
  | .or => .ok (group .or a b)
  | .xor => .ok (group .xor a b)
  | .shl => .ok (group .shl a (count32 b))
  | .shrS => .ok (group .shr a (count32 b))
  | .shrU => .ok (toSigned32 (group .ushr a (count32 b)))
  | .rotl => .ok (help .i32Rotl [a, b])
  | .rotr => .ok (help .i32Rotr [a, b])
  | other => .error (.binary .i32 other.word)

def binaryForm64 (operator : Operator) (a b : Term) : Except FormError Term :=
  match operator with
  | .add => .ok (toSigned 64 (.binary .plus a b))
  | .sub => .ok (toSigned 64 (.binary .minus a b))
  | .mul => .ok (toSigned 64 (.binary .times a b))
  | .divS => .ok (help .i64DivS [a, b])
  | .divU => .ok (help .i64DivU [a, b])
  | .remS => .ok (help .i64RemS [a, b])
  | .remU => .ok (help .i64RemU [a, b])
  | .and => .ok (group .and a b)
  | .or => .ok (group .or a b)
  | .xor => .ok (group .xor a b)
  | .shl => .ok (toSigned 64 (.binary .shl a (count64 b)))
  | .shrS => .ok (group .shr a (count64 b))
  | .shrU => .ok (toSigned 64 (.binary .shr (toUnsigned64 a) (count64 b)))
  | .rotl => .ok (help .i64Rotl [a, b])
  | .rotr => .ok (help .i64Rotr [a, b])
  | other => .error (.binary .i64 other.word)

def binaryForm (op : NumericOp) (a b : Term) : Except FormError Term :=
  match op.operand with
  | .i32 => binaryForm32 op.operator a b
  | .i64 => binaryForm64 op.operator a b

/-- A sign extension of the low bits of a 32-bit value, by shifting them up and down again. -/
def extend32 (places : Int) (a : Term) : Term :=
  group .shr (group .shl a (.number places)) (.number places)

def unaryForm (op : NumericOp) (a : Term) : Except FormError Term :=
  match op.name with
  | "i32.clz" => .ok (.call .clz32 [a])
  | "i32.ctz" => .ok (help .i32Ctz [a])
  | "i32.popcnt" => .ok (help .i32Popcnt [a])
  | "i64.clz" => .ok (help .i64Clz [a])
  | "i64.ctz" => .ok (help .i64Ctz [a])
  | "i64.popcnt" => .ok (help .i64Popcnt [a])
  | "i32.extend8_s" => .ok (extend32 24 a)
  | "i32.extend16_s" => .ok (extend32 16 a)
  | "i64.extend8_s" => .ok (toSigned 8 a)
  | "i64.extend16_s" => .ok (toSigned 16 a)
  | "i64.extend32_s" => .ok (toSigned 32 a)
  | "i32.wrap_i64" => .ok (help .i32WrapI64 [a])
  | "i64.extend_i32_s" => .ok (.call .bigInt [a])
  | "i64.extend_i32_u" => .ok (.call .bigInt [.binary .ushr a (.number 0)])
  | name => .error (.unary name)

/-! ### Expressions of a body -/

/-- An unsigned address.  A literal one is folded; any other is reduced modulo 2^32. -/
def addressForm (base : Term) (offset : Nat) : Term :=
  if offset = 0 then toUnsigned32 base
  else toUnsigned32 (group .plus base (.number offset))

/-- An expression used as a condition.  A comparison is used without its values of 1 and 0;
anything else is compared with zero. -/
def asCondition : Expression → Term → Term
  | .compare .., .parens (.conditional condition _ _) => condition
  | _, t => .binary .unequal t (.number 0)

/-- An expression used as an unsigned address.  A literal is folded. -/
def asAddress : Expression → Term → Term
  | .literal (.i32 n), _ => .number (Bits.unsigned32 n)
  | .address .., t => t
  | _, t => toUnsigned32 t

mutual
def ofExpression : Expression → Except FormError Term
  | .literal (.i32 n) => .ok (.number n)
  | .literal (.i64 n) => .ok (.bigInteger n)
  | .localRef _ index => .ok (.variable (.localVar index))
  | .tempRef _ id => .ok (.variable (.tempVar id))
  | .globalRef _ index => .ok (.variable (.globalVar index))
  | .tee _ index value => do
    let t ← ofExpression value
    pure (.parens (.assign (.localVar index) t))
  | .unary _ op operand => do
    let a ← ofExpression operand
    unaryForm op a
  | .binary _ op left right => do
    let a ← ofExpression left
    let b ← ofExpression right
    binaryForm op a b
  | .compare op left right => do
    let a ← ofExpression left
    let b ← ofExpression right
    let condition ← comparisonForm op a b
    pure (.parens (.conditional condition (.number 1) (.number 0)))
  | .select _ condition ifTrue ifFalse => do
    let c ← ofExpression condition
    let yes ← ofExpression ifTrue
    let no ← ofExpression ifFalse
    pure (.parens (.conditional (asCondition condition c) yes no))
  | .call _ function args => do
    let ts ← ofExpressions args
    pure (.call (.function function) ts)
  | .address base offset => do
    let t ← ofExpression base
    pure (addressForm t offset)
  | .load access address => do
    let t ← ofExpression address
    let value : Term := .call (.access access.accessor) [asAddress address t]
    pure (if access.isNarrowI64 then .call .bigInt [value] else value)
  | .memorySize => .ok .memoryPages
  | .memoryGrow delta => do
    let t ← ofExpression delta
    pure (.call .memoryGrow [t])

def ofExpressions : List Expression → Except FormError (List Term)
  | [] => .ok []
  | e :: es => do
    let t ← ofExpression e
    let ts ← ofExpressions es
    pure (t :: ts)
end

def ofCondition (e : Expression) : Except FormError Term := asCondition e <$> ofExpression e

def ofAddress (e : Expression) : Except FormError Term := asAddress e <$> ofExpression e

def ofOperand : Operand → Except FormError Term
  | .single value => ofExpression value
  | .multi function args _ => do
    let ts ← ofExpressions args
    pure (.call (.function function) ts)

end WasmScript.Script
