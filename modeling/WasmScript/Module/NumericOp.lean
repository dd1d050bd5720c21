/-
  WasmScript/Module/NumericOp.lean
  ================================
  **Numeric operators** — the table of integer operators by opcode and by name.

  A `NumericOp` says what kind of operator it is, what it takes and what it gives.  The
  table `NumericOp.table` lists the operators of the integer subset in the order of their
  opcodes; `ofOpcode?` and `ofName?` search it.  An operator outside the table can be
  written down as well, under any name, but nothing can be generated for it.
-/
import WasmScript.Module.Basic

namespace WasmScript

inductive NumericCategory where
  | test
  | compare
  | unary
  | binary
  | convert
deriving DecidableEq, Repr, Inhabited

namespace NumericCategory

def all : List NumericCategory := [.test, .compare, .unary, .binary, .convert]

def name : NumericCategory → String
  | .test => "test"
  | .compare => "compare"
  | .unary => "unary"
  | .binary => "binary"
  | .convert => "convert"

end NumericCategory

/-- What an operator computes, without the type it computes on. -/
inductive Operator where
  | eqz
  | eq
  | ne
  | ltS
  | ltU
  | gtS
  | gtU
  | leS
  | leU
  | geS
  | geU
  | clz
  | ctz
  | popcnt
  | add
  | sub
  | mul
  | divS
  | divU
  | remS
  | remU
  | and
  | or
  | xor
  | shl
  | shrS
  | shrU
  | rotl
  | rotr
  | wrapI64
  | extendI32S
  | extendI32U
  | extend8S
  | extend16S
  | extend32S
  /-- A word that names no operator. -/
  | unknown (word : String)
deriving DecidableEq, Repr, Inhabited

namespace Operator

def all : List Operator :=
  [.eqz, .eq, .ne, .ltS, .ltU, .gtS, .gtU, .leS, .leU, .geS, .geU, .clz, .ctz, .popcnt, .add,
   .sub, .mul, .divS, .divU, .remS, .remU, .and, .or, .xor, .shl, .shrS, .shrU, .rotl, .rotr,
   .wrapI64, .extendI32S, .extendI32U, .extend8S, .extend16S, .extend32S]

def word : Operator → String
  | .eqz => "eqz"
  | .eq => "eq"
  | .ne => "ne"
  | .ltS => "lt_s"
  | .ltU => "lt_u"
  | .gtS => "gt_s"
  | .gtU => "gt_u"
  | .leS => "le_s"
  | .leU => "le_u"
  | .geS => "ge_s"
  | .geU => "ge_u"
  | .clz => "clz"
  | .ctz => "ctz"
  | .popcnt => "popcnt"
  | .add => "add"
  | .sub => "sub"
  | .mul => "mul"
  | .divS => "div_s"
  | .divU => "div_u"
  | .remS => "rem_s"
  | .remU => "rem_u"
  | .and => "and"
  | .or => "or"
  | .xor => "xor"
  | .shl => "shl"
  | .shrS => "shr_s"
  | .shrU => "shr_u"
  | .rotl => "rotl"
  | .rotr => "rotr"
  | .wrapI64 => "wrap_i64"
  | .extendI32S => "extend_i32_s"
  | .extendI32U => "extend_i32_u"
  | .extend8S => "extend8_s"
  | .extend16S => "extend16_s"
  | .extend32S => "extend32_s"
  | .unknown word => word

def ofWord (word : String) : Operator :=
  (all.find? fun o => o.word == word).getD (.unknown word)

/-- Whether an operator may trap: a division or a remainder. -/
def traps : Operator → Bool
  | .divS | .divU | .remS | .remU => true
  | .unknown word => "div_".isPrefixOf word || "rem_".isPrefixOf word
  | _ => false

end Operator

structure NumericOp where
  opcode : Nat
  name : String
  category : NumericCategory
  operator : Operator
  operand : ValueType
  result : ValueType
deriving DecidableEq, Repr, Inhabited

namespace NumericOp

/-- The integer operators, in the order of their opcodes. -/
def table : List NumericOp :=
  [⟨0x45, "i32.eqz", .test, .eqz, .i32, .i32⟩,
   ⟨0x46, "i32.eq", .compare, .eq, .i32, .i32⟩,
   ⟨0x47, "i32.ne", .compare, .ne, .i32, .i32⟩,
   ⟨0x48, "i32.lt_s", .compare, .ltS, .i32, .i32⟩,
   ⟨0x49, "i32.lt_u", .compare, .ltU, .i32, .i32⟩,
   ⟨0x4a, "i32.gt_s", .compare, .gtS, .i32, .i32⟩,
   ⟨0x4b, "i32.gt_u", .compare, .gtU, .i32, .i32⟩,
   ⟨0x4c, "i32.le_s", .compare, .leS, .i32, .i32⟩,
   ⟨0x4d, "i32.le_u", .compare, .leU, .i32, .i32⟩,
   ⟨0x4e, "i32.ge_s", .compare, .geS, .i32, .i32⟩,
   ⟨0x4f, "i32.ge_u", .compare, .geU, .i32, .i32⟩,
   ⟨0x50, "i64.eqz", .test, .eqz, .i64, .i32⟩,
   ⟨0x51, "i64.eq", .compare, .eq, .i64, .i32⟩,
   ⟨0x52, "i64.ne", .compare, .ne, .i64, .i32⟩,
   ⟨0x53, "i64.lt_s", .compare, .ltS, .i64, .i32⟩,
   ⟨0x54, "i64.lt_u", .compare, .ltU, .i64, .i32⟩,
   ⟨0x55, "i64.gt_s", .compare, .gtS, .i64, .i32⟩,
   ⟨0x56, "i64.gt_u", .compare, .gtU, .i64, .i32⟩,
   ⟨0x57, "i64.le_s", .compare, .leS, .i64, .i32⟩,
   ⟨0x58, "i64.le_u", .compare, .leU, .i64, .i32⟩,
   ⟨0x59, "i64.ge_s", .compare, .geS, .i64, .i32⟩,
   ⟨0x5a, "i64.ge_u", .compare, .geU, .i64, .i32⟩,
   ⟨0x67, "i32.clz", .unary, .clz, .i32, .i32⟩,
   ⟨0x68, "i32.ctz", .unary, .ctz, .i32, .i32⟩,
   ⟨0x69, "i32.popcnt", .unary, .popcnt, .i32, .i32⟩,
   ⟨0x6a, "i32.add", .binary, .add, .i32, .i32⟩,
   ⟨0x6b, "i32.sub", .binary, .sub, .i32, .i32⟩,
   ⟨0x6c, "i32.mul", .binary, .mul, .i32, .i32⟩,
   ⟨0x6d, "i32.div_s", .binary, .divS, .i32, .i32⟩,
   ⟨0x6e, "i32.div_u", .binary, .divU, .i32, .i32⟩,
   ⟨0x6f, "i32.rem_s", .binary, .remS, .i32, .i32⟩,
   ⟨0x70, "i32.rem_u", .binary, .remU, .i32, .i32⟩,
   ⟨0x71, "i32.and", .binary, .and, .i32, .i32⟩,
   ⟨0x72, "i32.or", .binary, .or, .i32, .i32⟩,
   ⟨0x73, "i32.xor", .binary, .xor, .i32, .i32⟩,
   ⟨0x74, "i32.shl", .binary, .shl, .i32, .i32⟩,
   ⟨0x75, "i32.shr_s", .binary, .shrS, .i32, .i32⟩,
   ⟨0x76, "i32.shr_u", .binary, .shrU, .i32, .i32⟩,
   ⟨0x77, "i32.rotl", .binary, .rotl, .i32, .i32⟩,
   ⟨0x78, "i32.rotr", .binary, .rotr, .i32, .i32⟩,
   ⟨0x79, "i64.clz", .unary, .clz, .i64, .i64⟩,
   ⟨0x7a, "i64.ctz", .unary, .ctz, .i64, .i64⟩,
   ⟨0x7b, "i64.popcnt", .unary, .popcnt, .i64, .i64⟩,
   ⟨0x7c, "i64.add", .binary, .add, .i64, .i64⟩,
   ⟨0x7d, "i64.sub", .binary, .sub, .i64, .i64⟩,
   ⟨0x7e, "i64.mul", .binary, .mul, .i64, .i64⟩,
   ⟨0x7f, "i64.div_s", .binary, .divS, .i64, .i64⟩,
   ⟨0x80, "i64.div_u", .binary, .divU, .i64, .i64⟩,
   ⟨0x81, "i64.rem_s", .binary, .remS, .i64, .i64⟩,
   ⟨0x82, "i64.rem_u", .binary, .remU, .i64, .i64⟩,
   ⟨0x83, "i64.and", .binary, .and, .i64, .i64⟩,
   ⟨0x84, "i64.or", .binary, .or, .i64, .i64⟩,
   ⟨0x85, "i64.xor", .binary, .xor, .i64, .i64⟩,
   ⟨0x86, "i64.shl", .binary, .shl, .i64, .i64⟩,
   ⟨0x87, "i64.shr_s", .binary, .shrS, .i64, .i64⟩,
   ⟨0x88, "i64.shr_u", .binary, .shrU, .i64, .i64⟩,
   ⟨0x89, "i64.rotl", .binary, .rotl, .i64, .i64⟩,
   ⟨0x8a, "i64.rotr", .binary, .rotr, .i64, .i64⟩,
   ⟨0xa7, "i32.wrap_i64", .convert, .wrapI64, .i64, .i32⟩,
   ⟨0xac, "i64.extend_i32_s", .convert, .extendI32S, .i32, .i64⟩,
   ⟨0xad, "i64.extend_i32_u", .convert, .extendI32U, .i32, .i64⟩,
   ⟨0xc0, "i32.extend8_s", .unary, .extend8S, .i32, .i32⟩,
   ⟨0xc1, "i32.extend16_s", .unary, .extend16S, .i32, .i32⟩,
   ⟨0xc2, "i64.extend8_s", .unary, .extend8S, .i64, .i64⟩,
   ⟨0xc3, "i64.extend16_s", .unary, .extend16S, .i64, .i64⟩,
   ⟨0xc4, "i64.extend32_s", .unary, .extend32S, .i64, .i64⟩]

def ofOpcode? (opcode : Nat) : Option NumericOp := table.find? fun op => op.opcode == opcode

def ofName? (name : String) : Option NumericOp := table.find? fun op => op.name == name

/-- There is no operator with a name. -/
structure Unknown where
  name : String
deriving DecidableEq, Repr, Inhabited

def Unknown.message (e : Unknown) : String := "Unknown numeric operator: " ++ e.name

/-- The operator with a name, which must be in the table. -/
def ofName (name : String) : Except Unknown NumericOp :=
  match ofName? name with
  | some op => .ok op
  | none => .error ⟨name⟩

end NumericOp

end WasmScript
