/-
  WasmScript/Module/Opcode.lean
  =============================
  **Opcodes** — the first bytes of the instructions that carry immediates or need care.

  Plain numeric operators are not listed here; `NumericOp` has their table.  Opcodes for
  floating-point numbers and for indirect calls are listed so that they can be refused by
  name.
-/
namespace WasmScript

/-- An opcode with immediates or special handling. -/
inductive Opcode where
  | unreachable
  | nop
  | block
  | loop
  | ifBlock
  | elseMark
  | endMark
  | br
  | brIf
  | brTable
  | ret
  | call
  | callIndirect
  | drop
  | select
  | selectT
  | localGet
  | localSet
  | localTee
  | globalGet
  | globalSet
  | i32Load
  | i64Load
  | f32Load
  | f64Load
  | i32Load8S
  | i32Load8U
  | i32Load16S
  | i32Load16U
  | i64Load8S
  | i64Load8U
  | i64Load16S
  | i64Load16U
  | i64Load32S
  | i64Load32U
  | i32Store
  | i64Store
  | f32Store
  | f64Store
  | i32Store8
  | i32Store16
  | i64Store8
  | i64Store16
  | i64Store32
  | memorySize
  | memoryGrow
  | i32Const
  | i64Const
  | f32Const
  | f64Const
  | escapeFC
  | escapeFD
  | escapeFE
deriving DecidableEq, Repr

namespace Opcode

/-- Every opcode, in the order of their bytes. -/
def all : List Opcode :=
  [.unreachable, .nop, .block, .loop, .ifBlock, .elseMark, .endMark, .br, .brIf, .brTable, .ret,
   .call, .callIndirect, .drop, .select, .selectT, .localGet, .localSet, .localTee, .globalGet,
   .globalSet, .i32Load, .i64Load, .f32Load, .f64Load, .i32Load8S, .i32Load8U, .i32Load16S,
   .i32Load16U, .i64Load8S, .i64Load8U, .i64Load16S, .i64Load16U, .i64Load32S, .i64Load32U,
   .i32Store, .i64Store, .f32Store, .f64Store, .i32Store8, .i32Store16, .i64Store8, .i64Store16,
   .i64Store32, .memorySize, .memoryGrow, .i32Const, .i64Const, .f32Const, .f64Const, .escapeFC,
   .escapeFD, .escapeFE]

def byte : Opcode → Nat
  | .unreachable => 0x00
  | .nop => 0x01
  | .block => 0x02
  | .loop => 0x03
  | .ifBlock => 0x04
  | .elseMark => 0x05
  | .endMark => 0x0b
  | .br => 0x0c
  | .brIf => 0x0d
  | .brTable => 0x0e
  | .ret => 0x0f
  | .call => 0x10
  | .callIndirect => 0x11
  | .drop => 0x1a
  | .select => 0x1b
  | .selectT => 0x1c
  | .localGet => 0x20
  | .localSet => 0x21
  | .localTee => 0x22
  | .globalGet => 0x23
  | .globalSet => 0x24
  | .i32Load => 0x28
  | .i64Load => 0x29
  | .f32Load => 0x2a
  | .f64Load => 0x2b
  | .i32Load8S => 0x2c
  | .i32Load8U => 0x2d
  | .i32Load16S => 0x2e
  | .i32Load16U => 0x2f
  | .i64Load8S => 0x30
  | .i64Load8U => 0x31
  | .i64Load16S => 0x32
  | .i64Load16U => 0x33
  | .i64Load32S => 0x34
  | .i64Load32U => 0x35
  | .i32Store => 0x36
  | .i64Store => 0x37
  | .f32Store => 0x38
  | .f64Store => 0x39
  | .i32Store8 => 0x3a
  | .i32Store16 => 0x3b
  | .i64Store8 => 0x3c
  | .i64Store16 => 0x3d
  | .i64Store32 => 0x3e
  | .memorySize => 0x3f
  | .memoryGrow => 0x40
  | .i32Const => 0x41
  | .i64Const => 0x42
  | .f32Const => 0x43
  | .f64Const => 0x44
  | .escapeFC => 0xfc
  | .escapeFD => 0xfd
  | .escapeFE => 0xfe

def name : Opcode → String
  | .unreachable => "unreachable"
  | .nop => "nop"
  | .block => "block"
  | .loop => "loop"
  | .ifBlock => "if"
  | .elseMark => "else"
  | .endMark => "end"
  | .br => "br"
  | .brIf => "br_if"
  | .brTable => "br_table"
  | .ret => "return"
  | .call => "call"
  | .callIndirect => "call_indirect"
  | .drop => "drop"
  | .select => "select"
  | .selectT => "select_t"
  | .localGet => "local_get"
  | .localSet => "local_set"
  | .localTee => "local_tee"
  | .globalGet => "global_get"
  | .globalSet => "global_set"
  | .i32Load => "i32_load"
  | .i64Load => "i64_load"
  | .f32Load => "f32_load"
  | .f64Load => "f64_load"
  | .i32Load8S => "i32_load8_s"
  | .i32Load8U => "i32_load8_u"
  | .i32Load16S => "i32_load16_s"
  | .i32Load16U => "i32_load16_u"
  | .i64Load8S => "i64_load8_s"
  | .i64Load8U => "i64_load8_u"
  | .i64Load16S => "i64_load16_s"
  | .i64Load16U => "i64_load16_u"
  | .i64Load32S => "i64_load32_s"
  | .i64Load32U => "i64_load32_u"
  | .i32Store => "i32_store"
  | .i64Store => "i64_store"
  | .f32Store => "f32_store"
  | .f64Store => "f64_store"
  | .i32Store8 => "i32_store8"
  | .i32Store16 => "i32_store16"
  | .i64Store8 => "i64_store8"
  | .i64Store16 => "i64_store16"
  | .i64Store32 => "i64_store32"
  | .memorySize => "memory_size"
  | .memoryGrow => "memory_grow"
  | .i32Const => "i32_const"
  | .i64Const => "i64_const"
  | .f32Const => "f32_const"
  | .f64Const => "f64_const"
  | .escapeFC => "prefix_fc"
  | .escapeFD => "prefix_fd"
  | .escapeFE => "prefix_fe"

def ofByte? : Nat → Option Opcode
  | 0x00 => some .unreachable
  | 0x01 => some .nop
  | 0x02 => some .block
  | 0x03 => some .loop
  | 0x04 => some .ifBlock
  | 0x05 => some .elseMark
  | 0x0b => some .endMark
  | 0x0c => some .br
  | 0x0d => some .brIf
  | 0x0e => some .brTable
  | 0x0f => some .ret
  | 0x10 => some .call
  | 0x11 => some .callIndirect
  | 0x1a => some .drop
  | 0x1b => some .select
  | 0x1c => some .selectT
  | 0x20 => some .localGet
  | 0x21 => some .localSet
  | 0x22 => some .localTee
  | 0x23 => some .globalGet
  | 0x24 => some .globalSet
  | 0x28 => some .i32Load
  | 0x29 => some .i64Load
  | 0x2a => some .f32Load
  | 0x2b => some .f64Load
  | 0x2c => some .i32Load8S
  | 0x2d => some .i32Load8U
  | 0x2e => some .i32Load16S
  | 0x2f => some .i32Load16U
  | 0x30 => some .i64Load8S
  | 0x31 => some .i64Load8U
  | 0x32 => some .i64Load16S
  | 0x33 => some .i64Load16U
  | 0x34 => some .i64Load32S
  | 0x35 => some .i64Load32U
  | 0x36 => some .i32Store
  | 0x37 => some .i64Store
  | 0x38 => some .f32Store
  | 0x39 => some .f64Store
  | 0x3a => some .i32Store8
  | 0x3b => some .i32Store16
  | 0x3c => some .i64Store8
  | 0x3d => some .i64Store16
  | 0x3e => some .i64Store32
  | 0x3f => some .memorySize
  | 0x40 => some .memoryGrow
  | 0x41 => some .i32Const
  | 0x42 => some .i64Const
  | 0x43 => some .f32Const
  | 0x44 => some .f64Const
  | 0xfc => some .escapeFC
  | 0xfd => some .escapeFD
  | 0xfe => some .escapeFE
  | _ => none

end Opcode

end WasmScript
