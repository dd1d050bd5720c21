/-
  WasmScript/Proofs/Integer/Meaning.lean
  ======================================
  **What WebAssembly says of the operators** — each integer operator as a function of bit
  patterns, and the agreement of the running code with it.

  An operator is given words of the width of its operands and gives a word, or traps: the
  operators that divide do, by zero, and the signed quotient of the least integer by -1
  does.  Shift and rotation counts are taken modulo the width.  `NumericOp.meaning` is the
  one place where all this is said; it does not mention how words are held.

  Running code holds words as signed integers and computes with `WasmScript.Operation`.
  The main results say that what it computes for the signed readings of some words is the
  signed reading of what the meaning gives for the words.
-/
import Mathlib.Data.List.Basic
import WasmScript.Run.Operation
import WasmScript.Proofs.Integer.Counting

namespace WasmScript

/-! ### Operators on words -/

namespace Operator

/-- Whether a comparison of words holds.  A test compares with zero. -/
def compare {w : Nat} (o : Operator) (a b : BitVec w) : Option Bool :=
  match o with
  | .eqz | .eq => some (a == b)
  | .ne => some (a != b)
  | .ltS => some (a.slt b)
  | .ltU => some (a.ult b)
  | .gtS => some (b.slt a)
  | .gtU => some (b.ult a)
  | .leS => some (a.sle b)
  | .leU => some (a.ule b)
  | .geS => some (b.sle a)
  | .geU => some (b.ule a)
  | _ => none

/-- A division, which traps when there is no quotient. -/
def divide {w : Nat} (b : BitVec w) (quotient : BitVec w) : Except TrapKind (BitVec w) :=
  if b = 0#w then .error .divideByZero else .ok quotient

/-- The word that a binary operator gives. -/
def combine {w : Nat} (o : Operator) (a b : BitVec w) : Option (Except TrapKind (BitVec w)) :=
  match o with
  | .add => some (.ok (a + b))
  | .sub => some (.ok (a - b))
  | .mul => some (.ok (a * b))
  | .divS =>
    some (if b ≠ 0#w ∧ a = BitVec.intMin w ∧ b = -1#w then .error .integerOverflow
      else divide b (a.sdiv b))
  | .divU => some (divide b (a / b))
  | .remS => some (divide b (a.srem b))
  | .remU => some (divide b (a % b))
  | .and => some (.ok (a &&& b))
  | .or => some (.ok (a ||| b))
  | .xor => some (.ok (a ^^^ b))
  | .shl => some (.ok (a <<< (b.toNat % w)))
  | .shrS => some (.ok (a.sshiftRight (b.toNat % w)))
  | .shrU => some (.ok (a >>> (b.toNat % w)))
  | .rotl => some (.ok (a.rotateLeft (b.toNat % w)))
  | .rotr => some (.ok (a.rotateRight (b.toNat % w)))
  | _ => none

/-- The word of `v` bits that a unary operator or a conversion gives. -/
def transform {w : Nat} (o : Operator) (v : Nat) (a : BitVec w) : Option (BitVec v) :=
  match o with
  | .clz => some (a.clz.setWidth v)
  | .ctz => some (a.ctz.setWidth v)
  | .popcnt => some (a.cpop.setWidth v)
  | .extend8S => some ((a.setWidth 8).signExtend v)
  | .extend16S => some ((a.setWidth 16).signExtend v)
  | .extend32S => some ((a.setWidth 32).signExtend v)
  | .wrapI64 => some (a.setWidth v)
  | .extendI32S => some (a.signExtend v)
  | .extendI32U => some (a.setWidth v)
  | _ => none

end Operator

namespace NumericOp

def arity (op : NumericOp) : Nat :=
  match op.category with
  | .test | .unary | .convert => 1
  | .compare | .binary => 2

/-- What WebAssembly says that an operator gives for its operands, the first one first, or that it
traps. -/
def meaning (op : NumericOp) (operands : List (BitVec op.operand.width)) :
    Option (Except TrapKind (BitVec op.result.width)) :=
  let truth (holds : Bool) : Except TrapKind (BitVec op.result.width) :=
    .ok ((BitVec.ofBool holds).setWidth _)
  match op.category, operands with
  | .test, [a] => (op.operator.compare a 0#_).map truth
  | .compare, [a, b] => (op.operator.compare a b).map truth
  | .unary, [a] | .convert, [a] => (op.operator.transform _ a).map .ok
  | .binary, [a, b] => (op.operator.combine a b).map (Except.map (BitVec.setWidth _))
  | _, _ => none

end NumericOp

/-! ### Traps -/

theorem ValueType.width_pos (type : ValueType) : 0 < type.width := by cases type <;> decide

namespace Operator

/-- Whether an operator gives a quotient or what a division leaves. -/
def divides : Operator → Bool
  | .divS | .divU | .remS | .remU => true
  | _ => false

variable {w : Nat} {a b q : BitVec w} {kind : TrapKind}

theorem neg_one_ne_zero (hw : 0 < w) : -1#w ≠ 0#w := by
  rw [BitVec.neg_one_eq_allOnes]
  intro h
  have hnat := congrArg BitVec.toNat h
  rw [BitVec.toNat_allOnes, BitVec.toNat_ofNat, Nat.zero_mod] at hnat
  have hpow : 1 < 2 ^ w := Nat.one_lt_two_pow (by omega)
  omega

theorem divide_eq_error_iff : divide b q = .error kind ↔ b = 0#w ∧ kind = .divideByZero := by
  by_cases hb : b = 0#w
  · rw [divide, if_pos hb]
    constructor
    · rintro ⟨⟩
      exact ⟨hb, rfl⟩
    · rintro ⟨-, rfl⟩
      rfl
  · rw [divide, if_neg hb]
    constructor
    · rintro ⟨⟩
    · rintro ⟨h, -⟩
      exact (hb h).elim

/-- When two words have no result: a division by zero, and the quotient of the least integer by
-1. -/
theorem combine_eq_error_iff (hw : 0 < w) {o : Operator} :
    o.combine a b = some (.error kind) ↔
      (o.divides ∧ b = 0#w ∧ kind = .divideByZero) ∨
        (o = .divS ∧ a = BitVec.intMin w ∧ b = -1#w ∧ kind = .integerOverflow) := by
  cases o with
  | divS =>
    have hone := neg_one_ne_zero hw
    rw [combine]
    by_cases hover : a = BitVec.intMin w ∧ b = -1#w
    · simp [divides, hover, hone, eq_comm]
    · rw [if_neg fun h => hover h.2, Option.some_inj, divide_eq_error_iff]
      constructor
      · exact fun h => .inl ⟨rfl, h⟩
      · rintro (⟨-, h⟩ | ⟨-, ha, hb, -⟩)
        · exact h
        · exact (hover ⟨ha, hb⟩).elim
  | _ => simp [combine, divides, divide_eq_error_iff]

end Operator

/-! ### The operators of the table -/

namespace Operator

def isComparison (o : Operator) : Bool := o ≠ .eqz ∧ (o.compare 0#0 0#0).isSome

/-- Whether an operator makes one value of two. -/
def isBinary (o : Operator) : Bool := (o.combine 0#0 0#0).isSome

/-- The type of what a unary operator or a conversion gives, if it is one for values of a type. -/
def unaryResult : Operator → ValueType → Option ValueType
  | .clz, type | .ctz, type | .popcnt, type | .extend8S, type | .extend16S, type => some type
  | .extend32S, .i64 => some .i64
  | .wrapI64, .i64 => some .i32
  | .extendI32S, .i32 | .extendI32U, .i32 => some .i64
  | _, _ => none

end Operator

/-- Whether the kind and the types of an operator are those of what it computes. -/
def NumericOp.Regular (op : NumericOp) : Prop :=
  match op.category with
  | .test => op.operator = .eqz ∧ op.result = .i32
  | .compare => op.operator.isComparison ∧ op.result = .i32
  | .unary | .convert => op.operator.unaryResult op.operand = some op.result
  | .binary => op.operator.isBinary ∧ op.result = op.operand

instance (op : NumericOp) : Decidable op.Regular := by
  unfold NumericOp.Regular
  split <;> infer_instance

theorem NumericOp.regular_of_mem : ∀ op ∈ table, op.Regular := by decide

/-- When an operator traps. -/
theorem NumericOp.meaning_eq_error_iff {op : NumericOp} {ws : List (BitVec op.operand.width)}
    {kind : TrapKind} :
    op.meaning ws = some (.error kind) ↔ op.category = .binary ∧ ∃ a b, ws = [a, b] ∧
      ((op.operator.divides ∧ b = 0#_ ∧ kind = .divideByZero) ∨
        (op.operator = .divS ∧ a = BitVec.intMin _ ∧ b = -1#_ ∧ kind = .integerOverflow)) := by
  have hmap {v : Nat} {r : Except TrapKind (BitVec op.operand.width)} :
      r.map (BitVec.setWidth v) = .error kind ↔ r = .error kind := by
    cases r <;> simp [Except.map]
  unfold meaning
  -- Of all categories only that of the binary operators can fail.
  split
  · simp_all
  · simp_all
  · simp_all
  · simp_all
  · next a b hcat =>
    simp only [Option.map_eq_some_iff, hmap, exists_eq_right,
      Operator.combine_eq_error_iff (ValueType.width_pos _), hcat, true_and,
        List.cons.injEq, and_true]
    constructor
    · exact fun h => ⟨a, b, ⟨rfl, rfl⟩, h⟩
    · rintro ⟨a', b', ⟨rfl, rfl⟩, h⟩
      exact h
  · next hother =>
    constructor
    · rintro ⟨⟩
    · rintro ⟨hcat, a, b, rfl, -⟩
      exact (hother _ _ hcat rfl).elim

end WasmScript

namespace WasmScript.Operation

open WasmScript.Bits

/-! ### Comparisons -/

theorem comparison_toInt (o : Operator) (type : ValueType) (a b : BitVec type.width) :
    comparison o type a.toInt b.toInt = o.compare a b := by
  cases o with
  | ne => simp [comparison, Operator.compare, BitVec.toInt_inj, bne, BEq.beq]
  | _ => simp only [comparison, Operator.compare, unsigned_toInt, BitVec.toInt_inj] <;> rfl

/-! ### Divisions -/

/-- What running code gets of an outcome: the signed reading of its word. -/
def reading {w : Nat} : Option (Except TrapKind (BitVec w)) → Except Failure Int
  | some (.ok r) => .ok r.toInt
  | some (.error kind) => .error (.trap kind)
  | none => .error .stuck

theorem toInt_eq_zero_iff {w : Nat} (b : BitVec w) : b.toInt = 0 ↔ b = 0#w := by
  rw [← BitVec.toInt_inj, BitVec.toInt_zero]

/-- A quotient that is one integer for all divisors but zero. -/
theorem divide_toInt {w : Nat} {b q : BitVec w} {n : Int} (h : n = q.toInt) :
    (if b.toInt = 0 then Except.error TrapKind.divideByZero else .ok n).mapError Failure.trap
      = reading (some (Operator.divide b q)) := by
  unfold Operator.divide
  by_cases hb : b = 0#w
  · rw [if_pos hb, if_pos ((toInt_eq_zero_iff b).mpr hb)]
    rfl
  · rw [if_neg hb, if_neg fun hzero => hb ((toInt_eq_zero_iff b).mp hzero), h]
    rfl

/-- The signed quotient, which has no place in the word if the least integer is divided by -1. -/
theorem divideSigned_toInt {w : Nat} {a b : BitVec w} {least n : Int}
    (hleast : least = (BitVec.intMin w).toInt) (hone : (-1#w).toInt = -1)
    (h : a ≠ BitVec.intMin w ∨ b ≠ -1#w → n = (a.sdiv b).toInt) :
    (if b.toInt = 0 then Except.error TrapKind.divideByZero
      else if a.toInt = least ∧ b.toInt = -1 then .error .integerOverflow else .ok n).mapError
        Failure.trap
      = reading (Operator.divS.combine a b) := by
  have hoverflow : a.toInt = least ∧ b.toInt = -1 ↔ a = BitVec.intMin w ∧ b = -1#w := by
    rw [hleast, ← hone, BitVec.toInt_inj, BitVec.toInt_inj]
  simp only [Operator.combine, Operator.divide, toInt_eq_zero_iff, hoverflow]
  by_cases hb : b = 0#w
  · rw [if_pos hb, if_neg (by simp [hb]), if_pos hb]
    rfl
  · by_cases ho : a = BitVec.intMin w ∧ b = -1#w
    · rw [if_neg hb, if_pos ho, if_pos ⟨hb, ho⟩]
      rfl
    · rw [if_neg hb, if_neg ho, if_neg (fun h => ho h.2), if_neg hb,
        h (Decidable.not_and_iff_not_or_not.mp ho)]
      rfl

/-! ### Rotations -/

/-- A rotation by nothing moves the bits by nothing either way, not by the whole width. -/
theorem rotateLeft_eq {w k : Nat} (x : BitVec w) (hk : k < w) :
    x.rotateLeft k = x <<< k ||| x >>> ((w - k) % w) := by
  rw [BitVec.rotateLeft_def, Nat.mod_eq_of_lt hk]
  rcases Nat.eq_zero_or_pos k with rfl | hpos
  · simp [BitVec.ushiftRight_eq_zero]
  · rw [Nat.mod_eq_of_lt (by omega : w - k < w)]

theorem rotateRight_eq {w k : Nat} (x : BitVec w) (hk : k < w) :
    x.rotateRight k = x >>> k ||| x <<< ((w - k) % w) := by
  rw [BitVec.rotateRight_def, Nat.mod_eq_of_lt hk]
  rcases Nat.eq_zero_or_pos k with rfl | hpos
  · simp [BitVec.shiftLeft_eq_zero]
  · rw [Nat.mod_eq_of_lt (by omega : w - k < w)]

/-- The bits of a natural number that are shifted out of a word are lost with the others. -/
theorem signed_shifts {w : Nat} (x : BitVec w) (i j : Nat) :
    signed w (x.toNat <<< i ||| x.toNat >>> j : Nat) = (x <<< i ||| x >>> j).toInt := by
  have hleft : BitVec.ofNat w (x.toNat <<< i) = x <<< i := rfl
  have hright : BitVec.ofNat w (x.toNat >>> j) = x >>> j := by
    rw [← BitVec.toNat_ushiftRight, BitVec.ofNat_toNat, BitVec.setWidth_eq]
  rw [signed_eq_toInt, BitVec.ofInt_natCast, BitVec.ofNat_or, hleft, hright]

/-! ### Binary operators -/

theorem binary32_toInt (o : Operator) (a b : BitVec 32) :
    binary32 o a.toInt b.toInt = reading (o.combine a b) := by
  have hcount : Bits.count 32 b.toInt = b.toNat % 32 := count_toInt b 32 rfl
  have hword (x : BitVec 32) : BitVec.ofInt 32 x.toInt = x := BitVec.ofInt_toInt
  cases o with
  | add =>
    rw [binary32, signed32, signed_eq_toInt, BitVec.ofInt_add, hword, hword]
    rfl
  | sub =>
    rw [binary32, signed32, signed_eq_toInt, ofInt_sub, hword, hword]
    rfl
  | mul =>
    rw [binary32, imul_eq_toInt, hword, hword]
    rfl
  | divS =>
    -- The quotient that overflows is refused before it is taken.
    refine divideSigned_toInt rfl rfl ?_
    intro _
    rw [BitVec.toInt_sdiv]
    rfl
  | divU =>
    refine divide_toInt ?_
    rw [unsigned32, unsigned32, unsigned_toInt, unsigned_toInt, ← BitVec.toNat_udiv, signed32,
      signed_toNat]
  | remS =>
    refine divide_toInt ?_
    rw [signed32, ← BitVec.toInt_srem, signed_toInt]
  | remU =>
    refine divide_toInt ?_
    rw [unsigned32, unsigned32, unsigned_toInt, unsigned_toInt, ← BitVec.toNat_umod, signed32,
      signed_toNat]
  | and =>
    rw [binary32, and_eq_toInt, hword, hword]
    rfl
  | or =>
    rw [binary32, or_eq_toInt, hword, hword]
    rfl
  | xor =>
    rw [binary32, xor_eq_toInt, hword, hword]
    rfl
  | shl =>
    rw [binary32, hcount, shl32_eq_toInt, hword]
    rfl
  | shrS =>
    rw [binary32, hcount, shr32_eq_toInt, hword]
    rfl
  | shrU =>
    rw [binary32, hcount, ushr32_eq_toNat, hword, signed32, signed_toNat]
    rfl
  | rotl =>
    have hk : b.toNat % 32 < 32 := Nat.mod_lt _ (by decide)
    rw [binary32, Arithmetic.i32Rotl, hcount]
    rw [or_eq_toInt, ofInt_shl32, ofInt_ushr32, hword, signed32, signed_toInt,
      ← rotateLeft_eq a hk]
    rfl
  | rotr =>
    have hk : b.toNat % 32 < 32 := Nat.mod_lt _ (by decide)
    rw [binary32, Arithmetic.i32Rotr, hcount]
    rw [or_eq_toInt, ofInt_shl32, ofInt_ushr32, hword, signed32, signed_toInt,
      ← rotateRight_eq a hk]
    rfl
  | _ => rfl

theorem binary64_toInt (o : Operator) (a b : BitVec 64) :
    binary64 o a.toInt b.toInt = reading (o.combine a b) := by
  have hcount : Bits.count 64 b.toInt = b.toNat % 64 := count_toInt b 64 rfl
  have hword (x : BitVec 64) : BitVec.ofInt 64 x.toInt = x := BitVec.ofInt_toInt
  -- Each operation is exact on the integers and brought back into range, as words do it.
  cases o with
  | add =>
    rw [binary64, signed_eq_toInt, BitVec.ofInt_add, hword, hword]
    rfl
  | sub =>
    rw [binary64, signed_eq_toInt, ofInt_sub, hword, hword]
    rfl
  | mul =>
    rw [binary64, signed_eq_toInt, BitVec.ofInt_mul, hword, hword]
    rfl
  | divS =>
    refine divideSigned_toInt rfl rfl ?_
    intro h
    rw [BitVec.toInt_sdiv_of_ne_or_ne a b h]
  | divU =>
    refine divide_toInt ?_
    rw [unsigned_toInt, unsigned_toInt, ← BitVec.toNat_udiv, signed_toNat]
  | remS => exact divide_toInt (BitVec.toInt_srem a b).symm
  | remU =>
    refine divide_toInt ?_
    rw [unsigned_toInt, unsigned_toInt, ← BitVec.toNat_umod, signed_toNat]
  | and =>
    rw [binary64, and_eq_toInt, hword, hword]
    rfl
  | or =>
    rw [binary64, or_eq_toInt, hword, hword]
    rfl
  | xor =>
    rw [binary64, xor_eq_toInt, hword, hword]
    rfl
  | shl =>
    rw [binary64, hcount, signed_eq_toInt, ofInt_mul_twoPow, hword]
    rfl
  | shrS =>
    rw [binary64, hcount, ← BitVec.toInt_sshiftRight]
    rfl
  | shrU =>
    rw [binary64, hcount, unsigned_toInt, ← BitVec.toNat_ushiftRight, signed_toNat]
    rfl
  | rotl =>
    have hk : b.toNat % 64 < 64 := Nat.mod_lt _ (by decide)
    rw [binary64, Arithmetic.i64Rotl, hcount]
    rw [unsigned_toInt, signed_shifts, ← rotateLeft_eq a hk]
    rfl
  | rotr =>
    have hk : b.toNat % 64 < 64 := Nat.mod_lt _ (by decide)
    rw [binary64, Arithmetic.i64Rotr, hcount]
    rw [unsigned_toInt, Nat.or_comm, signed_shifts, BitVec.or_comm, ← rotateRight_eq a hk]
    rfl
  | _ => rfl

/-! ### Unary operators and conversions -/

/-- The bits of a word are counted by numbers that are their own signed readings. -/
theorem toInt_count {w : Nat} (hw : 2 * w < 2 ^ w) {c : BitVec w} (h : c.toNat ≤ w) :
    (c.setWidth w).toInt = c.toNat := by
  rw [BitVec.setWidth_eq, BitVec.toInt_eq_toNat_of_lt (by omega)]

/-- Moving the low bits of a word up to its top and down again copies their sign. -/
theorem sshiftRight_shiftLeft {w v : Nat} (x : BitVec w) (hv : 0 < v) (h : v ≤ w) :
    (x <<< (w - v)).sshiftRight (w - v) = (x.setWidth v).signExtend w := by
  apply BitVec.eq_of_getLsbD_eq
  intro i hi
  rw [BitVec.getLsbD_sshiftRight, BitVec.getLsbD_signExtend]
  simp only [BitVec.getLsbD_shiftLeft, BitVec.getLsbD_setWidth, BitVec.msb_eq_getLsbD_last]
  grind

/-- The signed integer with the low bits of a word is the word of those bits, extended. -/
theorem signed_low {w : Nat} (v u : Nat) (x : BitVec w) (hw : v ≤ w) (hu : v ≤ u) :
    signed v x.toInt = ((x.setWidth v).signExtend u).toInt := by
  rw [BitVec.toInt_signExtend_of_le hu, signed_eq_toInt, ← setWidth_ofInt hw, BitVec.ofInt_toInt]

/-- A signed reading is zero if the word is. -/
theorem i32Ctz_toInt (a : BitVec 32) : Arithmetic.i32Ctz a.toInt = a.ctz.toNat := by
  have hzero : a.toInt = 0 ↔ BitVec.ofInt 32 a.toInt = 0#32 := by
    rw [BitVec.ofInt_toInt]
    exact toInt_eq_zero_iff a
  rw [Arithmetic.i32Ctz_eq hzero, BitVec.ofInt_toInt]

theorem toInt_setWidth_of_lt {w v : Nat} (a : BitVec w) (h : w < v) :
    (a.setWidth v).toInt = a.toNat := by
  have hlt : a.toNat < 2 ^ w := a.isLt
  have hpow : 2 * 2 ^ w ≤ 2 ^ v := by
    rw [← Nat.pow_succ']
    exact Nat.pow_le_pow_right (by decide) h
  rw [BitVec.toInt_eq_toNat_of_lt] <;> rw [BitVec.toNat_setWidth_of_le (Nat.le_of_lt h)]
  omega

theorem unary_toInt_i32 (o : Operator) (result : ValueType)
    (h : o.unaryResult .i32 = some result) (a : BitVec 32) :
    unary o .i32 a.toInt = reading ((o.transform result.width a).map .ok) := by
  have hword (x : BitVec 32) : BitVec.ofInt 32 x.toInt = x := BitVec.ofInt_toInt
  -- Only the operators remain that have a result for this type.
  cases o <;> cases h
  case clz =>
    rw [unary, clz32_eq_toNat, hword, ← toInt_count (by decide) (clz_toNat_le a)]
    rfl
  case ctz =>
    rw [unary, i32Ctz_toInt, ← toInt_count (by decide) (ctz_toNat_le a)]
    rfl
  case popcnt =>
    rw [unary, Arithmetic.i32Popcnt_eq, hword,
      ← toInt_count (by decide) (BitVec.toNat_cpop_le a)]
    rfl
  case extend8S =>
    rw [unary, shr32_eq_toInt, ofInt_shl32, hword,
      sshiftRight_shiftLeft (v := 8) a (by decide) (by decide)]
    rfl
  case extend16S =>
    rw [unary, shr32_eq_toInt, ofInt_shl32, hword,
      sshiftRight_shiftLeft (v := 16) a (by decide) (by decide)]
    rfl
  case extendI32S =>
    rw [unary, ← BitVec.toInt_signExtend_of_le (by decide : 32 ≤ 64)]
    rfl
  case extendI32U =>
    rw [unary, unsigned32, unsigned_toInt, ← toInt_setWidth_of_lt a (by decide : 32 < 64)]
    rfl

theorem unary_toInt_i64 (o : Operator) (result : ValueType)
    (h : o.unaryResult .i64 = some result) (a : BitVec 64) :
    unary o .i64 a.toInt = reading ((o.transform result.width a).map .ok) := by
  have hword (x : BitVec 64) : BitVec.ofInt 64 x.toInt = x := BitVec.ofInt_toInt
  -- Only the operators remain that have a result for this type.
  cases o <;> cases h
  case clz =>
    rw [unary, Arithmetic.i64Clz_eq, hword, ← toInt_count (by decide) (clz_toNat_le a)]
    rfl
  case ctz =>
    rw [unary, Arithmetic.i64Ctz_eq, hword, ← toInt_count (by decide) (ctz_toNat_le a)]
    rfl
  case popcnt =>
    rw [unary, Arithmetic.i64Popcnt_eq, hword,
      ← toInt_count (by decide) (BitVec.toNat_cpop_le a)]
    rfl
  case extend8S =>
    rw [unary, signed_low 8 64 a (by decide) (by decide)]
    rfl
  case extend16S =>
    rw [unary, signed_low 16 64 a (by decide) (by decide)]
    rfl
  case extend32S =>
    rw [unary, signed_low 32 64 a (by decide) (by decide)]
    rfl
  case wrapI64 =>
    rw [unary, Arithmetic.i32WrapI64, signed_low 32 32 a (by decide) (by decide),
      BitVec.signExtend_eq]
    rfl

theorem unary_toInt (o : Operator) (type result : ValueType)
    (h : o.unaryResult type = some result) (a : BitVec type.width) :
    unary o type a.toInt = reading ((o.transform result.width a).map .ok) := by
  cases type with
  | i32 => exact unary_toInt_i32 o result h a
  | i64 => exact unary_toInt_i64 o result h a

/-! ### The operators on values -/

/-- What running code computes for the operands of an operator, the first one first. -/
def apply (op : NumericOp) (operands : List Value) : Except Failure Value :=
  match op.category, operands with
  | .test, [a] => applyComparison op a (.ofInt op.operand 0)
  | .compare, [a, b] => applyComparison op a b
  | .unary, [a] | .convert, [a] => applyUnary op a
  | .binary, [a, b] => applyBinary op a b
  | _, _ => .error .stuck

theorem operand_ofInt (type : ValueType) (n : Int) : operand type (.ofInt type n) = .ok n := by
  cases type <;> rfl

theorem isSome_compare {w : Nat} {o : Operator} (h : o = .eqz ∨ o.isComparison) (a b : BitVec w) :
    ∃ holds, o.compare a b = some holds := by
  cases o <;> simp [Operator.isComparison, Operator.compare] at h ⊢

theorem isSome_combine {w : Nat} {o : Operator} (h : o.isBinary) (a b : BitVec w) :
    ∃ r, o.combine a b = some r := by
  cases o <;> simp [Operator.isBinary, Operator.combine] at h ⊢

theorem isSome_transform {w : Nat} {o : Operator} {type result : ValueType}
    (h : o.unaryResult type = some result) (v : Nat) (a : BitVec w) :
    ∃ r, o.transform v a = some r := by
  cases o <;> simp [Operator.unaryResult, Operator.transform] at h ⊢

/-- An operator of the table means something for all words. -/
theorem exists_meaning {op : NumericOp} (h : op.Regular) {ws : List (BitVec op.operand.width)}
    (hlen : ws.length = op.arity) : ∃ r, op.meaning ws = some r := by
  cases hcat : op.category <;>
    simp only [NumericOp.Regular, NumericOp.arity, NumericOp.meaning, hcat] at h hlen ⊢
  case test =>
    obtain ⟨a, rfl⟩ := List.length_eq_one_iff.mp hlen
    obtain ⟨holds, hc⟩ := isSome_compare (.inl h.1) a 0#_
    exact ⟨_, congrArg (Option.map _) hc⟩
  case compare =>
    obtain ⟨a, b, rfl⟩ := List.length_eq_two.mp hlen
    obtain ⟨holds, hc⟩ := isSome_compare (.inr h.1) a b
    exact ⟨_, congrArg (Option.map _) hc⟩
  case binary =>
    obtain ⟨a, b, rfl⟩ := List.length_eq_two.mp hlen
    obtain ⟨r, hr⟩ := isSome_combine h.1 a b
    exact ⟨_, congrArg (Option.map _) hr⟩
  all_goals
    obtain ⟨a, rfl⟩ := List.length_eq_one_iff.mp hlen
    obtain ⟨r, hr⟩ := isSome_transform h op.result.width a
    exact ⟨_, congrArg (Option.map _) hr⟩

theorem applyComparison_toInt {op : NumericOp} (hresult : op.result = .i32)
    (a b : BitVec op.operand.width) :
    applyComparison op (.ofInt op.operand a.toInt) (.ofInt op.operand b.toInt)
      = Value.ofInt op.result <$> reading ((op.operator.compare a b).map fun holds =>
          .ok ((BitVec.ofBool holds).setWidth op.result.width)) := by
  rw [applyComparison, operand_ofInt, operand_ofInt, hresult]
  dsimp only [bind, Except.bind]
  rw [comparison_toInt]
  cases op.operator.compare a b with
  | none => rfl
  | some holds => cases holds <;> rfl

theorem applyUnary_toInt {op : NumericOp} (h : op.operator.unaryResult op.operand = some op.result)
    (a : BitVec op.operand.width) :
    applyUnary op (.ofInt op.operand a.toInt)
      = Value.ofInt op.result <$>
          reading ((op.operator.transform op.result.width a).map .ok) := by
  rw [applyUnary, operand_ofInt, ← unary_toInt _ _ _ h]
  rfl

theorem applyBinary_toInt {op : NumericOp} (hresult : op.result = op.operand)
    (a b : BitVec op.operand.width) :
    applyBinary op (.ofInt op.operand a.toInt) (.ofInt op.operand b.toInt)
      = Value.ofInt op.result <$> reading
          ((op.operator.combine a b).map (Except.map (BitVec.setWidth op.result.width))) := by
  obtain ⟨opcode, name, category, operator, operand, result⟩ := op
  obtain rfl : result = operand := hresult
  rw [applyBinary, operand_ofInt, operand_ofInt]
  have hsame (r : Option (Except TrapKind (BitVec result.width))) :
      r.map (Except.map (BitVec.setWidth result.width)) = r := by
    rcases r with _ | _ | _ <;> simp [Except.map]
  rw [hsame]
  cases result with
  | i32 => exact congrArg (Value.ofInt .i32 <$> ·) (binary32_toInt operator a b)
  | i64 => exact congrArg (Value.ofInt .i64 <$> ·) (binary64_toInt operator a b)

def valueOf (type : ValueType) (w : BitVec type.width) : Value := .ofInt type w.toInt

/-- Running code computes what WebAssembly says, and traps when it says so. -/
theorem apply_toInt {op : NumericOp} (h : op.Regular) {ws : List (BitVec op.operand.width)}
    (hlen : ws.length = op.arity) :
    apply op (ws.map (valueOf op.operand))
      = Value.ofInt op.result <$> reading (op.meaning ws) := by
  cases hcat : op.category <;>
    simp only [NumericOp.Regular, NumericOp.arity, apply, NumericOp.meaning, hcat] at h hlen ⊢
  case test =>
    obtain ⟨a, rfl⟩ := List.length_eq_one_iff.mp hlen
    have hzero := applyComparison_toInt h.2 a 0#_
    rw [BitVec.toInt_zero] at hzero
    exact hzero
  case compare =>
    obtain ⟨a, b, rfl⟩ := List.length_eq_two.mp hlen
    exact applyComparison_toInt h.2 a b
  case binary =>
    obtain ⟨a, b, rfl⟩ := List.length_eq_two.mp hlen
    exact applyBinary_toInt h.2 a b
  all_goals
    obtain ⟨a, rfl⟩ := List.length_eq_one_iff.mp hlen
    exact applyUnary_toInt h a

end WasmScript.Operation
