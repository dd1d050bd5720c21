/-
  WasmScript/Proofs/Script/Forms.lean
  ===================================
  **Forms of the operators** — that what is generated for an operator computes what
  WebAssembly says.

  `Term.EvaluatesTo` says that an operand, evaluated in some state, gives a value; a zero may
  have a minus sign, since no form tells the two zeros apart.  From the operands the
  lemmas build up the forms: first each operator of the script language, then each form of
  `comparisonForm`, `binaryForm` and `unaryForm`.  What a form gives is what
  `Operation.apply` gives, and that is the meaning of the operator on words.
-/
import WasmScript.Script.Evaluation
import WasmScript.Proofs.Integer.Meaning
import WasmScript.Proofs.Integer.Unbounded
import WasmScript.Proofs.Number.Whole
import WasmScript.Proofs.IR.Plain

namespace WasmScript

/-- The scalar is the value, a zero having any sign. -/
def Scalar.Represents : Scalar → Value → Prop
  | .number x, .i32 n => x.Represents n
  | .bigint m, .i64 n => m = n
  | _, _ => False

theorem Scalar.ofCell_represents (c : Cell) : (Scalar.ofCell c).Represents c.toValue := by
  cases c with
  | plain v =>
    cases v with
    | i32 n => exact .ofInt n
    | i64 n => exact rfl
  | negativeZero => exact .negativeZero

namespace Script

open IR (Expression Run Surroundings Variables)
open Number (Represents)

variable {σ : Type} {around : Surroundings σ} {s s₁ s₂ : Variables σ} {t u : Term} {a b : Int}

/-- Evaluated in a state, an expression gives a value and leaves another state. -/
def Term.EvaluatesTo (around : Surroundings σ) (t : Term) (s : Variables σ) (v : Value)
    (s₁ : Variables σ) : Prop :=
  ∃ d : Scalar, t.evaluate around s = .ok (.scalar d) s₁ ∧ d.Represents v

/-! ### Operands -/

theorem Term.EvaluatesTo.number (h : t.EvaluatesTo around s (.i32 a) s₁) :
    ∃ x, t.evaluate around s = .ok (.number x) s₁ ∧ x.Represents a := by
  obtain ⟨d, hd, hs⟩ := h
  cases d with
  | number x => exact ⟨x, hd, hs⟩
  | bigint n => exact hs.elim

theorem Term.EvaluatesTo.integer (h : t.EvaluatesTo around s (.i64 a) s₁) :
    t.evaluate around s = .ok (.integer a) s₁ := by
  obtain ⟨d, hd, hs⟩ := h
  cases d with
  | number x => exact hs.elim
  | bigint n =>
    obtain rfl : n = a := hs
    exact hd

theorem Term.EvaluatesTo.of_word (h : t.evaluate around s = .ok (.word a) s₁) :
    t.EvaluatesTo around s (.i32 a) s₁ := ⟨.number (.ofInt a), h, .ofInt a⟩

theorem Term.EvaluatesTo.of_integer (h : t.evaluate around s = .ok (.integer a) s₁) :
    t.EvaluatesTo around s (.i64 a) s₁ := ⟨.bigint a, h, rfl⟩

theorem evaluatesTo_number (n : Int) : (Term.number n).EvaluatesTo around s (.i32 n) s :=
  .of_word rfl

theorem evaluatesTo_bigInteger (n : Int) : (Term.bigInteger n).EvaluatesTo around s (.i64 n) s :=
  .of_integer rfl

/-! ### Operators of the script language -/

theorem evaluate_binary {d e : Datum} (symbol : Symbol) (ht : t.evaluate around s = .ok d s₁)
    (hu : u.evaluate around s₁ = .ok e s₂) :
    (Term.binary symbol t u).evaluate around s = Run.present (symbol.apply d e) s₂ := by
  rw [Term.evaluate]
  simp only [bind, EStateM.bind, ht, hu]

theorem evaluate_numbers (symbol : Symbol) (ht : t.EvaluatesTo around s (.i32 a) s₁)
    (hu : u.EvaluatesTo around s₁ (.i32 b) s₂) : ∃ x y, x.Represents a ∧ y.Represents b ∧
      (Term.binary symbol t u).evaluate around s = Run.present (symbol.onNumbers x y) s₂ := by
  obtain ⟨x, ht, hx⟩ := ht.number
  obtain ⟨y, hu, hy⟩ := hu.number
  exact ⟨x, y, hx, hy, evaluate_binary symbol ht hu⟩

theorem evaluate_integers (symbol : Symbol) (ht : t.EvaluatesTo around s (.i64 a) s₁)
    (hu : u.EvaluatesTo around s₁ (.i64 b) s₂) :
    (Term.binary symbol t u).evaluate around s = Run.present (symbol.onIntegers a b) s₂ :=
  evaluate_binary symbol ht.integer hu.integer

/-- Bringing an operand into the signed range does nothing to one that is in it. -/
theorem evaluate_toSigned32 (ht : t.EvaluatesTo around s (.i32 a) s₁) :
    (Term.toSigned32 t).evaluate around s = .ok (.word (Bits.signed32 a)) s₁ := by
  obtain ⟨x, y, hx, hy, he⟩ := evaluate_numbers .or ht (evaluatesTo_number 0)
  have hor : Bits.or 32 x.toInt32 y.toInt32 = Bits.signed32 a := by
    rw [hx.toInt32, hy.toInt32, Bits.or_eq_toInt, Bits.ofInt_signed, Bits.ofInt_signed,
      Bits.signed32, Bits.signed_eq_toInt]
    exact congrArg BitVec.toInt BitVec.or_zero
  rw [Term.toSigned32, Term.group, Term.evaluate, he, ← hor]
  rfl

theorem evaluate_toUnsigned32 (ht : t.EvaluatesTo around s (.i32 a) s₁) :
    (Term.toUnsigned32 t).evaluate around s = .ok (.word (Bits.unsigned 32 a)) s₁ := by
  obtain ⟨x, y, hx, hy, he⟩ := evaluate_numbers .ushr ht (evaluatesTo_number 0)
  have hushr : (Bits.ushr32 x.toInt32 (y.toUInt32 % 32) : Int) = Bits.unsigned 32 a := by
    rw [hx.toInt32, hy.toUInt32, Bits.ushr32_eq_toNat, Bits.ofInt_signed,
      Bits.unsigned_eq_toNat 32 a]
    rfl
  rw [Term.toUnsigned32, Term.group, Term.evaluate, he, ← hushr]
  rfl

/-- A shift count is reduced modulo the width. -/
theorem evaluatesTo_count32 {y : BitVec 32} (hu : u.EvaluatesTo around s (.i32 y.toInt) s₁) :
    (Term.count32 u).EvaluatesTo around s (.i32 (y.toNat % 32 : Nat)) s₁ := by
  obtain ⟨x, z, hx, hz, he⟩ := evaluate_numbers .and hu (evaluatesTo_number 31)
  have hand : Bits.and 32 x.toInt32 z.toInt32 = (y.toNat % 32 : Nat) := by
    have hmask : y &&& 31#32 = BitVec.ofNat 32 (y.toNat % 32) := by
      have hlt : y.toNat % 32 < 2 ^ 32 := by omega
      apply BitVec.eq_of_toNat_eq
      rw [BitVec.toNat_and, BitVec.toNat_ofNat, BitVec.toNat_ofNat, Nat.mod_eq_of_lt hlt]
      exact Nat.and_two_pow_sub_one_eq_mod y.toNat 5
    rw [hx.toInt32, hz.toInt32, Bits.and_eq_toInt, Bits.ofInt_signed, Bits.ofInt_signed,
      BitVec.ofInt_toInt]
    refine (congrArg BitVec.toInt hmask).trans ?_
    rw [BitVec.toInt_eq_toNat_of_lt] <;> rw [BitVec.toNat_ofNat, Nat.mod_eq_of_lt (by omega)]
    omega
  refine .of_word ?_
  rw [Term.count32, Term.group, Term.evaluate, he, ← hand]
  rfl

/-! ### Calls -/

theorem evaluateAll_one {d : Datum} (ht : t.evaluate around s = .ok d s₁) :
    Term.evaluateAll around [t] s = .ok [d] s₁ := by
  simp only [Term.evaluateAll, bind, EStateM.bind, ht]
  rfl

theorem evaluateAll_two {d e : Datum} (ht : t.evaluate around s = .ok d s₁)
    (hu : u.evaluate around s₁ = .ok e s₂) :
    Term.evaluateAll around [t, u] s = .ok [d, e] s₂ := by
  simp only [Term.evaluateAll, bind, EStateM.bind, ht, hu]
  rfl

theorem scalars?_map (ss : List Scalar) : Datum.scalars? (ss.map .scalar) = some ss := by
  induction ss with
  | nil => rfl
  | cons a ss ih => rw [List.map_cons, Datum.scalars?, ih]; rfl

theorem evaluate_call {callee : Callee} {args : List Term} (ss : List Scalar)
    (hargs : Term.evaluateAll around args s = .ok (ss.map .scalar) s₁) :
    (Term.call callee args).evaluate around s = callee.call around ss s₁ := by
  simp only [Term.evaluate, bind, EStateM.bind, hargs, scalars?_map]
  rfl

theorem evaluate_call_one {callee : Callee} {d : Scalar}
    (ht : t.evaluate around s = .ok (.scalar d) s₁) :
    (Term.call callee [t]).evaluate around s = callee.call around [d] s₁ :=
  evaluate_call [d] (evaluateAll_one ht)

theorem evaluate_call_two {callee : Callee} {d e : Scalar}
    (ht : t.evaluate around s = .ok (.scalar d) s₁)
    (hu : u.evaluate around s₁ = .ok (.scalar e) s₂) :
    (Term.call callee [t, u]).evaluate around s = callee.call around [d, e] s₂ :=
  evaluate_call [d, e] (evaluateAll_two ht hu)

/-- A function that touches nothing leaves the state alone. -/
theorem call_of_applyPure {callee : Callee} {ss : List Scalar} {d : Datum}
    (h : callee.applyPure ss = some d) : callee.call around ss s = .ok d s := by
  unfold Callee.call
  split <;> first | cases h | skip
  rw [h]
  rfl

/-- Bringing a big integer into a signed range. -/
theorem evaluate_toSigned {w : Nat} (ht : t.evaluate around s = .ok (.integer a) s₁) :
    (Term.toSigned w t).evaluate around s = .ok (.integer (Bits.signed w a)) s₁ := by
  have hwidth : (Number.ofInt w).toInteger? = some (w : Int) := (Represents.ofInt w).toInteger?
  have hw : (Term.number w).evaluate around s = .ok (.word w) s := rfl
  refine (evaluate_call_two hw ht).trans (call_of_applyPure ?_)
  rw [Callee.applyPure, hwidth]
  rfl

theorem evaluate_toUnsigned64 (ht : t.EvaluatesTo around s (.i64 a) s₁) :
    (Term.toUnsigned64 t).evaluate around s = .ok (.integer (Bits.unsigned 64 a)) s₁ := by
  have hwidth : (Number.ofInt 64).toInteger? = some 64 := (Represents.ofInt 64).toInteger?
  have hw : (Term.number 64).evaluate around s = .ok (.word 64) s := rfl
  refine (evaluate_call_two hw ht.integer).trans (call_of_applyPure ?_)
  rw [Callee.applyPure, hwidth]
  rfl

/-- The integer of an argument. -/
theorem toInteger?_of_stands {d : Scalar} {type : ValueType} {n : Int}
    (h : d.Represents (.ofInt type n)) : d.toInteger? type = some n := by
  cases type <;> cases d <;> first | exact h.elim | skip
  · exact Represents.toInteger? h
  · exact congrArg some h

def helped (h : Helper) (a b : Int) : Except Failure Datum :=
  ((h.apply a b).mapError .trap).map fun n => .scalar (.ofValue (.ofInt h.type n))

theorem applyTo_of_represents (h : Helper) {d e : Scalar} (hd : d.Represents (.ofInt h.argument a))
    (he : e.Represents (.ofInt h.argument b)) :
    (h.applyTo d e : Run σ Datum) = Run.result (helped h a b) := by
  rw [Helper.applyTo, toInteger?_of_stands hd, toInteger?_of_stands he, helped]
  simp only [Run.present, pure_bind]
  cases h.apply a b <;> rfl

theorem evaluate_help_one (h : Helper) (ht : t.EvaluatesTo around s (.ofInt h.argument a) s₁) :
    (Term.help h [t]).evaluate around s = Run.result (helped h a a) s₁ := by
  obtain ⟨d, hd, hs⟩ := ht
  rw [Term.help, evaluate_call_one hd, Callee.call, applyTo_of_represents h hs hs]

theorem evaluate_help_two (h : Helper) (ht : t.EvaluatesTo around s (.ofInt h.argument a) s₁)
    (hu : u.EvaluatesTo around s₁ (.ofInt h.argument b) s₂) :
    (Term.help h [t, u]).evaluate around s = Run.result (helped h a b) s₂ := by
  obtain ⟨d, hd, hs⟩ := ht
  obtain ⟨e, he, hs'⟩ := hu
  rw [Term.help, evaluate_call_two hd he, Callee.call, applyTo_of_represents h hs hs']

/-! ### Forms of the binary operators -/

/-- A word that an operator gives, as a script has it. -/
def given (type : ValueType) (r : Except Failure Int) : Except Failure Datum :=
  r.map fun n => .scalar (.ofValue (.ofInt type n))

/-- What a form gives for an outcome of an operator. -/
def outcomeOf (type : ValueType) : Except TrapKind (BitVec type.width) → Except Failure Datum
  | .ok r => .ok (.scalar (.ofValue (.ofInt type r.toInt)))
  | .error kind => .error (.trap kind)

theorem given_reading (type : ValueType) (outcome : Except TrapKind (BitVec type.width)) :
    given type (Operation.reading (some outcome)) = outcomeOf type outcome := by
  cases outcome <;> rfl

theorem natAbs_toInt_le (x : BitVec 32) : x.toInt.natAbs ≤ 2 ^ 31 := by
  have hlow := BitVec.le_toInt x
  have hhigh := BitVec.toInt_lt (x := x)
  omega

/-- An operator on bits finds the words of its operands. -/
theorem evaluate_words (symbol : Symbol) {x y : BitVec 32}
    (ht : t.EvaluatesTo around s (.i32 x.toInt) s₁)
    (hu : u.EvaluatesTo around s₁ (.i32 y.toInt) s₂) :
    ∃ p q : Number, p.toInt32 = x.toInt ∧ q.toInt32 = y.toInt ∧
      (Term.group symbol t u).evaluate around s = Run.present (symbol.onNumbers p q) s₂ := by
  obtain ⟨p, q, hp, hq, he⟩ := evaluate_numbers symbol ht hu
  exact ⟨p, q, by rw [hp.toInt32, Bits.signed_toInt], by rw [hq.toInt32, Bits.signed_toInt], he⟩

/-- A shift finds the word of its first operand, and its count reduced. -/
theorem evaluate_shift (symbol : Symbol) {x y : BitVec 32}
    (ht : t.EvaluatesTo around s (.i32 x.toInt) s₁)
    (hu : u.EvaluatesTo around s₁ (.i32 y.toInt) s₂) :
    ∃ p q : Number, p.toInt32 = x.toInt ∧ q.toUInt32 % 32 = Bits.count 32 y.toInt ∧
      (Term.group symbol t (Term.count32 u)).evaluate around s
        = Run.present (symbol.onNumbers p q) s₂ := by
  obtain ⟨p, q, hp, hq, he⟩ := evaluate_numbers symbol ht (evaluatesTo_count32 hu)
  refine ⟨p, q, by rw [hp.toInt32, Bits.signed_toInt], ?_, he⟩
  have hcount : Bits.count 32 y.toInt = y.toNat % 32 := Bits.count_toInt y 32 rfl
  rw [hq.toUInt32, Bits.unsigned_eq_toNat, BitVec.ofInt_natCast, BitVec.toNat_ofNat, hcount]
  omega

theorem evaluate_binaryForm32 {o : Operator} {f : Term} (h : binaryForm32 o t u = .ok f)
    {x y : BitVec 32} (ht : t.EvaluatesTo around s (.i32 x.toInt) s₁)
    (hu : u.EvaluatesTo around s₁ (.i32 y.toInt) s₂) :
    f.evaluate around s = Run.result (given .i32 (Operation.binary32 o x.toInt y.toInt)) s₂ := by
  have hx := natAbs_toInt_le x
  have hy := natAbs_toInt_le y
  cases o <;> cases h
  case add =>
    obtain ⟨p, q, hp, hq, he⟩ := evaluate_numbers .plus ht hu
    -- The sum of two words is exact as a number, and so is the difference.
    have hsum : (Term.group .plus t u).EvaluatesTo around s (.i32 (x.toInt + y.toInt)) s₂ :=
      ⟨.number (p.add q), he, hp.add hq (by omega)⟩
    rw [evaluate_toSigned32 hsum]
    rfl
  case sub =>
    obtain ⟨p, q, hp, hq, he⟩ := evaluate_numbers .minus ht hu
    have hdiff : (Term.group .minus t u).EvaluatesTo around s (.i32 (x.toInt - y.toInt)) s₂ :=
      ⟨.number (p.sub q), he, hp.sub hq (by omega)⟩
    rw [evaluate_toSigned32 hdiff]
    rfl
  case mul =>
    obtain ⟨p, ht, hp⟩ := ht.number
    obtain ⟨q, hu, hq⟩ := hu.number
    refine (evaluate_call_two ht hu).trans (call_of_applyPure ?_)
    rw [Callee.applyPure, hp.toInt32, hq.toInt32, Bits.signed_toInt, Bits.signed_toInt]
    rfl
  case divS =>
    rw [evaluate_help_two .i32DivS ht hu, helped, Helper.apply, Operation.binary32]
    rfl
  case divU =>
    rw [evaluate_help_two .i32DivU ht hu, helped, Helper.apply, Operation.binary32]
    rfl
  case remS =>
    rw [evaluate_help_two .i32RemS ht hu, helped, Helper.apply, Operation.binary32]
    rfl
  case remU =>
    rw [evaluate_help_two .i32RemU ht hu, helped, Helper.apply, Operation.binary32]
    rfl
  case and =>
    obtain ⟨p, q, hp, hq, he⟩ := evaluate_words .and ht hu
    rw [he, Symbol.onNumbers, hp, hq]
    rfl
  case or =>
    obtain ⟨p, q, hp, hq, he⟩ := evaluate_words .or ht hu
    rw [he, Symbol.onNumbers, hp, hq]
    rfl
  case xor =>
    obtain ⟨p, q, hp, hq, he⟩ := evaluate_words .xor ht hu
    rw [he, Symbol.onNumbers, hp, hq]
    rfl
  case shl =>
    obtain ⟨p, q, hp, hq, he⟩ := evaluate_shift .shl ht hu
    rw [he, Symbol.onNumbers, hp, hq]
    rfl
  case shrS =>
    obtain ⟨p, q, hp, hq, he⟩ := evaluate_shift .shr ht hu
    rw [he, Symbol.onNumbers, hp, hq]
    rfl
  case shrU =>
    obtain ⟨p, q, hp, hq, he⟩ := evaluate_shift .ushr ht hu
    rw [Symbol.onNumbers, hp, hq] at he
    rw [evaluate_toSigned32 (.of_word he)]
    rfl
  case rotl =>
    rw [evaluate_help_two .i32Rotl ht hu, helped, Helper.apply, Operation.binary32]
    rfl
  case rotr =>
    rw [evaluate_help_two .i32Rotr ht hu, helped, Helper.apply, Operation.binary32]
    rfl

/-- A shift count is reduced modulo the width. -/
theorem evaluatesTo_count64 {y : BitVec 64} (hu : u.EvaluatesTo around s (.i64 y.toInt) s₁) :
    (Term.count64 u).EvaluatesTo around s (.i64 (Bits.count 64 y.toInt)) s₁ := by
  have hcount : Bits.count 64 y.toInt = y.toNat % 64 := Bits.count_toInt y 64 rfl
  have hmask : y &&& 63#64 = BitVec.ofNat 64 (y.toNat % 64) := by
    have hlt : y.toNat % 64 < 2 ^ 64 := by omega
    apply BitVec.eq_of_toNat_eq
    rw [BitVec.toNat_and, BitVec.toNat_ofNat, BitVec.toNat_ofNat, Nat.mod_eq_of_lt hlt]
    exact Nat.and_two_pow_sub_one_eq_mod y.toNat 6
  have hland : Int.land y.toInt 63 = Bits.count 64 y.toInt := by
    refine (Bits.land_toInt y 63#64).trans ?_
    rw [hmask, hcount, BitVec.toInt_eq_toNat_of_lt] <;>
      rw [BitVec.toNat_ofNat, Nat.mod_eq_of_lt (by omega)]
    omega
  refine .of_integer ?_
  rw [Term.count64, Term.group, Term.evaluate,
    evaluate_integers .and hu (evaluatesTo_bigInteger 63), ← hland]
  rfl

theorem moveUp_neg_natCast (n : Int) (k : Nat) : Symbol.moveUp n (-k) = n >>> k := by
  unfold Symbol.moveUp
  split
  · next h =>
    obtain rfl : k = 0 := by omega
    simp [Bits.twoPow]
  · rw [Int.neg_neg, Int.toNat_natCast]

theorem evaluate_binaryForm64 {o : Operator} {f : Term} (h : binaryForm64 o t u = .ok f)
    {x y : BitVec 64} (ht : t.EvaluatesTo around s (.i64 x.toInt) s₁)
    (hu : u.EvaluatesTo around s₁ (.i64 y.toInt) s₂) :
    f.evaluate around s = Run.result (given .i64 (Operation.binary64 o x.toInt y.toInt)) s₂ := by
  cases o <;> cases h
  case add => exact evaluate_toSigned (evaluate_integers .plus ht hu)
  case sub => exact evaluate_toSigned (evaluate_integers .minus ht hu)
  case mul => exact evaluate_toSigned (evaluate_integers .times ht hu)
  case divS =>
    rw [evaluate_help_two .i64DivS ht hu, helped, Helper.apply, Operation.binary64]
    rfl
  case divU =>
    rw [evaluate_help_two .i64DivU ht hu, helped, Helper.apply, Operation.binary64]
    rfl
  case remS =>
    rw [evaluate_help_two .i64RemS ht hu, helped, Helper.apply, Operation.binary64]
    rfl
  case remU =>
    rw [evaluate_help_two .i64RemU ht hu, helped, Helper.apply, Operation.binary64]
    rfl
  case and =>
    rw [Term.group, Term.evaluate, evaluate_integers .and ht hu, Symbol.onIntegers, Bits.land_toInt,
      Operation.binary64, Bits.and_eq_toInt, BitVec.ofInt_toInt, BitVec.ofInt_toInt]
    rfl
  case or =>
    rw [Term.group, Term.evaluate, evaluate_integers .or ht hu, Symbol.onIntegers, Bits.lor_toInt,
      Operation.binary64, Bits.or_eq_toInt, BitVec.ofInt_toInt, BitVec.ofInt_toInt]
    rfl
  case xor =>
    rw [Term.group, Term.evaluate, evaluate_integers .xor ht hu, Symbol.onIntegers, Bits.xor_toInt,
      Operation.binary64, Bits.xor_eq_toInt, BitVec.ofInt_toInt, BitVec.ofInt_toInt]
    rfl
  case shl =>
    exact evaluate_toSigned (evaluate_integers .shl ht (evaluatesTo_count64 hu))
  case shrS =>
    rw [Term.group, Term.evaluate, evaluate_integers .shr ht (evaluatesTo_count64 hu),
      Symbol.onIntegers, moveUp_neg_natCast]
    rfl
  case shrU =>
    -- Without a sign, zeros come in from above.
    have hbits := Term.EvaluatesTo.of_integer (evaluate_toUnsigned64 ht)
    have hshift := evaluate_integers .shr hbits (evaluatesTo_count64 hu)
    rw [Symbol.onIntegers, moveUp_neg_natCast] at hshift
    exact evaluate_toSigned hshift
  case rotl =>
    rw [evaluate_help_two .i64Rotl ht hu, helped, Helper.apply, Operation.binary64]
    rfl
  case rotr =>
    rw [evaluate_help_two .i64Rotr ht hu, helped, Helper.apply, Operation.binary64]
    rfl

theorem evaluate_binaryForm {op : NumericOp} (hresult : op.result = op.operand) {f : Term}
    (hform : binaryForm op t u = .ok f) {x y : BitVec op.operand.width}
    (ht : t.EvaluatesTo around s (.ofInt op.operand x.toInt) s₁)
    (hu : u.EvaluatesTo around s₁ (.ofInt op.operand y.toInt) s₂)
    {r : Except TrapKind (BitVec op.operand.width)} (hr : op.operator.combine x y = some r) :
    f.evaluate around s
      = Run.result (outcomeOf op.result (r.map (BitVec.setWidth op.result.width))) s₂ := by
  obtain ⟨opcode, name, category, o, type, result⟩ := op
  obtain rfl : result = type := hresult
  have hsame : r.map (BitVec.setWidth result.width) = r := by
    cases r <;> simp [Except.map]
  rw [hsame, ← given_reading]
  cases result with
  | i32 =>
    refine (evaluate_binaryForm32 hform ht hu).trans ?_
    exact congrArg (fun r => Run.result (given .i32 r) s₂)
      ((Operation.binary32_toInt o x y).trans (congrArg Operation.reading hr))
  | i64 =>
    refine (evaluate_binaryForm64 hform ht hu).trans ?_
    exact congrArg (fun r => Run.result (given .i64 r) s₂)
      ((Operation.binary64_toInt o x y).trans (congrArg Operation.reading hr))

/-! ### Forms of the unary operators and conversions -/

/-- The name under which a unary operator stands in the table. -/
def unaryName (o : Operator) (result : ValueType) : String := result.name ++ "." ++ o.word

theorem name_eq_unaryName : ∀ op ∈ NumericOp.table,
    (op.category = .unary ∨ op.category = .convert) →
      op.name = unaryName op.operator op.result := by decide +kernel

/-- The big integer of a number. -/
theorem evaluate_bigInt (ht : t.EvaluatesTo around s (.i32 a) s₁) :
    (Term.call .bigInt [t]).evaluate around s = .ok (.integer a) s₁ := by
  obtain ⟨p, ht, hp⟩ := ht.number
  refine (evaluate_call_one ht).trans (call_of_applyPure ?_)
  rw [Callee.applyPure, hp.toInteger?]
  rfl

/-- Shifts up and down again by a number of places below 32. -/
theorem evaluate_extend32 {k : Nat} (hk : k < 32) (ht : t.EvaluatesTo around s (.i32 a) s₁) :
    (extend32 k t).evaluate around s = .ok (.word (Bits.shr32 (Bits.shl32 a k) k)) s₁ := by
  have hplaces {q : Number} (hq : q.Represents k) : q.toUInt32 % 32 = k := by
    rw [hq.toUInt32, Bits.unsigned_eq_toNat, BitVec.ofInt_natCast, BitVec.toNat_ofNat]
    omega
  obtain ⟨p, q, hp, hq, he⟩ := evaluate_numbers .shl ht (evaluatesTo_number k)
  have hshl : Bits.shl32 p.toInt32 (q.toUInt32 % 32) = Bits.shl32 a k := by
    rw [hplaces hq, hp.toInt32, Bits.shl32_eq_toInt, Bits.ofInt_signed, ← Bits.shl32_eq_toInt]
  rw [Symbol.onNumbers, hshl] at he
  have hup : (Term.group .shl t (.number k)).EvaluatesTo around s (.i32 (Bits.shl32 a k)) s₁ :=
    .of_word he
  obtain ⟨p', q', hp', hq', he'⟩ := evaluate_numbers .shr hup (evaluatesTo_number k)
  have hshr : Bits.shr32 p'.toInt32 (q'.toUInt32 % 32) = Bits.shr32 (Bits.shl32 a k) k := by
    rw [hplaces hq', hp'.toInt32, Bits.shr32_eq_toInt, Bits.ofInt_signed, ← Bits.shr32_eq_toInt]
  rw [Symbol.onNumbers, hshr] at he'
  exact he'

theorem exists_unaryForm {op : NumericOp} (hop : op ∈ NumericOp.table)
    (hcat : op.category = .unary ∨ op.category = .convert) {x : BitVec op.operand.width}
    (ht : t.EvaluatesTo around s (.ofInt op.operand x.toInt) s₁) :
    ∃ f, unaryForm op t = .ok f ∧ f.evaluate around s
      = Run.result (given op.result (Operation.unary op.operator op.operand x.toInt)) s₁ := by
  have hname := name_eq_unaryName op hop hcat
  have hresult : op.operator.unaryResult op.operand = some op.result := by
    have hregular := NumericOp.regular_of_mem op hop
    rcases hcat with hcat | hcat <;> simpa only [NumericOp.Regular, hcat] using hregular
  clear hop hcat
  obtain ⟨opcode, name, category, o, operand, result⟩ := op
  dsimp only at hname hresult x ht ⊢
  subst hname
  -- Of all operators and operands, only those of the table have a result.
  cases operand <;> cases o <;> cases hresult
  case i32.clz =>
    obtain ⟨p, ht, hp⟩ := ht.number
    refine ⟨_, rfl, (evaluate_call_one ht).trans (call_of_applyPure ?_)⟩
    rw [Callee.applyPure, hp.toInt32, Bits.clz32_eq_toNat, Bits.ofInt_signed, ← Bits.clz32_eq_toNat]
    rfl
  case i32.ctz =>
    refine ⟨_, rfl, ?_⟩
    rw [evaluate_help_one .i32Ctz ht]
    rfl
  case i32.popcnt =>
    refine ⟨_, rfl, ?_⟩
    rw [evaluate_help_one .i32Popcnt ht]
    rfl
  case i32.extend8S => exact ⟨_, rfl, evaluate_extend32 (k := 24) (by decide) ht⟩
  case i32.extend16S => exact ⟨_, rfl, evaluate_extend32 (k := 16) (by decide) ht⟩
  case i32.extendI32S => exact ⟨_, rfl, evaluate_bigInt ht⟩
  case i32.extendI32U =>
    have hbits : (Term.binary .ushr t (.number 0)).evaluate around s
        = .ok (.word (Bits.unsigned 32 x.toInt)) s₁ := evaluate_toUnsigned32 ht
    exact ⟨_, rfl, evaluate_bigInt (.of_word hbits)⟩
  case i64.clz =>
    refine ⟨_, rfl, ?_⟩
    rw [evaluate_help_one .i64Clz ht]
    rfl
  case i64.ctz =>
    refine ⟨_, rfl, ?_⟩
    rw [evaluate_help_one .i64Ctz ht]
    rfl
  case i64.popcnt =>
    refine ⟨_, rfl, ?_⟩
    rw [evaluate_help_one .i64Popcnt ht]
    rfl
  case i64.extend8S => exact ⟨_, rfl, evaluate_toSigned ht.integer⟩
  case i64.extend16S => exact ⟨_, rfl, evaluate_toSigned ht.integer⟩
  case i64.extend32S => exact ⟨_, rfl, evaluate_toSigned ht.integer⟩
  case i64.wrapI64 =>
    refine ⟨_, rfl, ?_⟩
    rw [evaluate_help_one .i32WrapI64 ht]
    rfl

/-! ### Forms of the comparisons -/

/-- The relation of integers that an operator of the script language decides. -/
def Symbol.relation : Symbol → Option (Int → Int → Bool)
  | .equal => some fun a b => decide (a = b)
  | .unequal => some fun a b => decide (a ≠ b)
  | .less => some fun a b => decide (a < b)
  | .greater => some fun a b => decide (b < a)
  | .lessEqual => some fun a b => decide (a ≤ b)
  | .greaterEqual => some fun a b => decide (b ≤ a)
  | _ => none

theorem lt_or_same {p q : Number} (hp : p.Represents a) (hq : q.Represents b) :
    (p.lt q || p.same q) = decide (a ≤ b) := by
  rw [hp.lt hq, hp.same hq, ← Bool.decide_or]
  exact decide_eq_decide.mpr Int.le_iff_lt_or_eq.symm

/-- Numbers and big integers are compared as the integers that they are. -/
theorem evaluate_relation (symbol : Symbol) {relation : Int → Int → Bool}
    (h : symbol.relation = some relation) (type : ValueType)
    (ht : t.EvaluatesTo around s (.ofInt type a) s₁)
    (hu : u.EvaluatesTo around s₁ (.ofInt type b) s₂) :
    (Term.binary symbol t u).evaluate around s = .ok (.truth (relation a b)) s₂ := by
  cases type with
  | i32 =>
    obtain ⟨p, q, hp, hq, he⟩ := evaluate_numbers symbol ht hu
    rw [he]
    cases symbol <;> cases h <;> rw [Symbol.onNumbers]
    case i32.equal => rw [hp.same hq]; rfl
    case i32.unequal => rw [hp.same hq, ← decide_not]; rfl
    case i32.less => rw [hp.lt hq]; rfl
    case i32.greater => rw [hq.lt hp]; rfl
    case i32.lessEqual => rw [lt_or_same hp hq]; rfl
    case i32.greaterEqual =>
      have hsame : p.same q = q.same p := by rw [hp.same hq, hq.same hp]; simp only [eq_comm]
      rw [hsame, lt_or_same hq hp]
      rfl
  | i64 =>
    rw [evaluate_integers symbol ht hu]
    cases symbol <;> cases h <;> rfl

/-- An operand read as unsigned. -/
theorem evaluatesTo_unsignedForm (type : ValueType) {x : BitVec type.width}
    (ht : t.EvaluatesTo around s (.ofInt type x.toInt) s₁) :
    (unsignedForm type t).EvaluatesTo around s
    (.ofInt type (Bits.unsigned type.width x.toInt)) s₁ := by
  cases type with
  | i32 => exact .of_word (evaluate_toUnsigned32 ht)
  | i64 => exact .of_integer (evaluate_toUnsigned64 ht)

theorem evaluate_comparisonForm {op : NumericOp} {f : Term} (h : comparisonForm op t u = .ok f)
    {x y : BitVec op.operand.width} (ht : t.EvaluatesTo around s (.ofInt op.operand x.toInt) s₁)
    (hu : u.EvaluatesTo around s₁ (.ofInt op.operand y.toInt) s₂) :
    f.evaluate around s = Run.present
      ((Operation.comparison op.operator op.operand x.toInt y.toInt).map .truth) s₂ := by
  obtain ⟨opcode, name, category, o, type, result⟩ := op
  dsimp only at x y ht hu ⊢
  -- Without signs the operands are naturals, which compare as the integers they are.
  have hlt (m n : Nat) : decide ((m : Int) < n) = decide (m < n) :=
    decide_eq_decide.mpr Int.ofNat_lt
  have hle (m n : Nat) : decide ((m : Int) ≤ n) = decide (m ≤ n) :=
    decide_eq_decide.mpr Int.ofNat_le
  have ht' := evaluatesTo_unsignedForm type ht
  have hu' := evaluatesTo_unsignedForm type hu
  cases o <;> cases h
  case eqz => exact evaluate_relation .equal rfl type ht hu
  case eq => exact evaluate_relation .equal rfl type ht hu
  case ne => exact evaluate_relation .unequal rfl type ht hu
  case ltS => exact evaluate_relation .less rfl type ht hu
  case gtS => exact evaluate_relation .greater rfl type ht hu
  case leS => exact evaluate_relation .lessEqual rfl type ht hu
  case geS => exact evaluate_relation .greaterEqual rfl type ht hu
  case ltU => rw [evaluate_relation .less rfl type ht' hu', hlt]; rfl
  case gtU => rw [evaluate_relation .greater rfl type ht' hu', hlt]; rfl
  case leU => rw [evaluate_relation .lessEqual rfl type ht' hu', hle]; rfl
  case geU => rw [evaluate_relation .greaterEqual rfl type ht' hu', hle]; rfl

theorem exists_comparisonForm {op : NumericOp}
    (h : op.operator = .eqz ∨ op.operator.isComparison) (t u : Term) :
    ∃ f, comparisonForm op t u = .ok f := by
  obtain ⟨opcode, name, category, o, type, result⟩ := op
  cases o <;> first | exact ⟨_, rfl⟩ | simp [Operator.isComparison, Operator.compare] at h

theorem exists_binaryForm {op : NumericOp} (h : op.operator.isBinary) (t u : Term) :
    ∃ f, binaryForm op t u = .ok f := by
  obtain ⟨opcode, name, category, o, type, result⟩ := op
  cases type <;> cases o <;>
    first | exact ⟨_, rfl⟩ | simp [Operator.isBinary, Operator.combine] at h

/-! ### From operands to operators -/

theorem ofExpressions_cons {e : Expression} {es : List Expression} {ts : List Term}
    (h : ofExpressions (e :: es) = .ok ts) :
    ∃ t us, ts = t :: us ∧ ofExpression e = .ok t ∧ ofExpressions es = .ok us := by
  rw [ofExpressions] at h
  cases ht : ofExpression e with
  | error x => rw [ht] at h; cases h
  | ok t =>
    cases hus : ofExpressions es with
    | error x => rw [ht, hus] at h; cases h
    | ok us =>
      rw [ht, hus] at h
      cases h
      exact ⟨t, us, rfl, rfl, rfl⟩

theorem ofExpressions_nil {ts : List Term} (h : ofExpressions [] = .ok ts) : ts = [] := by
  rw [ofExpressions] at h
  cases h
  rfl

theorem evaluateAll_cons_ok {ts : List Term} {d : Datum} {ds : List Datum}
    (h : Term.evaluateAll around (t :: ts) s = .ok (d :: ds) s₂) :
    ∃ s₁, t.evaluate around s = .ok d s₁ ∧ Term.evaluateAll around ts s₁ = .ok ds s₂ := by
  simp only [Term.evaluateAll, bind, EStateM.bind] at h
  cases ht : t.evaluate around s with
  | error x s₁ => rw [ht] at h; cases h
  | ok d' s₁ =>
    cases hts : Term.evaluateAll around ts s₁ with
    | error x s₂ => simp only [ht, hts] at h; cases h
    | ok ds' s₃ =>
      simp only [ht, hts] at h
      cases h
      exact ⟨s₁, rfl, hts⟩

theorem evaluateAll_nil (h : Term.evaluateAll around [] s = .ok [] s₁) : s₁ = s := by
  cases h
  rfl

/-- A cell that holds a word, as an operand. -/
theorem Term.EvaluatesTo.of_cell {type : ValueType} {w : BitVec type.width} {c : Cell}
    (hc : c.toValue = Operation.valueOf type w)
    (ht : t.evaluate around s = .ok (.scalar (.ofCell c)) s₁) :
    t.EvaluatesTo around s (.ofInt type w.toInt) s₁ := by
  have hrepresents := Scalar.ofCell_represents c
  rw [hc] at hrepresents
  exact ⟨.ofCell c, ht, hrepresents⟩

/-- What a form gives, as a condition: whether it is not zero. -/
def truthOf (type : ValueType) : Except TrapKind (BitVec type.width) → Except Failure Datum
  | .ok r => .ok (.truth (decide (r ≠ 0#_)))
  | .error kind => .error (.trap kind)

/-- The form of a comparison, with its values of 1 and 0 and without. -/
theorem evaluate_comparison {op : NumericOp} (hresult : op.result = .i32) {f : Term}
    (hform : comparisonForm op t u = .ok f) {x y : BitVec op.operand.width}
    (ht : t.EvaluatesTo around s (.ofInt op.operand x.toInt) s₁)
    (hu : u.EvaluatesTo around s₁ (.ofInt op.operand y.toInt) s₂) {holds : Bool}
    (hholds : op.operator.compare x y = some holds) :
    f.evaluate around s = .ok (.truth holds) s₂ ∧
      (Term.parens (.conditional f (.number 1) (.number 0))).evaluate around s
        = Run.result (outcomeOf op.result (.ok ((BitVec.ofBool holds).setWidth _))) s₂ := by
  have hf : f.evaluate around s = .ok (.truth holds) s₂ := by
    rw [evaluate_comparisonForm hform ht hu, Operation.comparison_toInt, hholds]
    rfl
  refine ⟨hf, ?_⟩
  rw [Term.evaluate, Term.evaluate]
  simp only [bind, EStateM.bind, hf]
  rw [hresult]
  cases holds <;> rfl

/-- A value used as a condition is compared with zero. -/
theorem evaluate_nonzero {outcome : Except TrapKind (BitVec 32)}
    (ht : t.evaluate around s = Run.result (outcomeOf .i32 outcome) s₁) :
    (Term.binary .unequal t (.number 0)).evaluate around s
      = Run.result (truthOf .i32 outcome) s₁ := by
  cases outcome with
  | error kind =>
    rw [Term.evaluate]
    simp only [bind, EStateM.bind, ht]
    rfl
  | ok r =>
    have hterm : t.EvaluatesTo around s (.i32 r.toInt) s₁ := .of_word ht
    rw [evaluate_relation .unequal rfl .i32 hterm (evaluatesTo_number 0)]
    have hzero : decide (r.toInt ≠ 0) = decide (r ≠ 0#32) :=
      decide_eq_decide.mpr (not_congr (Operation.toInt_eq_zero_iff r))
    rw [hzero]
    rfl

/-- What a term is worth, as an expression and as a condition, for an outcome of an operator. -/
structure Computes (around : Surroundings σ) (e : Expression) (s s₁ : Variables σ)
    (type : ValueType) (outcome : Except TrapKind (BitVec type.width)) : Prop where
  value : ∃ t, ofExpression e = .ok t ∧
    t.evaluate around s = Run.result (outcomeOf type outcome) s₁
  condition : type = .i32 → ∃ c, ofCondition e = .ok c ∧
    c.evaluate around s = Run.result (truthOf type outcome) s₁

/-- Expressions that are no comparisons become conditions by a comparison with zero. -/
theorem Computes.of_value {e : Expression} {type : ValueType}
    {outcome : Except TrapKind (BitVec type.width)}
    (hplain : ∀ t, asCondition e t = .binary .unequal t (.number 0)) {f : Term}
    (hf : ofExpression e = .ok f)
    (hvalue : f.evaluate around s = Run.result (outcomeOf type outcome) s₁) :
    Computes around e s s₁ type outcome := by
  refine ⟨⟨f, hf, hvalue⟩, ?_⟩
  rintro rfl
  refine ⟨_, ?_, evaluate_nonzero hvalue⟩
  rw [ofCondition, hf, ← hplain]
  rfl

theorem Computes.of_comparison {op : NumericOp} (hresult : op.result = .i32)
    {a b : Expression} (ha : ofExpression a = .ok t) (hb : ofExpression b = .ok u)
    (hcompares : op.operator = .eqz ∨ op.operator.isComparison) {x y : BitVec op.operand.width}
    (ht : t.EvaluatesTo around s (.ofInt op.operand x.toInt) s₁)
    (hu : u.EvaluatesTo around s₁ (.ofInt op.operand y.toInt) s₂) {holds : Bool}
    (hholds : op.operator.compare x y = some holds) :
    Computes around (.compare op a b) s s₂ op.result (.ok ((BitVec.ofBool holds).setWidth _)) := by
  obtain ⟨f, hform⟩ := exists_comparisonForm hcompares t u
  obtain ⟨hcondition, hvalue⟩ := evaluate_comparison hresult hform ht hu hholds
  have hof : ofExpression (.compare op a b)
      = .ok (.parens (.conditional f (.number 1) (.number 0))) := by
    rw [ofExpression, ha, hb]
    exact congrArg
      (fun r => r >>= fun c => pure (Term.parens (.conditional c (.number 1) (.number 0)))) hform
  refine ⟨⟨_, hof, hvalue⟩, fun _ => ⟨f, by rw [ofCondition, hof]; rfl, ?_⟩⟩
  rw [hcondition, hresult]
  cases holds <;> rfl

theorem length_evaluateAll {ts : List Term} : ∀ {s s₁ : Variables σ} {ds : List Datum},
    Term.evaluateAll around ts s = .ok ds s₁ → ds.length = ts.length := by
  induction ts with
  | nil => rintro s s₁ ds ⟨⟩; rfl
  | cons t ts ih =>
    intro s s₁ ds h
    simp only [Term.evaluateAll, bind, EStateM.bind] at h
    split at h
    · next d s' hd =>
      split at h
      · next ds' s'' hds =>
        cases h
        rw [List.length_cons, ih hds, List.length_cons]
      · cases h
    · cases h

/-- What the operands of an operator give, one after another. -/
inductive Operands (around : Surroundings σ) (type : ValueType) :
    Variables σ → List Expression → List (BitVec type.width) → Variables σ → Prop
  | nil {s : Variables σ} : Operands around type s [] [] s
  | cons {s s₁ s₂ : Variables σ} {a : Expression} {t : Term} {es : List Expression}
      {w : BitVec type.width} {ws : List (BitVec type.width)} (ha : ofExpression a = .ok t)
      (ht : t.EvaluatesTo around s (.ofInt type w.toInt) s₁)
        (rest : Operands around type s₁ es ws s₂) :
      Operands around type s (a :: es) (w :: ws) s₂

theorem operands_of_evaluateAll {type : ValueType} {es : List Expression} :
    ∀ {ts : List Term} {ws : List (BitVec type.width)} {cells : List Cell} {s : Variables σ},
      ofExpressions es = .ok ts → cells.map Cell.toValue = ws.map (Operation.valueOf type) →
      Term.evaluateAll around ts s = .ok (cells.map fun c => .scalar (.ofCell c)) s₁ →
      Operands around type s es ws s₁ := by
  -- The induction is on the operands, each of which starts where the one before it ended.
  induction es with
  | nil =>
    intro ts ws cells s hts hcells heval
    obtain rfl := ofExpressions_nil hts
    obtain rfl : cells = [] := by
      have hlen := length_evaluateAll heval
      exact List.length_eq_zero_iff.mp (by simpa using hlen)
    obtain rfl : ws = [] := List.map_eq_nil_iff.mp hcells.symm
    obtain rfl := evaluateAll_nil heval
    exact .nil
  | cons a es ih =>
    intro ts ws cells s hts hcells heval
    obtain ⟨t, us, rfl, ha, hus⟩ := ofExpressions_cons hts
    obtain ⟨c, cells, rfl⟩ : ∃ c cells', cells = c :: cells' := by
      have hlen := length_evaluateAll heval
      rw [List.length_map, List.length_cons] at hlen
      exact List.exists_cons_of_length_eq_add_one hlen
    obtain ⟨w, ws, rfl, hw, hws⟩ := List.map_eq_cons_iff.mp hcells.symm
    obtain ⟨s', ht, hrest⟩ := evaluateAll_cons_ok heval
    exact .cons ha (.of_cell hw.symm ht) (ih hus hws.symm hrest)

theorem exists_zero (around : Surroundings σ) (type : ValueType) :
    ∃ z, ofExpression (.constant type 0) = .ok z ∧
    ∀ s : Variables σ,
      z.EvaluatesTo around s (.ofInt type (BitVec.ofNat type.width 0).toInt) s := by
  rw [BitVec.toInt_zero]
  cases type with
  | i32 => exact ⟨.number 0, rfl, fun s => evaluatesTo_number 0⟩
  | i64 => exact ⟨.bigInteger 0, rfl, fun s => evaluatesTo_bigInteger 0⟩

theorem computes_unary {op : NumericOp} (hop : op ∈ NumericOp.table)
    (hcat : op.category = .unary ∨ op.category = .convert) {a : Expression}
    (ha : ofExpression a = .ok t) {w : BitVec op.operand.width}
    (ht : t.EvaluatesTo around s (.ofInt op.operand w.toInt) s₁) :
    ∃ outcome, op.meaning [w] = some outcome ∧
      Computes around (.unary op.result op a) s s₁ op.result outcome := by
  have hresult : op.operator.unaryResult op.operand = some op.result := by
    have hregular := NumericOp.regular_of_mem op hop
    rcases hcat with hcat | hcat <;> simpa only [NumericOp.Regular, hcat] using hregular
  obtain ⟨r, hr⟩ := Operation.isSome_transform hresult op.result.width w
  refine ⟨.ok r, ?_, ?_⟩
  · rcases hcat with hcat | hcat <;> simp only [NumericOp.meaning, hcat, hr] <;> rfl
  · obtain ⟨f, hform, hf⟩ := exists_unaryForm hop hcat ht
    rw [Operation.unary_toInt _ _ _ hresult, hr] at hf
    exact .of_value (fun _ => rfl) (by rw [ofExpression, ha]; exact hform) hf

/-- The forms of the operators compute what WebAssembly says. -/
theorem computes_ofOperator {op : NumericOp} (hop : op ∈ NumericOp.table) {es : List Expression}
    {e : Expression} (he : Expression.ofOperator op es = some e)
    {ws : List (BitVec op.operand.width)} (hes : Operands around op.operand s es ws s₁) :
    ∃ outcome, op.meaning ws = some outcome ∧ Computes around e s s₁ op.result outcome := by
  have hregular := NumericOp.regular_of_mem op hop
  -- No operator takes more than two operands, and each category takes a number of its own.
  rcases hes with _ | ⟨ha, ht, _ | ⟨hb, hu, _ | _⟩⟩
  · cases he
  case cons.nil a t w =>
    simp only [Expression.ofOperator] at he
    cases hcat : op.category <;> simp only [hcat] at he <;> cases he
    case test =>
      rw [NumericOp.Regular, hcat] at hregular
      obtain ⟨holds, hholds⟩ := Operation.isSome_compare (.inl hregular.1) w 0#_
      obtain ⟨z, hz, hterm⟩ := exists_zero around op.operand
      refine ⟨_, by simp only [NumericOp.meaning, hcat, hholds]; rfl, ?_⟩
      exact .of_comparison hregular.2 ha hz (.inl hregular.1) ht (hterm _) hholds
    case unary => exact computes_unary hop (.inl hcat) ha ht
    case convert => exact computes_unary hop (.inr hcat) ha ht
  case cons.cons.nil s' a t w b u v =>
    simp only [Expression.ofOperator] at he
    cases hcat : op.category <;> simp only [hcat] at he <;> cases he
    case compare =>
      rw [NumericOp.Regular, hcat] at hregular
      obtain ⟨holds, hholds⟩ := Operation.isSome_compare (.inr hregular.1) w v
      refine ⟨_, by simp only [NumericOp.meaning, hcat, hholds]; rfl, ?_⟩
      exact .of_comparison hregular.2 ha hb (.inr hregular.1) ht hu hholds
    case binary =>
      rw [NumericOp.Regular, hcat] at hregular
      obtain ⟨r, hr⟩ := Operation.isSome_combine hregular.1 w v
      obtain ⟨f, hform⟩ := exists_binaryForm hregular.1 t u
      refine ⟨r.map (BitVec.setWidth _), by simp only [NumericOp.meaning, hcat, hr]; rfl, ?_⟩
      refine .of_value (fun _ => rfl) (by rw [ofExpression, ha, hb]; exact hform) ?_
      exact evaluate_binaryForm hregular.2 hform ht hu hr
  · cases he

/-! ### From instructions to values -/

theorem ofOpcode?_of_mem : ∀ op ∈ NumericOp.table, NumericOp.ofOpcode? op.opcode = some op := by
  decide +kernel

/-- For each operator, a builder makes an expression of operands of the right types, and what is
generated for it computes what WebAssembly says: as a value and, for an `i32`, as a condition.  It
traps for a divisor of zero, and when the least integer is divided by -1, but at no other time. -/
theorem numeric_form_computes (op : NumericOp) (hop : op ∈ NumericOp.table) (ctx : IR.Context)
    (f : IR.Frame) (fs : List IR.Frame) (temps : Array IR.Temp) (label pos : Nat)
    (pend below es : List Expression) (hheight : f.height = below.length)
    (hes : es.map Expression.type = List.replicate op.arity op.operand) :
    ∃ e : Expression, e.type = op.result ∧
      IR.Build.step ctx (.numeric op.opcode)
          ⟨(pend ++ es).reverse ++ below, f :: fs, temps, label, pos⟩
        = .ok ((), ⟨(pend ++ [e]).reverse ++ below, f :: fs, temps, label, pos⟩) ∧
      ∀ {σ : Type} (around : Surroundings σ) (s s₁ : Variables σ) (ts : List Term)
        (ws : List (BitVec op.operand.width)) (cells : List Cell),
        ofExpressions es = .ok ts →
        cells.map Cell.toValue = ws.map (Operation.valueOf op.operand) →
        Term.evaluateAll around ts s = .ok (cells.map fun c => .scalar (.ofCell c)) s₁ →
        ∃ outcome, op.meaning ws = some outcome ∧
          (∃ t, ofExpression e = .ok t ∧
            t.evaluate around s = Run.result (outcomeOf op.result outcome) s₁) ∧
          (op.result = .i32 → ∃ c, ofCondition e = .ok c ∧
            c.evaluate around s = Run.result (truthOf op.result outcome) s₁) ∧
          ∀ kind, outcome = .error kind ↔ op.category = .binary ∧ ∃ a b, ws = [a, b] ∧
            ((op.operator.divides ∧ b = 0#_ ∧ kind = .divideByZero) ∨
              (op.operator = .divS ∧ a = BitVec.intMin _ ∧ b = -1#_ ∧
                kind = .integerOverflow)) := by
  have hsig : (Instruction.numeric op.opcode).signature ctx.module ctx.localTypes
      = some ⟨List.replicate op.arity op.operand, [op.result]⟩ := by
    rw [Instruction.signature, ofOpcode?_of_mem op hop]
    rfl
  have hwork (xs : List Expression) :
      (Instruction.numeric op.opcode).work ctx.module ctx.localTypes xs
      = (Expression.ofOperator op xs).map .value := by
    rw [Instruction.work, ofOpcode?_of_mem op hop]
    rfl
  have hlen : es.length = op.arity := by
    rw [← List.length_map (f := Expression.type), hes, List.length_replicate]
  obtain ⟨e, he, htype⟩ := IR.Build.exists_ofOperator hop hlen
  refine ⟨e, htype, ?_, ?_⟩
  · rw [IR.Build.step_plain hsig, IR.Build.plain]
    rcases IR.Build.popValues_cases ctx fs (pend ++ es) temps label pos
      (List.replicate op.arity op.operand) hheight with
      ⟨rest, xs, hpend, hxs, hpop⟩ | ⟨hno, -⟩
    -- The operands that are popped are those given, as there are equally many.
    · have hsame : xs.length = es.length := by
        rw [← List.length_map (f := Expression.type), hxs, List.length_replicate, hlen]
      obtain ⟨rfl, rfl⟩ := List.append_inj' hpend hsame.symm
      rw [IR.Build.bind_of_ok hpop, hwork, he]
      exact IR.Build.push_eq e
    · refine (hno ?_).elim
      rw [List.map_append, hes]
      exact List.suffix_append _ _
  · intro σ around s s₁ ts ws cells hts hcells heval
    obtain ⟨outcome, hmeaning, hcomputes⟩ :=
      computes_ofOperator hop he (operands_of_evaluateAll hts hcells heval)
    refine ⟨outcome, hmeaning, hcomputes.value, hcomputes.condition, fun kind => ?_⟩
    rw [← NumericOp.meaning_eq_error_iff, hmeaning, Option.some_inj]

/-- The least `i64` has no quotient by -1. -/
theorem numeric_form_computes_overflow :
    ∃ e t, ofExpression e = .ok t ∧ ∀ s : Variables Unit,
      t.evaluate ⟨0, fun _ _ => throw .stuck, 0, fun _ _ _ => true⟩ s
        = .error (.trap .integerOverflow) s := by
  obtain ⟨e, -, -, h⟩ := numeric_form_computes ⟨0x7f, "i64.div_s", .binary, .divS, .i64, .i64⟩
    (by decide) ⟨{}, 0, none, ⟨[], []⟩, #[]⟩ { (default : IR.Frame) with height := 0 } []
      #[] 0 0 [] []
    [.literal (.i64 (-0x8000000000000000)), .literal (.i64 (-1))] rfl rfl
  have hrun (s : Variables Unit) := h ⟨0, fun _ _ => throw .stuck, 0, fun _ _ _ => true⟩ s s
    [.bigInteger (-0x8000000000000000), .bigInteger (-1)] [BitVec.intMin 64, -1#64]
    [.plain (.i64 (-0x8000000000000000)), .plain (.i64 (-1))] rfl (by decide) rfl
  obtain ⟨-, -, ⟨t, ht, -⟩, -⟩ := hrun ⟨#[], #[], { world := () }⟩
  refine ⟨e, t, ht, fun s => ?_⟩
  obtain ⟨outcome, hmeaning, ⟨t', ht', hvalue⟩, -⟩ := hrun s
  rw [ht] at ht'
  cases ht'
  have hovers : NumericOp.meaning ⟨0x7f, "i64.div_s", .binary, .divS, .i64, .i64⟩
      [BitVec.intMin 64, -1#64] = some (.error .integerOverflow) := by decide
  rw [hovers] at hmeaning
  cases hmeaning
  exact hvalue

end Script
end WasmScript
