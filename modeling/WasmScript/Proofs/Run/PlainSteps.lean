/-
  WasmScript/Proofs/Run/PlainSteps.lean
  =====================================
  **Plain instructions at work** — what they do with the values of their operands.

  `perform` says it once, without a stack and without expressions.  The stack machine takes
  the values from its stack, performs, and leaves the results there (`step_perform`); what a
  builder makes of the instruction evaluates its operands, performs, and gives the results
  (`evaluate_work`, `execute_work`).
-/
import WasmScript.Proofs.Run.Arrivals

namespace WasmScript

open IR (Variables Surroundings Expression Statement Work)
open IR.Run
open IR.Expression (usesAll usesAll_subset)

variable {σ : Type}

namespace IR.Run

/-- What a plain instruction makes of the values of its operands. -/
def perform (around : Surroundings σ) : Instruction → List Cell → Run σ (List Cell)
  | .call function, args => act (around.call function args)
  | .localGet index, [] => do pure [← present (← get).locals[index]?]
  | .localSet index, [c] => do
    setLocal index c
    pure []
  | .localTee index, [c] => do
    setLocal index c
    pure [c]
  | .globalGet index, [] => do pure [← act (.getGlobal around.place index)]
  | .globalSet index, [c] => do
    act (.setGlobal around.place index c)
    pure []
  | .const v, [] => pure [.plain v]
  | .numeric opcode, cells => do
    let op ← present (NumericOp.ofOpcode? opcode)
    pure [.plain (← result (Operation.apply op (cells.map Cell.toValue)))]
  | .load opcode arg, [base] => do
    let access ← present (Access.ofOpcode? opcode)
    let n ← toI32 base
    let n ← act
      (.onOwnMemory around.place
        (LinearMemory.load access.accessor (Bits.unsigned32 (n + arg.offset))))
    pure [Operation.loaded access n]
  | .store opcode arg, [base, c] => do
    let access ← present (Access.ofOpcode? opcode)
    let n ← result (Operation.stored access c.toValue)
    let base ← toI32 base
    act (.onOwnMemory around.place
      (LinearMemory.store access.accessor (Bits.unsigned32 (base + arg.offset)) n))
    pure []
  | .memorySize, [] => do pure [← act (.memorySize around.place)]
  | .memoryGrow, [delta] => do pure [← act (.memoryGrow around.place (← toAddress delta))]
  | .memoryCopy, [destination, source, length] => do
    let n ← toAddress length
    let s ← toAddress source
    let d ← toAddress destination
    act (.onOwnMemory around.place (LinearMemory.copy d s n))
    pure []
  | .memoryFill, [destination, value, length] => do
    let n ← toAddress length
    let v ← toI32 value
    let d ← toAddress destination
    act (.onOwnMemory around.place (LinearMemory.fill d v n))
    pure []
  | _, _ => throw .stuck

/-- What is performed has nothing to do with temporaries. -/
theorem dependsOn_perform (around : Surroundings σ) (i : Instruction) (cells : List Cell) :
    DependsOn [] (perform around i cells) := by
  unfold perform
  split
  · exact .act _
  · next index =>
    exact .get (f := fun v => v.locals[index]?) (k := fun c => do pure [← present c])
      (fun _ _ _ => rfl) fun c => .bind (.present c) fun _ => .pure _
  · exact .bind (.setLocal _ _) fun _ => .pure _
  · exact .bind (.setLocal _ _) fun _ => .pure _
  · exact .bind (.act _) fun _ => .pure _
  · exact .bind (.act _) fun _ => .pure _
  · exact .pure _
  · exact .bind (.present _) fun _ => .bind (.result _) fun _ => .pure _
  · exact .bind (.present _) fun _ => .bind (.toI32 _) fun _ => .bind (.act _) fun _ => .pure _
  · exact .bind (.present _) fun _ => .bind (.result _) fun _ => .bind (.toI32 _) fun _ =>
      .bind (.act _) fun _ => .pure _
  · exact .bind (.act _) fun _ => .pure _
  · exact .bind (.toAddress _) fun _ => .bind (.act _) fun _ => .pure _
  · exact .bind (.toAddress _) fun _ => .bind (.toAddress _) fun _ => .bind (.toAddress _) fun _ =>
      .bind (.act _) fun _ => .pure _
  · exact .bind (.toAddress _) fun _ => .bind (.toI32 _) fun _ => .bind (.toAddress _) fun _ =>
      .bind (.act _) fun _ => .pure _
  · exact .throw _

end IR.Run

namespace Stack

/-! ### The stack machine -/

variable {α β γ δ : Type}

/-- What the stack machine comes to where a structured run comes to something; `f` tells its result
and its operands. -/
def mirrored (f : β → α × List Cell) : EStateM.Result Failure (Variables σ) β → RunOutcome σ α
  | .ok b v => .ok ((f b).1, ⟨(f b).2, v.locals, v.store⟩)
  | .error e v => .error (e, v.store)

/-- Whether the machine, with certain operands, does what a structured run does. -/
def Mirrors (operands : List Cell) (x : Run σ α) (f : β → α × List Cell) (y : IR.Run σ β) : Prop :=
  ∀ v : Variables σ, outcome (x ⟨operands, v.locals, v.store⟩) = mirrored f (y v)

/-- Taking a number from the stack. -/
theorem Run.popI32_of_toValue {c : Cell} {n : Int} (h : c.toValue = .i32 n) (operands : List Cell)
    (locals : Array Cell) (store : Store σ) :
    popI32 ⟨c :: operands, locals, store⟩ = .ok n ⟨operands, locals, store⟩ := by
  have hpop : pop ⟨c :: operands, locals, store⟩ = .ok c ⟨operands, locals, store⟩ := rfl
  rw [popI32, bind_at_ok hpop, h]
  rfl

/-- Taking as many values from the stack as lie on others. -/
theorem Run.popMany_of_length {cells : List Cell} {count : Nat} (h : cells.length = count)
    (below : List Cell) (locals : Array Cell) (store : Store σ) :
    popMany count ⟨cells.reverse ++ below, locals, store⟩ = .ok cells ⟨below, locals, store⟩ := by
  unfold popMany
  dsimp only
  rw [← h, ← List.length_reverse, if_pos (by simp), List.take_left, List.drop_left,
    List.reverse_reverse]

namespace Mirrors

variable {operands : List Cell} {f : β → α × List Cell} {g : δ → γ × List Cell}

theorem bind {x : Run σ α} {y : IR.Run σ β} {k : α → Run σ γ} {k' : β → IR.Run σ δ}
    (hx : Mirrors operands x f y) (hk : ∀ b, Mirrors (f b).2 (k (f b).1) g (k' b)) :
    Mirrors operands (x >>= k) g (y >>= k') := by
  intro v
  rw [outcome_bind, hx v]
  cases hy : y v with
  | ok b w =>
    rw [bind_at_ok hy]
    exact hk b w
  | error e w =>
    rw [bind_at_error hy]
    rfl

theorem pure {a : α} {b : β} (h : f b = (a, operands)) :
    Mirrors (σ := σ) operands (pure a) f (pure b) := by
  intro v
  change Except.ok (a, _) = Except.ok ((f b).1, _)
  rw [h]

theorem throw (e : Failure) : Mirrors (σ := σ) operands (throw e) f (throw e) := fun _ => rfl

theorem act (a : Action σ α) :
    Mirrors operands (Run.act a) (fun b => (b, operands)) (IR.Run.act a) := by
  intro v
  unfold Run.act IR.Run.act
  dsimp only
  cases a v.store <;> rfl

theorem result (r : Except Failure α) :
    Mirrors (σ := σ) operands (Run.result r) (fun b => (b, operands)) (IR.Run.result r) := by
  cases r with
  | ok a => exact pure rfl
  | error e => exact throw e

theorem present (a : Option α) :
    Mirrors (σ := σ) operands (Run.present a) (fun b => (b, operands)) (IR.Run.present a) := by
  cases a with
  | some a => exact pure rfl
  | none => exact throw _

theorem setLocal (index : Nat) (c : Cell) :
    Mirrors (σ := σ) operands (Run.setLocal index c) (fun b => (b, operands))
      (IR.Run.setLocal index c) := by
  intro v
  unfold Run.setLocal IR.Run.setLocal
  dsimp only
  split <;> rfl

theorem getLocal (index : Nat) :
    Mirrors (σ := σ) operands (Run.getLocal index) (fun b => (b, operands))
      (do IR.Run.present (← get).locals[index]?) :=
  fun v => present v.locals[index]? v

/-! What the machine takes from its operands or adds to them is no step of a structured run. -/

theorem pop {c : Cell} {k : Cell → Run σ γ} {y : IR.Run σ δ} (h : Mirrors operands (k c) g y) :
    Mirrors (c :: operands) (Run.pop >>= k) g y := h

theorem push {c : Cell} {k : Unit → Run σ γ} {y : IR.Run σ δ}
    (h : Mirrors (c :: operands) (k ()) g y) :
    Mirrors operands (Run.push c >>= k) g y := h

theorem popI32 (c : Cell) :
    Mirrors (σ := σ) (c :: operands) Run.popI32 (fun n => (n, operands)) (toI32 c) := by
  unfold Run.popI32 toI32
  refine pop ?_
  cases c.toValue with
  | i32 n => exact pure rfl
  | i64 n => exact throw _

theorem popUnsigned (c : Cell) :
    Mirrors (σ := σ) (c :: operands) Run.popUnsigned (fun n => (n, operands)) (toAddress c) :=
  (popI32 c).bind fun _ => pure rfl

theorem popMany (cells : List Cell) {k : List Cell → Run σ γ} {y : IR.Run σ δ}
    (h : Mirrors operands (k cells) g y) :
    Mirrors (cells.reverse ++ operands) (Run.popMany cells.length >>= k) g y := by
  intro v
  rw [bind_at_ok (Run.popMany_of_length rfl operands v.locals v.store)]
  exact h v

/-- An operator takes its operands from the stack and leaves its result there. -/
theorem numeric {opcode : Nat} {op : NumericOp} (hop : NumericOp.ofOpcode? opcode = some op)
    {cells : List Cell} (hlength : cells.length = op.arity) :
    Mirrors (σ := σ) (cells.reverse ++ operands) (Run.numeric opcode)
      (fun v => ((), .plain v :: operands))
      (IR.Run.result (Operation.apply op (cells.map Cell.toValue))) := by
  have hpush (r : Except Failure Value) :
      Mirrors (σ := σ) operands (do Run.push (.plain (← Run.result r)))
          (fun v => ((), .plain v :: operands))
        (IR.Run.result r) := by
    rw [← bind_pure (IR.Run.result r)]
    exact (result r).bind fun v => .push (.pure rfl)
  unfold Run.numeric Operation.apply
  rw [hop, show (Run.present (some op) : Run σ NumericOp) = Pure.pure op from rfl, pure_bind]
  cases hcategory : op.category <;> rw [NumericOp.arity, hcategory] at hlength
  case test =>
    obtain ⟨a, rfl⟩ := List.length_eq_one_iff.mp hlength
    exact .pop (hpush _)
  case unary | convert =>
    obtain ⟨a, rfl⟩ := List.length_eq_one_iff.mp hlength
    exact .pop (hpush _)
  case compare | binary =>
    obtain ⟨a, b, rfl⟩ := List.length_eq_two.mp hlength
    exact .pop (.pop (hpush _))

end Mirrors

/-- The stack machine performs a plain instruction on the values on its stack. -/
theorem step_perform {m : Module} {locals : Array ValueType} {i : Instruction} {type : FunctionType}
    (signature : i.signature m locals = some type) {cells : List Cell}
    (hcells : FitAll cells type.params) (around : IR.Surroundings σ) (below : List Cell) :
    Mirrors (cells.reverse ++ below) (Run.step (around.onStack m) i)
      (fun rs => (.next, rs.reverse ++ below))
      (perform around i cells) := by
  have hlength : cells.length = type.params.length := hcells.length_eq
  cases Instruction.hasType_of_signature signature with
  | @call function type found =>
    change Mirrors _ (Run.present (m.functionType? function) >>= _) _ _
    rw [found]
    change Mirrors _ (Run.popMany type.params.length >>= _) _ _
    rw [← hlength, perform, ← bind_pure (act _)]
    exact .popMany cells ((Mirrors.act _).bind fun rs => fun _ => rfl)
  | @localGet index =>
    obtain rfl := List.length_eq_zero_iff.mp hlength
    exact (Mirrors.getLocal index).bind fun _ => .pure rfl
  | @localSet index | @localTee index =>
    obtain ⟨c, rfl⟩ := List.length_eq_one_iff.mp hlength
    exact .pop ((Mirrors.setLocal index c).bind fun _ => .pure rfl)
  | globalGet =>
    obtain rfl := List.length_eq_zero_iff.mp hlength
    exact (Mirrors.act _).bind fun _ => .pure rfl
  | globalSet =>
    obtain ⟨c, rfl⟩ := List.length_eq_one_iff.mp hlength
    exact .pop ((Mirrors.act _).bind fun _ => .pure rfl)
  | const =>
    obtain rfl := List.length_eq_zero_iff.mp hlength
    exact fun _ => rfl
  | numeric found =>
    rw [List.length_replicate] at hlength
    rw [perform, found]
    exact (Mirrors.numeric found hlength).bind fun _ => .pure rfl
  | load =>
    obtain ⟨base, rfl⟩ := List.length_eq_one_iff.mp hlength
    refine (Mirrors.present _).bind fun access => ?_
    exact (Mirrors.popI32 base).bind fun n => (Mirrors.act _).bind fun _ => .pure rfl
  | store =>
    obtain ⟨base, c, rfl⟩ := List.length_eq_two.mp hlength
    refine (Mirrors.present _).bind fun access => .pop ((Mirrors.result _).bind fun n => ?_)
    exact (Mirrors.popI32 base).bind fun b => (Mirrors.act _).bind fun _ => .pure rfl
  | memorySize =>
    obtain rfl := List.length_eq_zero_iff.mp hlength
    exact (Mirrors.act _).bind fun _ => .pure rfl
  | memoryGrow =>
    obtain ⟨delta, rfl⟩ := List.length_eq_one_iff.mp hlength
    exact (Mirrors.popUnsigned delta).bind fun _ => (Mirrors.act _).bind fun _ => .pure rfl
  | memoryCopy =>
    obtain ⟨d, s, n, rfl⟩ := List.length_eq_three.mp hlength
    -- The last operand is on top, so it is taken first.
    refine (Mirrors.popUnsigned n).bind fun _ => (Mirrors.popUnsigned s).bind fun _ => ?_
    exact (Mirrors.popUnsigned d).bind fun _ => (Mirrors.act _).bind fun _ => .pure rfl
  | memoryFill =>
    obtain ⟨d, c, n, rfl⟩ := List.length_eq_three.mp hlength
    refine (Mirrors.popUnsigned n).bind fun _ => (Mirrors.popI32 c).bind fun _ => ?_
    exact (Mirrors.popUnsigned d).bind fun _ => (Mirrors.act _).bind fun _ => .pure rfl

end Stack

/-! ### What is built -/

/-- A constant in the signed form of its type is a literal. -/
theorem IR.Expression.constant_of_canonical {v : Value} (h : v.Canonical) :
    constant v.type v.toInt = .literal v := by
  cases v with
  | i32 n =>
    change Expression.literal (.i32 (Bits.signed 32 n)) = _
    rw [Bits.signed_eq_toInt, BitVec.toInt_ofInt_eq_self (by decide) h.1 h.2]
  | i64 n =>
    change Expression.literal (.i64 (Bits.signed 64 n)) = _
    rw [Bits.signed_eq_toInt, BitVec.toInt_ofInt_eq_self (by decide) h.1 h.2]

namespace IR.Run

variable {Γ : IR.Scope} {count : Nat} {known : List Nat} {F : Failure → Prop}
    {around : Surroundings σ}
variable {α β : Type}

/-- Two runs that come to the same from variables that fit. -/
def SameFrom (Γ : IR.Scope) (count : Nat) (known : List Nat) (x y : Run σ α) : Prop :=
  ∀ v : Variables σ, v.Fits Γ count known → x v = y v

theorem SameFrom.refl (x : Run σ α) : SameFrom Γ count known x x := fun _ _ => rfl

/-- What goes on with the value of an expression only has to be the same for what that may be. -/
theorem SameFrom.evaluate (ha : Unwatched Γ count F around) {e : Expression} (he : e.Typed Γ .value)
    (huses : e.uses ⊆ known) {k k' : Cell → Run σ α}
    (hk : ∀ c, c.Fits e.type → SameFrom Γ count known (k c) (k' c)) :
    SameFrom Γ count known (Run.evaluate around e >>= k) (Run.evaluate around e >>= k') := by
  intro v hv
  cases heval : Run.evaluate around e v with
  | error f w => rw [bind_at_error heval, bind_at_error heval]
  | ok c w =>
    obtain ⟨hc, hw⟩ := resultFits_of_ok ha he huses hv heval
    rw [bind_at_ok heval, bind_at_ok heval]
    exact hk c (he.fits_of_result hc) w hw

/-- The value of an `i32` expression is a number. -/
theorem SameFrom.i32 (ha : Unwatched Γ count F around) {e : Expression} (he : e.Typed Γ .value)
    (type : e.type = .i32) (huses : e.uses ⊆ known) {k k' : Cell → Run σ α}
    (hk : ∀ c n, c.toValue = .i32 n → SameFrom Γ count known (k c) (k' c)) :
    SameFrom Γ count known (Run.evaluate around e >>= k) (Run.evaluate around e >>= k') := by
  refine .evaluate ha he huses fun c hc => ?_
  rw [type] at hc
  obtain ⟨n, hn⟩ := exists_i32 hc
  exact hk c n hn

theorem toAddress_eq {c : Cell} {n : Int} (h : c.toValue = .i32 n) :
    toAddress (σ := σ) c = pure (Bits.unsigned32 n) := by
  rw [toAddress, toI32_eq h, pure_bind]

/-- The address of an access is its base and its offset, modulo 2^32. -/
theorem bind_effectiveAddress (hwatch : ∀ e c v, around.watch e c v = true) (base : Expression)
    (offset : Nat) (k : Nat → Run σ α) :
    (evaluate around (base.effectiveAddress offset) >>= fun c => toAddress c >>= k)
      = evaluate around base >>= fun c => toI32 c >>= fun n =>
        k (Bits.unsigned32 (n + offset)) := by
  unfold Expression.effectiveAddress
  split
  · next n =>
    -- A base that is a literal has been folded together with the offset.
    simp only [evaluate, watched_eq hwatch, pure_bind]
    exact congrArg k (Bits.unsigned_signed 32 (n + offset))
  · simp only [evaluate, watched_eq hwatch, bind_assoc, pure_bind]
    congr
    funext c
    congr
    funext n
    exact congrArg k (Bits.unsigned_unsigned 32 (n + offset))

theorem evaluateAll_one (e : Expression) :
    evaluateAll around [e] = (do pure [← evaluate around e]) := by
  simp [evaluateAll]

theorem evaluateAll_two (a b : Expression) :
    evaluateAll around [a, b] = (do
      let c ← evaluate around a
      let d ← evaluate around b
      pure [c, d]) := by
  simp [evaluateAll]

theorem evaluateAll_three (a b c : Expression) :
    evaluateAll around [a, b, c] = (do
      let x ← evaluate around a
      let y ← evaluate around b
      let z ← evaluate around c
      pure [x, y, z]) := by
  simp [evaluateAll]

theorem result_map (f : α → β) (r : Except Failure α) :
    result (σ := σ) (f <$> r) = (do pure (f (← result r))) := by
  cases r <;> rfl

theorem evaluate_zero (hwatch : ∀ e c v, around.watch e c v = true) (type : ValueType) :
    evaluate around (.constant type 0) = pure (.plain (.ofInt type 0)) := by
  cases type <;> exact watched_eq hwatch _ _

/-- An expression for an operator computes what the operator does. -/
theorem evaluate_ofOperator (hwatch : ∀ e c v, around.watch e c v = true) {op : NumericOp}
    {es : List Expression} {e : Expression} (h : Expression.ofOperator op es = some e) :
    evaluate around e = (do
      let cells ← evaluateAll around es
      pure (Cell.plain (← result (Operation.apply op (cells.map Cell.toValue))))) := by
  rcases es with _ | ⟨a, _ | ⟨b, _ | ⟨c, es⟩⟩⟩
  · cases h
  · rw [Expression.ofOperator] at h
    rw [evaluateAll_one]
    cases hcategory : op.category <;> rw [hcategory] at h <;> cases h
    all_goals
      simp [evaluate, watched_eq hwatch, result_map, Operation.apply, hcategory,
        evaluate_zero hwatch, Cell.toValue]
  · rw [Expression.ofOperator] at h
    rw [evaluateAll_two]
    cases hcategory : op.category <;> rw [hcategory] at h <;> cases h
    all_goals
      simp [evaluate, watched_eq hwatch, result_map, Operation.apply, hcategory]
  · cases h

end IR.Run

/-- Whether what is made of an instruction does what the instruction does.  Where that is a
statement, it goes on to the next, and the instruction has no results. -/
def IR.Work.Does (Γ : IR.Scope) (count : Nat) (known : List Nat) (around : Surroundings σ)
    (run : IR.Run σ (List Cell)) :
    Work → Prop
  | .value e => SameFrom Γ count known (do pure [← evaluate around e]) run
  | .statement s =>
    SameFrom Γ count known (do pure (← execute around s, [])) (do pure (.next, ← run))
  | .results function args types =>
    SameFrom Γ count known (evaluateOperand around (.multi function args types)) run

variable {Γ : IR.Scope} {count : Nat} {known : List Nat} {F : Failure → Prop}
    {around : Surroundings σ}

/-- A statement that is made of an instruction fails as that does, or goes on where that has no
results. -/
theorem IR.Work.Does.statement_cases {run : IR.Run σ (List Cell)} {s : Statement}
    (h : (Work.statement s).Does Γ count known around run) {v : Variables σ}
    (hv : v.Fits Γ count known) :
    (∃ e w, run v = .error e w ∧ execute around s v = .error e w)
      ∨ ∃ w, run v = .ok [] w ∧ execute around s v = .ok .next w := by
  have hsame := h v hv
  -- Both runs end alike, so only the two matching pairs of outcomes remain.
  cases hexec : execute around s v with
  | error e w =>
    rw [bind_at_error hexec] at hsame
    cases hrun : run v with
    | error e' w' =>
      rw [bind_at_error hrun] at hsame
      cases hsame
      exact .inl ⟨e, w, rfl, rfl⟩
    | ok rs w' =>
      rw [bind_at_ok hrun] at hsame
      cases hsame
  | ok ending w =>
    rw [bind_at_ok hexec] at hsame
    cases hrun : run v with
    | error e' w' =>
      rw [bind_at_error hrun] at hsame
      cases hsame
    | ok rs w' =>
      rw [bind_at_ok hrun] at hsame
      cases hsame
      exact .inr ⟨w, rfl, rfl⟩

/-- What comes of a call only has to be the same for as many results as there may be. -/
theorem IR.Run.SameFrom.call {α : Type} (ha : Unwatched Γ count F around) {function : Nat}
    {es : List Expression} {types : List ValueType}
    (found : Γ.module.functionType? function = some ⟨es.map Expression.type, types⟩)
    (hes : ∀ e ∈ es, e.Typed Γ .value) (huses : usesAll es ⊆ known) {j k : List Cell → IR.Run σ α}
    (hk : ∀ rs, rs.length = types.length → j rs = k rs) :
    SameFrom Γ count known (do j (← act (around.call function (← evaluateAll around es))))
      (do k (← act (around.call function (← evaluateAll around es)))) := by
  intro v hv
  cases heval : evaluateAll around es v with
  | error e w => rw [bind_at_error heval, bind_at_error heval]
  | ok cells w =>
    obtain ⟨hcells, hw⟩ := fits_of_ok ha hes huses hv heval
    have hmeets := (agree_call ha.toSurroundingsAgree found hcells w hw).2
    rw [bind_at_ok heval, bind_at_ok heval]
    cases hcall : act (around.call function cells) w with
    | error e u => rw [bind_at_error hcall, bind_at_error hcall]
    | ok rs u =>
      rw [hcall] at hmeets
      rw [bind_at_ok hcall, bind_at_ok hcall, hk rs hmeets.1.length_eq]

/-- A call is made as one operand if it gives one value, and as a statement or a definition if
not. -/
theorem IR.Work.does_call (ha : Unwatched Γ count F around) {function : Nat} {es : List Expression}
    {types : List ValueType}
    (found : Γ.module.functionType? function = some ⟨es.map Expression.type, types⟩)
    (hes : ∀ e ∈ es, e.Typed Γ .value) (huses : usesAll es ⊆ known) :
    (Work.ofCall function es types).Does Γ count known around
      (do act (around.call function (← evaluateAll around es))) := by
  rcases types with _ | ⟨result, _ | ⟨result', results⟩⟩
  · have hnone :=
      SameFrom.call ha found hes huses (j := fun _ => pure (IR.Ending.next, ([] : List Cell)))
        (k := fun rs => pure (.next, rs)) fun rs hrs => by rw [List.length_eq_zero_iff.mp hrs]
    simpa [ofCall, Does, execute, evaluateOperand] using hnone
  · have hone :=
      SameFrom.call ha found hes huses (j := fun rs => do pure [← theOnly rs]) (k := pure)
        fun rs hrs => by
          obtain ⟨c, rfl⟩ := List.length_eq_one_iff.mp hrs
          rfl
    simpa [ofCall, Does, evaluate, watched_eq ha.silent] using hone
  · exact fun v _ => by rw [evaluateOperand]

/-- The operand of a store is taken before its address is computed. -/
theorem IR.Work.does_store (ha : Unwatched Γ count F around) {opcode : Nat} {arg : MemArg}
    {access : Access} (haccess : Access.ofOpcode? opcode = some access) {base e : Expression}
    (h : Γ.Yields [base, e] [.i32, access.type]) (huses : usesAll [base, e] ⊆ known) :
    (Work.statement (.store access (base.effectiveAddress arg.offset) e)).Does Γ count known around
      (do perform around (.store opcode arg) (← evaluateAll around [base, e])) := by
  obtain ⟨hbase, he⟩ : base.Typed Γ .value ∧ e.Typed Γ .value := by simpa using h.1
  obtain ⟨hbaseType, -⟩ : base.type = .i32 ∧ e.type = access.type := by simpa using h.2
  obtain ⟨hbaseUses, heUses⟩ := List.append_subset.mp huses
  rw [Does, execute, evaluateAll_two, bind_effectiveAddress ha.silent]
  simp only [perform, haccess, present, pure_bind, bind_assoc]
  refine .i32 ha hbase hbaseType hbaseUses fun c x hx => ?_
  rw [toI32_eq hx, pure_bind]
  refine .evaluate ha he (usesAll_subset.mp heUses e List.mem_cons_self) fun d _ => ?_
  simp only [pure_bind]
  exact .refl _

theorem IR.Work.does_memoryCopy (ha : Unwatched Γ count F around) {d s n : Expression}
    (h : Γ.Yields [d, s, n] [.i32, .i32, .i32]) (huses : usesAll [d, s, n] ⊆ known) :
    (Work.statement (.memoryCopy d s n)).Does Γ count known around
      (do perform around .memoryCopy (← evaluateAll around [d, s, n])) := by
  obtain ⟨⟨hd, hdType⟩, ⟨hs, hsType⟩, hn, hnType⟩ := h.three
  obtain ⟨hdUses, hsUses, hnUses⟩ := three_uses (by simpa [usesAll] using huses)
  rw [Does, execute, evaluateAll_three]
  simp only [perform, bind_assoc, pure_bind]
  refine .i32 ha hd hdType hdUses fun c x hx => ?_
  rw [toAddress_eq hx, pure_bind]
  refine .i32 ha hs hsType hsUses fun c y hy => ?_
  rw [toAddress_eq hy, pure_bind]
  refine .i32 ha hn hnType hnUses fun c z hz => ?_
  simp only [pure_bind]
  exact .refl _

theorem IR.Work.does_memoryFill (ha : Unwatched Γ count F around) {d e n : Expression}
    (h : Γ.Yields [d, e, n] [.i32, .i32, .i32]) (huses : usesAll [d, e, n] ⊆ known) :
    (Work.statement (.memoryFill d e n)).Does Γ count known around
      (do perform around .memoryFill (← evaluateAll around [d, e, n])) := by
  obtain ⟨⟨hd, hdType⟩, ⟨he, heType⟩, hn, hnType⟩ := h.three
  obtain ⟨hdUses, heUses, hnUses⟩ := three_uses (by simpa [usesAll] using huses)
  rw [Does, execute, evaluateAll_three]
  simp only [perform, bind_assoc, pure_bind]
  refine .i32 ha hd hdType hdUses fun c x hx => ?_
  rw [toAddress_eq hx, pure_bind]
  refine .i32 ha he heType heUses fun c y hy => ?_
  rw [toI32_eq hy, pure_bind]
  refine .i32 ha hn hnType hnUses fun c z hz => ?_
  simp only [pure_bind]
  exact .refl _

/-- What is made of a plain instruction does what the instruction does with the values of its
operands. -/
theorem IR.Work.does_work (ha : Unwatched Γ count F around) {i : Instruction} {type : FunctionType}
    (signature : i.signature Γ.module Γ.locals = some type) {functions : Nat}
    (hwell : i.WellFormed functions) {es : List Expression} (hes : Γ.Yields es type.params)
    (huses : usesAll es ⊆ known) {w : Work} (made : i.work Γ.module Γ.locals es = some w) :
    w.Does Γ count known around (do perform around i (← evaluateAll around es)) := by
  obtain ⟨htyped, htypes⟩ := hes
  cases Instruction.becomes_of_work made with
  | call found =>
    obtain rfl := Option.some.inj (found.symm.trans signature)
    exact does_call ha (by rw [found, htypes]) htyped huses
  | localGet | globalGet | memorySize =>
    intro v _
    rw [evaluate, watched_eq ha.silent]
    rfl
  | localSet | globalSet =>
    intro v _
    rw [execute, evaluateAll_one]
    simp [perform]
  | localTee | memoryGrow =>
    intro v _
    rw [evaluate, watched_eq ha.silent, evaluateAll_one]
    simp [perform]
  | const value =>
    intro v _
    -- A literal that was decoded is in the range of its type, so reducing it changes nothing.
    rw [Expression.constant_of_canonical hwell, evaluate, watched_eq ha.silent]
    rfl
  | numeric found he =>
    intro v _
    rw [evaluate_ofOperator ha.silent he]
    simp [perform, found, present]
  | load found =>
    intro v _
    rw [evaluate, watched_eq ha.silent, evaluateAll_one, bind_effectiveAddress ha.silent]
    simp [perform, found, present]
  | store found =>
    cases Instruction.hasType_of_signature signature with | store _ found' =>
    obtain rfl := Option.some.inj (found.symm.trans found')
    exact does_store ha found ⟨htyped, htypes⟩ huses
  | memoryCopy =>
    cases Instruction.hasType_of_signature signature
    exact does_memoryCopy ha ⟨htyped, htypes⟩ huses
  | memoryFill =>
    cases Instruction.hasType_of_signature signature
    exact does_memoryFill ha ⟨htyped, htypes⟩ huses

end WasmScript
