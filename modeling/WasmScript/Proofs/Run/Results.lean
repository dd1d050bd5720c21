/-
  WasmScript/Proofs/Run/Results.lean
  ==================================
  **What operators and memories give** — that results are values in their signed form.

  Given operands that fit, an operator of the table gives a value that fits or traps, as it
  computes what WebAssembly says of the words that the operands stand for.  What a load
  reads fits too, whether it extends by the sign or by zeros, and so does each size that a
  memory tells.
-/
import WasmScript.Proofs.Integer.Meaning
import WasmScript.Proofs.Run.Agreement
import WasmScript.Proofs.Run.Fits

namespace WasmScript

/-! ### Operators -/

/-- A value in the signed form of a type is that of a word. -/
theorem Value.Fits.exists_word {type : ValueType} {v : Value} (h : v.Fits type) :
    ∃ w : BitVec type.width, v = .ofInt type w.toInt := by
  refine ⟨BitVec.ofInt type.width v.toInt, ?_⟩
  obtain ⟨rfl, hcanonical⟩ := h
  cases v with
  | i32 n =>
    have hn : (BitVec.ofInt 32 n).toInt = n :=
      BitVec.toInt_ofInt_eq_self (by decide) hcanonical.1 hcanonical.2
    exact congrArg Value.i32 hn.symm
  | i64 n =>
    have hn : (BitVec.ofInt 64 n).toInt = n :=
      BitVec.toInt_ofInt_eq_self (by decide) hcanonical.1 hcanonical.2
    exact congrArg Value.i64 hn.symm

theorem Value.fits_word (type : ValueType) (w : BitVec type.width) :
    (Value.ofInt type w.toInt).Fits type :=
  Value.fits_ofInt (BitVec.le_toInt w) BitVec.toInt_lt

namespace Operation

variable {op : NumericOp} {a b : Value}

/-- A value of a type that fits, or a trap. -/
def Yields (type : ValueType) : Except Failure Value → Prop
  | .ok v => v.Fits type
  | .error e => ∃ kind, e = .trap kind

theorem yields_reading (type : ValueType) (r : Except TrapKind (BitVec type.width)) :
    Yields type (Value.ofInt type <$> reading (some r)) := by
  cases r with
  | ok w => exact Value.fits_word type w
  | error kind => exact ⟨kind, rfl⟩

theorem applyUnary_eq (hop : op ∈ NumericOp.table)
    (hcategory : op.category = .unary ∨ op.category = .convert) (ha : a.Fits op.operand) :
    ∃ v, applyUnary op a = .ok v ∧ v.Fits op.result := by
  have hregular := NumericOp.regular_of_mem op hop
  have hresult : op.operator.unaryResult op.operand = some op.result := by
    rcases hcategory with hcategory | hcategory <;>
      simpa [NumericOp.Regular, hcategory] using hregular
  obtain ⟨v, rfl⟩ := ha.exists_word
  obtain ⟨r, hr⟩ := isSome_transform hresult op.result.width v
  refine ⟨_, (applyUnary_toInt hresult v).trans (by rw [hr]; rfl), ?_⟩
  exact Value.fits_word op.result r

theorem yields_applyUnary (hop : op ∈ NumericOp.table)
    (hcategory : op.category = .unary ∨ op.category = .convert) (ha : a.Fits op.operand) :
    Yields op.result (applyUnary op a) := by
  obtain ⟨v, hv, hfits⟩ := applyUnary_eq hop hcategory ha
  rw [hv]
  exact hfits

theorem yields_applyBinary (hop : op ∈ NumericOp.table) (hcategory : op.category = .binary)
    (ha : a.Fits op.operand) (hb : b.Fits op.operand) : Yields op.result (applyBinary op a b) := by
  have hregular := NumericOp.regular_of_mem op hop
  simp only [NumericOp.Regular, hcategory] at hregular
  obtain ⟨v, rfl⟩ := ha.exists_word
  obtain ⟨w, rfl⟩ := hb.exists_word
  obtain ⟨r, hr⟩ := isSome_combine hregular.1 v w
  rw [applyBinary_toInt hregular.2, hr]
  exact yields_reading op.result _

/-- Only divisions trap. -/
theorem applyBinary_eq (hop : op ∈ NumericOp.table) (hcategory : op.category = .binary)
    (hquiet : op.operator.traps = false) (ha : a.Fits op.operand) (hb : b.Fits op.operand) :
    ∃ v, applyBinary op a b = .ok v := by
  have hregular := NumericOp.regular_of_mem op hop
  simp only [NumericOp.Regular, hcategory] at hregular
  obtain ⟨v, rfl⟩ := ha.exists_word
  obtain ⟨w, rfl⟩ := hb.exists_word
  obtain ⟨r, hr⟩ := isSome_combine hregular.1 v w
  obtain ⟨u, rfl⟩ : ∃ u, r = .ok u := by
    revert hr hquiet
    cases op.operator <;> simp [Operator.traps, Operator.combine] <;> exact fun h => ⟨_, h.symm⟩
  exact ⟨_, (applyBinary_toInt hregular.2 v w).trans (by rw [hr]; rfl)⟩

theorem applyComparison_eq (hop : op ∈ NumericOp.table)
    (hcategory : op.category = .test ∨ op.category = .compare) (ha : a.Fits op.operand)
    (hb : b.Fits op.operand) : ∃ v, applyComparison op a b = .ok v ∧ v.Fits .i32 := by
  have hregular := NumericOp.regular_of_mem op hop
  have hcompares : (op.operator = .eqz ∨ op.operator.isComparison) ∧ op.result = .i32 := by
    rcases hcategory with hcategory | hcategory <;>
      simp only [NumericOp.Regular, hcategory] at hregular
    · exact ⟨.inl hregular.1, hregular.2⟩
    · exact ⟨.inr hregular.1, hregular.2⟩
  obtain ⟨v, rfl⟩ := ha.exists_word
  obtain ⟨w, rfl⟩ := hb.exists_word
  obtain ⟨holds, hc⟩ := isSome_compare hcompares.1 v w
  refine ⟨_, (applyComparison_toInt hcompares.2 v w).trans (by rw [hc]; rfl), ?_⟩
  rw [← hcompares.2]
  exact Value.fits_word op.result _

/-! ### Accesses -/

theorem operand_of_fits {type : ValueType} {v : Value} (h : v.Fits type) :
    operand type v = .ok v.toInt :=
  if_pos h.1

theorem stored_eq {access : Access} {v : Value} (h : v.Fits access.type) :
    ∃ n, stored access v = .ok n := by
  rw [stored, operand_of_fits h]
  exact ⟨_, rfl⟩

end Operation

namespace LinearMemory

theorem natAt_lt (width : Nat) :
    ∀ (bytes : ByteArray) (i : Nat), natAt bytes i width < 2 ^ (8 * width) := by
  induction width with
  | zero => exact fun bytes i => Nat.two_pow_pos _
  | succ width ih =>
    intro bytes i
    have hbyte : (bytes.get! i).toNat < 256 := (bytes.get! i).toNat_lt
    have hrest := ih bytes (i + 1)
    have hpow : 2 ^ (8 * (width + 1)) = 256 * 2 ^ (8 * width) := by
      rw [Nat.mul_succ, Nat.pow_add, Nat.mul_comm]
    rw [natAt, hpow]
    omega

/-- What an accessor reads, as an integer of the type of an access that goes through it. -/
theorem fits_loaded {access : Access} (hload : access.isStore = false) {address n : Int}
    {memory memory' : LinearMemory} (h : load access.accessor address memory = .ok n memory') :
    (Operation.loaded access n).Fits access.type := by
  unfold load at h
  split at h
  · cases h
    have hlt := natAt_lt access.accessor.width memory.bytes address.toNat
    have hlow := @BitVec.le_toInt (8 * access.accessor.width)
    have hhigh := @BitVec.toInt_lt (8 * access.accessor.width)
    rw [Bits.signed_eq_toInt]
    generalize natAt memory.bytes address.toNat access.accessor.width = n at hlt ⊢
    have hlow := hlow (BitVec.ofInt _ n)
    have hhigh := @hhigh (BitVec.ofInt _ n)
    generalize (BitVec.ofInt (8 * access.accessor.width) n).toInt = k at hlow hhigh ⊢
    cases access <;> cases hload
    all_goals
      simp only [Access.accessor, Accessor.width, Accessor.isSigned, Nat.reduceMul, Nat.reducePow,
        Nat.reduceSub, Int.reducePow, Int.reduceNeg, if_true, if_false,
        Bool.false_eq_true] at hlt hlow hhigh ⊢
      refine ⟨rfl, ?_⟩
      dsimp only [Operation.loaded, Access.type, Value.ofInt, Value.Canonical]
      omega
  · cases h

end LinearMemory

/-! ### The memory of an instance -/

theorem Cell.fits_ofPages (memory : LinearMemory) {pages : Int} (hlow : -1 ≤ pages)
    (hhigh : pages ≤ LinearMemory.maxPages) : (Cell.ofPages memory pages).Fits .i32 := by
  have hmost : (LinearMemory.maxPages : Int) = 65536 := rfl
  unfold ofPages
  split
  · exact Cell.fits_zero .i32
  · exact ⟨rfl, by omega, by omega⟩

namespace Action

variable {σ : Type} {m : Module} {count place : Nat}

/-- What fails by a trap and leaves a store that fits. -/
def Traps (m : Module) (count : Nat) (e : Failure) (s : Store σ) : Prop :=
  (∃ kind, e = .trap kind) ∧ s.Fits m count

theorem agree_onOwnMemory {α : Type} (hplace : place < count) (hmemory : m.memory.isSome)
    {op : LinearMemory.Op α} {Q : α → Prop} (hkeeps : Keeps LinearMemory.Fits op)
    (hgives : ∀ memory a memory', memory.Fits → op memory = .ok a memory' → Q a) :
    Agree (Store.Fits (σ := σ) m count) (onOwnMemory place op) (onOwnMemory place op)
      (fun a s => Q a ∧ s.Fits m count) (Traps m count) := by
  intro s hs
  obtain ⟨p, memory, -, hmem, heq⟩ := onOwnMemory_eq hs hplace hmemory op
  have hafter := hkeeps memory hmem
  have hgives := hgives memory
  refine ⟨rfl, ?_⟩
  rw [heq]
  cases hop : op memory with
  | ok a memory' =>
    rw [hop] at hafter hgives
    exact ⟨hgives a memory' hmem rfl, hs.setMemory hafter⟩
  | error kind memory' =>
    rw [hop] at hafter
    exact ⟨⟨kind, rfl⟩, hs.setMemory hafter⟩

theorem agree_memorySize (hplace : place < count) (hmemory : m.memory.isSome) :
    Agree (Store.Fits (σ := σ) m count) (memorySize place) (memorySize place)
      (fun c s => c.Fits .i32 ∧ s.Fits m count) (Traps m count) := by
  refine agree_onOwnMemory hplace hmemory (fun memory hm => hm) fun memory c memory' hm h => ?_
  cases h
  have hpages := Nat.le_trans hm.pages hm.maximum
  exact Cell.fits_ofPages memory (by omega) (by exact_mod_cast hpages)

theorem agree_memoryGrow (hplace : place < count) (hmemory : m.memory.isSome) (delta : Nat) :
    Agree (Store.Fits (σ := σ) m count) (memoryGrow place delta) (memoryGrow place delta)
      (fun c s => c.Fits .i32 ∧ s.Fits m count) (Traps m count) := by
  refine agree_onOwnMemory hplace hmemory ?_ fun memory c memory' hm h => ?_
  · exact .fits fun _ => (LinearMemory.keeps_grow delta).bind fun before =>
      Keeps.get.bind fun _ => .pure _
  · have hpages := Nat.le_trans hm.pages hm.maximum
    change EStateM.bind (LinearMemory.grow delta) _ memory = _ at h
    unfold EStateM.bind LinearMemory.grow at h
    dsimp only at h
    split at h
    · next hgrow =>
      split at hgrow
      · cases hgrow
        cases h
        exact Cell.fits_ofPages _ (by omega) (by exact_mod_cast hpages)
      · split at hgrow <;> cases hgrow <;> cases h
        · exact Cell.fits_ofPages _ (by omega) (by decide)
        · exact Cell.fits_ofPages _ (by omega) (by exact_mod_cast hpages)
    · next hgrow =>
      split at hgrow
      · cases hgrow
      · split at hgrow <;> cases hgrow

end Action

end WasmScript
