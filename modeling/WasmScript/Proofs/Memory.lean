/-
  WasmScript/Proofs/Memory.lean
  =============================
  **Sizes of memories** — that operations leave a memory within its bounds.

  A memory has as many bytes as its pages say, no more pages than it may grow to, and these
  never exceed the pages of a 32-bit address space.  Only growing changes the size, whatever
  a host passes: what is written lies within the memory, also where a range is brought into
  it first.  `GrowsTo` says all that an operation may make of a memory: it does not shrink, it
  keeps its maximum, and it stays within its bounds.
-/
import WasmScript.Host.MemoryCall
import Mathlib.Tactic.Common

namespace WasmScript

namespace LinearMemory

/-- A memory within the bounds of a 32-bit address space. -/
structure Fits (m : LinearMemory) : Prop where
  size : m.size = pageSize * m.pages
  pages : m.pages ≤ m.maximum
  maximum : m.maximum ≤ maxPages

theorem Fits.of_eq {m m' : LinearMemory} (h : m.Fits) (hsize : m'.size = m.size)
    (hpages : m'.pages = m.pages) (hmaximum : m'.maximum = m.maximum) : m'.Fits := by
  refine ⟨?_, ?_, hmaximum ▸ h.maximum⟩
  · rw [hsize, hpages, h.size]
  · rw [hpages, hmaximum]
    exact h.pages

/-- What operations may make of a memory. -/
structure GrowsTo (m m' : LinearMemory) : Prop where
  pages : m.pages ≤ m'.pages
  maximum : m'.maximum = m.maximum
  fits : m.Fits → m'.Fits

theorem GrowsTo.refl (m : LinearMemory) : m.GrowsTo m := ⟨Nat.le_refl _, rfl, id⟩

theorem GrowsTo.trans {m m' m'' : LinearMemory} (h : m.GrowsTo m') (h' : m'.GrowsTo m'') :
    m.GrowsTo m'' :=
  ⟨Nat.le_trans h.pages h'.pages, h'.maximum.trans h.maximum, fun hm => h'.fits (h.fits hm)⟩

/-- A memory of which only bytes have changed. -/
theorem GrowsTo.of_eq {m m' : LinearMemory} (hsize : m'.size = m.size) (hpages : m'.pages = m.pages)
    (hmaximum : m'.maximum = m.maximum) : m.GrowsTo m' :=
  ⟨Nat.le_of_eq hpages.symm, hmaximum, fun hm => hm.of_eq hsize hpages hmaximum⟩

/-! ### Bytes -/

theorem size_set (bytes : ByteArray) (i : Nat) (b : UInt8) : (bytes.set! i b).size = bytes.size :=
  Array.size_setIfInBounds

theorem size_setNat (width : Nat) :
    ∀ (bytes : ByteArray) (i n : Nat), (setNat bytes i n width).size = bytes.size := by
  induction width with
  | zero => exact fun _ _ _ => rfl
  | succ width ih => exact fun bytes i n => (ih _ _ _).trans (size_set _ _ _)

theorem size_splice {data bytes : ByteArray} {i : Nat} (h : i + data.size ≤ bytes.size) :
    (splice data i bytes).size = bytes.size := by
  change (bytes.data.extract 0 i ++ data.data.extract 0 (0 + data.size)
    ++ bytes.data.extract (i + min data.size (data.data.size - 0)) bytes.data.size).size = _
  have hdata : data.data.size = data.size := rfl
  have hbytes : bytes.data.size = bytes.size := rfl
  simp only [Array.size_append, Array.size_extract, hdata, hbytes]
  omega

theorem size_addPages (count : Nat) :
    ∀ bytes : ByteArray, (addPages count bytes).size = bytes.size + count * pageSize := by
  induction count with
  | zero => exact fun bytes => (Nat.zero_mul _ ▸ Nat.add_zero _).symm
  | succ count ih =>
    intro bytes
    have hpage : zeroPage.size = pageSize := Array.size_replicate
    rw [addPages, ih, ByteArray.size_append, hpage, Nat.succ_mul]
    omega

theorem fits_create {initial maximum : Nat} (h : initial ≤ maximum)
    (hmaximum : maximum ≤ maxPages) :
    (create initial maximum).Fits := by
  refine ⟨?_, h, hmaximum⟩
  change (addPages initial .empty).size = pageSize * initial
  rw [size_addPages, ByteArray.size_empty, Nat.zero_add, Nat.mul_comm]

theorem clamp_le (size : Nat) (i : Int) : clamp size i ≤ size := by
  unfold clamp
  split <;> omega

end LinearMemory

/-! ### Operations that keep what holds of a state -/

variable {ε σ α β : Type}

/-- The state after an operation, also where it failed. -/
def after : EStateM.Result ε σ α → σ
  | .ok _ s => s
  | .error _ s => s

/-- An operation after which a state still has a property. -/
def Keeps (P : σ → Prop) (op : EStateM ε σ α) : Prop := ∀ s, P s → P (after (op s))

namespace Keeps

variable {P : σ → Prop} {op : EStateM ε σ α} {k : α → EStateM ε σ β}

theorem bind (hop : Keeps P op) (hk : ∀ a, Keeps P (k a)) : Keeps P (op >>= k) := by
  intro s hs
  have h := hop s hs
  change P (after (EStateM.bind op k s))
  unfold EStateM.bind
  cases hr : op s with
  | ok a s' =>
    rw [hr] at h
    exact hk a s' h
  | error e s' =>
    rw [hr] at h
    exact h

theorem pure (a : α) : Keeps P (pure a : EStateM ε σ α) := fun _ hs => hs

theorem throw (e : ε) : Keeps P (throw e : EStateM ε σ α) := fun _ hs => hs

theorem get : Keeps P (get : EStateM ε σ σ) := fun _ hs => hs

/-- An operation under which each memory only grows leaves memories within their bounds. -/
theorem fits {op : EStateM ε LinearMemory α} (h : ∀ m : LinearMemory, Keeps m.GrowsTo op) :
    Keeps LinearMemory.Fits op :=
  fun m hm => (h m m (.refl m)).fits hm

end Keeps

namespace LinearMemory

variable {m₀ : LinearMemory}

theorem keeps_check (P : LinearMemory → Prop) (address length : Int) :
    Keeps P (check address length) := by
  intro m hm
  unfold check
  cases m.inBounds address length <;> exact hm

/-- A change of bytes that is only made within some bounds. -/
theorem keeps_check_modify {address length : Int} {change : LinearMemory → LinearMemory}
    (h : ∀ m : LinearMemory, 0 ≤ address → address + length ≤ m.size →
      (change m).size = m.size ∧ (change m).pages = m.pages ∧ (change m).maximum = m.maximum) :
    Keeps m₀.GrowsTo (do check address length; modify change : Op PUnit) := by
  intro m hm
  change m₀.GrowsTo (after (EStateM.bind (check address length) (fun _ => modify change) m))
  unfold EStateM.bind check
  cases hbounds : m.inBounds address length with
  | false => exact hm
  | true =>
    obtain ⟨haddress, hend⟩ := of_decide_eq_true hbounds
    obtain ⟨hsize, hpages, hmaximum⟩ := h m haddress hend
    exact hm.trans (.of_eq hsize hpages hmaximum)

theorem keeps_load (P : LinearMemory → Prop) (a : Accessor) (address : Int) :
    Keeps P (load a address) := by
  intro m hm
  unfold load
  cases m.inBounds address a.width <;> exact hm

theorem keeps_store (a : Accessor) (address value : Int) :
    Keeps m₀.GrowsTo (store a address value) := by
  intro m hm
  unfold store
  cases m.inBounds address a.width with
  | false => exact hm
  | true => exact hm.trans (.of_eq (size_setNat _ _ _ _) rfl rfl)

theorem Fits.addPages {m : LinearMemory} (hm : m.Fits) {delta : Nat}
    (hle : m.pages + delta ≤ m.maximum) :
    Fits { m with bytes := LinearMemory.addPages delta m.bytes, pages := m.pages + delta } := by
  refine ⟨?_, hle, hm.maximum⟩
  have hbytes : m.bytes.size = pageSize * m.pages := hm.size
  change (LinearMemory.addPages delta m.bytes).size = pageSize * (m.pages + delta)
  rw [size_addPages, hbytes, Nat.mul_add, Nat.mul_comm delta]

theorem keeps_grow (delta : Nat) : Keeps m₀.GrowsTo (grow delta) := by
  intro m hm
  unfold grow
  by_cases hzero : delta = 0
  · simp only [if_pos hzero]
    exact hm
  by_cases hlt : m.maximum < m.pages + delta
  · simp only [if_neg hzero, if_pos hlt]
    exact hm
  · simp only [if_neg hzero, if_neg hlt]
    have hle := Nat.le_of_not_lt hlt
    exact hm.trans ⟨Nat.le_add_right _ _, rfl, fun hfits => hfits.addPages hle⟩

theorem keeps_copy (destination source length : Int) :
    Keeps m₀.GrowsTo (copy destination source length) := by
  refine .bind (keeps_check _ _ _) fun _ => keeps_check_modify fun m _ _ => ⟨?_, rfl, rfl⟩
  refine size_splice ?_
  have hplace := clamp_le m.size destination
  have hsize : m.bytes.size = m.size := rfl
  rw [ByteArray.size_extract]
  omega

theorem keeps_fill (destination value length : Int) :
    Keeps m₀.GrowsTo (fill destination value length) := by
  refine keeps_check_modify fun m _ _ => ⟨?_, rfl, rfl⟩
  refine size_splice ?_
  have hstart := clamp_le m.size destination
  have hstop := clamp_le m.size (destination + length)
  have hsize : m.bytes.size = m.size := rfl
  have hrow (count : Nat) (b : UInt8) : (ByteArray.mk (Array.replicate count b)).size = count :=
    Array.size_replicate
  rw [hrow]
  omega

theorem keeps_write (address : Int) (data : ByteArray) : Keeps m₀.GrowsTo (write address data) := by
  refine keeps_check_modify fun m haddress hend => ⟨size_splice ?_, rfl, rfl⟩
  have hsize : m.bytes.size = m.size := rfl
  omega

theorem keeps_read (P : LinearMemory → Prop) (address length : Int) :
    Keeps P (read address length) :=
  .bind (keeps_check _ _ _) fun _ => .bind .get fun _ => .pure _

end LinearMemory

namespace MemoryCall

open LinearMemory

/-! ### What a host may do to a memory -/

variable {P : LinearMemory → Prop} {m₀ : LinearMemory}

theorem keeps_lift {op : LinearMemory.Op α} (h : Keeps P op) : Keeps P (lift op) := by
  intro m hm
  have h := h m hm
  unfold lift
  cases hr : op m <;> rw [hr] at h <;> exact h

theorem keeps_accept (r : Except Failure α) : Keeps P (accept r) := by
  cases r with
  | ok a => exact .pure a
  | error e => exact .throw e

theorem keeps_toAddress (v : HostValue) : Keeps P (toAddress v) := by
  unfold toAddress
  split
  · exact .pure _
  · exact keeps_lift (.throw _)

theorem keeps_toEnd (address : Nat) (length : HostValue) : Keeps P (toEnd address length) := by
  refine .bind (keeps_accept _) fun sum => .bind (keeps_accept _) fun stop => .bind .get fun m => ?_
  dsimp only
  split
  · exact .bind (keeps_lift (.throw _)) fun _ => by split <;> exact .pure _
  · split <;> exact .pure _

theorem keeps_toLength (address : Nat) (length : HostValue) : Keeps P (toLength address length) :=
  .bind (keeps_toEnd _ _) fun _ => .pure _

theorem keeps_stored (a : Accessor) (v : HostValue) : Keeps P (stored a v) := by
  unfold stored
  split
  · exact .bind (keeps_accept _) fun _ => .pure _
  · exact keeps_accept _

theorem keeps_writeItems (data : HostValue) (address count : Nat) :
    ∀ index : Nat, Keeps m₀.GrowsTo (writeItems data address count index) := by
  induction count with
  | zero => exact fun _ => .pure _
  | succ count ih =>
    exact fun index => .bind (keeps_accept _) fun _ => .bind (keeps_accept _) fun _ =>
      .bind (keeps_lift (keeps_write _ _)) fun _ => ih _

theorem keeps_writeAll (address : Nat) (data length : HostValue) :
    Keeps m₀.GrowsTo (writeAll address data length) := by
  unfold writeAll
  split
  · exact keeps_lift (keeps_write _ _)
  · refine .bind (keeps_accept _) fun n => ?_
    split
    · exact .throw _
    · refine .bind .get fun m => ?_
      dsimp only
      split
      · exact .bind (.throw _) fun _ => keeps_writeItems _ _ _ _
      · exact keeps_writeItems _ _ _ _

/-- Whatever a host does to a memory, it only grows. -/
theorem keeps_perform (call : MemoryCall) : Keeps m₀.GrowsTo call.perform := by
  -- Operands that are refused leave the memory as it is, and each operation itself only lets it
  -- grow.
  cases call with
  | pages => exact .bind .get fun _ => .pure _
  | size => exact .bind .get fun _ => .pure _
  | maximum => exact .bind .get fun _ => .pure _
  | grow delta =>
    exact .bind (keeps_accept _) fun _ => .bind (keeps_lift (keeps_grow _)) fun _ =>
      .bind .get fun _ => .pure _
  | load a address =>
    exact .bind (keeps_toAddress _) fun _ => .bind (keeps_lift (keeps_load _ _ _)) fun _ => .pure _
  | store a address value =>
    exact .bind (keeps_toAddress _) fun _ => .bind (keeps_lift (keeps_check _ _ _)) fun _ =>
      .bind (keeps_stored _ _) fun _ => .bind (keeps_lift (keeps_store _ _ _)) fun _ => .pure _
  | copy destination source length =>
    exact .bind (keeps_toAddress _) fun _ => .bind (keeps_toEnd _ _) fun _ =>
      .bind (keeps_toAddress _) fun _ => .bind (keeps_toLength _ _) fun _ =>
        .bind (keeps_lift (keeps_copy _ _ _)) fun _ => .pure _
  | fill destination value length =>
    exact .bind (keeps_toAddress _) fun _ => .bind (keeps_toLength _ _) fun _ =>
      .bind (keeps_accept _) fun _ => .bind (keeps_lift (keeps_fill _ _ _)) fun _ => .pure _
  | write address data =>
    exact .bind (keeps_accept _) fun _ => .bind (keeps_toAddress _) fun _ =>
      .bind (keeps_toEnd _ _) fun _ => .bind (keeps_writeAll _ _ _) fun _ => .pure _
  | read address length =>
    exact .bind (keeps_toAddress _) fun _ => .bind (keeps_toLength _ _) fun _ =>
      .bind (keeps_lift (keeps_read _ _ _)) fun _ => .pure _

end MemoryCall

end WasmScript
