/-
  WasmScript/Proofs/Memory/Contents.lean
  ======================================
  **Memories as lists of bytes** — what the operations of a memory do, said of a plain list.

  A `Flat` memory is its bytes, one after another, and the most pages it may have.  Its
  operations are those that code and hosts use, with addresses and lengths from zero on;
  each one is a line about the list: a range is taken out of it, a range of it is written
  over, or zeros are put after it.

  A memory keeps its bytes in an array, counts its pages beside it, moves integers byte by
  byte and ranges by slices.  `perform_represents` says that one operation has the same outcome
  on both and leaves the same bytes, and `trace_eq` carries that through any sequence of
  operations from the moment the memory is made.
-/
import WasmScript.Proofs.Memory
import WasmScript.Proofs.Integer.Words
import Mathlib.Tactic.Ring

namespace WasmScript

/-! ### Integers in bytes -/

/-- The number whose bytes are given, the lowest first. -/
def littleEndian : List UInt8 → Nat
  | [] => 0
  | b :: bs => b.toNat + 256 * littleEndian bs

/-- The lowest bytes of a number, the lowest first. -/
def lowBytes : (width : Nat) → Nat → List UInt8
  | 0, _ => []
  | width + 1, n => UInt8.ofNat (n % 256) :: lowBytes width (n / 256)

@[simp] theorem length_lowBytes (width : Nat) : ∀ n : Nat, (lowBytes width n).length = width := by
  induction width with
  | zero => exact fun _ => rfl
  | succ width ih => exact fun n => congrArg (· + 1) (ih (n / 256))

/-! ### Lists of bytes -/

def slice (bs : List UInt8) (i count : Nat) : List UInt8 := (bs.drop i).take count

theorem length_slice_le (bs : List UInt8) (i count : Nat) : (slice bs i count).length ≤ count :=
  List.length_take_le ..

/-- Some bytes with others written over them from a place on. -/
def overwrite (bs : List UInt8) (i : Nat) (new : List UInt8) : List UInt8 :=
  bs.take i ++ new ++ bs.drop (i + new.length)

theorem length_overwrite {bs new : List UInt8} {i : Nat} (h : i + new.length ≤ bs.length) :
    (overwrite bs i new).length = bs.length := by
  simp only [overwrite, List.length_append, List.length_take, List.length_drop]
  omega

/-- Writing one byte after another. -/
theorem overwrite_cons {bs new : List UInt8} {b : UInt8} {i : Nat} (h : i < bs.length) :
    overwrite bs i (b :: new) = overwrite (bs.set i b) (i + 1) new := by
  have htake : (bs.set i b).take (i + 1) = bs.take i ++ [b] := by
    rw [List.take_succ_eq_append_getElem (by rwa [List.length_set]),
      List.take_set_of_le (Nat.le_refl i), List.getElem_set_self]
  have hdrop : (bs.set i b).drop (i + 1 + new.length) = bs.drop (i + (b :: new).length) := by
    rw [List.drop_set_of_lt (by omega), List.length_cons]
    congr 1
    omega
  rw [overwrite, overwrite, htake, hdrop, List.append_assoc (bs.take i) [b]]
  rfl

/-! ### A memory that is a list -/

/-- A memory as its bytes and the most pages it may have. -/
structure Flat where
  bytes : List UInt8
  most : Nat

/-- What an operation gives. -/
inductive Answer where
  | number (n : Int)
  | bytes (bs : List UInt8)
  | done
deriving DecidableEq, Repr

/-- An operation on a memory. -/
inductive MemoryOperation where
  | pages
  | size
  /-- Grows by a 32-bit integer, read as unsigned. -/
  | grow (delta : Int)
  | load (a : Accessor) (address : Nat)
  | store (a : Accessor) (address : Nat) (value : Int)
  | copy (destination source length : Nat)
  | fill (destination : Nat) (value : Int) (length : Nat)
  | write (address : Nat) (data : ByteArray)
  | read (address length : Nat)

namespace Flat

variable {f : Flat} {op : MemoryOperation}

def pages (f : Flat) : Nat := f.bytes.length / 65536

def zeros (pages most : Nat) : Flat := ⟨List.replicate (65536 * pages) 0, most⟩

/-- The outcome of an operation and the memory after it: `outcome` and `next`, if all ranges it
touches lie within the memory, and else a trap and the memory as it was. -/
def guarded (f : Flat) (within : Prop) [Decidable within] (answer : Answer) (next : List UInt8) :
    Except TrapKind Answer × Flat :=
  if within then (.ok answer, { f with bytes := next }) else (.error .outOfBounds, f)

def perform (f : Flat) : MemoryOperation → Except TrapKind Answer × Flat
  | .pages => (.ok (.number f.pages), f)
  | .size => (.ok (.number f.bytes.length), f)
  | .grow delta =>
    let more := (delta % 2 ^ 32).toNat
    if f.pages + more ≤ f.most then
      (.ok (.number f.pages), { f with bytes := f.bytes ++ List.replicate (65536 * more) 0 })
    else (.ok (.number (-1)), f)
  | .load a i =>
    let n := littleEndian (slice f.bytes i a.width)
    f.guarded (i + a.width ≤ f.bytes.length)
      (.number (if a.isSigned then (BitVec.ofNat (8 * a.width) n).toInt else n)) f.bytes
  | .store a i value =>
    f.guarded (i + a.width ≤ f.bytes.length) .done
      (overwrite f.bytes i (lowBytes a.width (value % 256 ^ a.width).toNat))
  | .copy d s n =>
    f.guarded (d + n ≤ f.bytes.length ∧ s + n ≤ f.bytes.length) .done
      (overwrite f.bytes d (slice f.bytes s n))
  | .fill d value n =>
    f.guarded (d + n ≤ f.bytes.length) .done
      (overwrite f.bytes d (List.replicate n (UInt8.ofNat (value % 256).toNat)))
  | .write i data =>
    f.guarded (i + data.size ≤ f.bytes.length) .done (overwrite f.bytes i data.data.toList)
  | .read i n =>
    f.guarded (i + n ≤ f.bytes.length) (.bytes (slice f.bytes i n)) f.bytes

/-- No operation changes how far a memory may grow. -/
theorem most_perform (f : Flat) (op : MemoryOperation) : (f.perform op).2.most = f.most := by
  cases op <;> simp only [perform, guarded] <;> split <;> rfl

end Flat

namespace LinearMemory

variable {m : LinearMemory} {f : Flat}

/-- The bytes of a memory, one after another. -/
def contents (m : LinearMemory) : List UInt8 := m.bytes.data.toList

@[simp] theorem length_contents (m : LinearMemory) : m.contents.length = m.size := rfl

/-! ### Arrays of bytes as lists -/

theorem toList_addPages (count : Nat) : ∀ bytes : ByteArray,
    (addPages count bytes).data.toList = bytes.data.toList ++ List.replicate (65536 * count) 0 := by
  induction count with
  | zero => exact fun bytes => (List.append_nil _).symm
  | succ count ih =>
    intro bytes
    have hpage : zeroPage.data.toList = List.replicate 65536 0 := Array.toList_replicate
    have hcount : 65536 * (count + 1) = 65536 + 65536 * count := by omega
    rw [addPages, ih, ByteArray.data_append, Array.toList_append, hpage, List.append_assoc,
      List.replicate_append_replicate, hcount]

theorem natAt_eq (width : Nat) : ∀ (bytes : ByteArray) (i : Nat), i + width ≤ bytes.size →
    natAt bytes i width = littleEndian (slice bytes.data.toList i width) := by
  induction width with
  | zero => exact fun bytes i _ => by simp [natAt, slice, littleEndian]
  | succ width ih =>
    intro bytes i h
    have hlt : i < bytes.data.toList.length := Nat.lt_of_lt_of_le (by omega) h
    have hget : bytes.get! i = bytes.data.toList[i] := by
      rw [Array.getElem_toList]
      exact getElem!_pos bytes.data i hlt
    have hslice : slice bytes.data.toList i (width + 1)
        = bytes.data.toList[i] :: slice bytes.data.toList (i + 1) width := by
      rw [slice, List.drop_eq_getElem_cons hlt, List.take_succ_cons]
      rfl
    rw [natAt, ih bytes (i + 1) (by omega), hslice, littleEndian, hget]

theorem toList_set (bytes : ByteArray) (i : Nat) (b : UInt8) :
    (bytes.set! i b).data.toList = bytes.data.toList.set i b := Array.toList_setIfInBounds

theorem toList_setNat (width : Nat) : ∀ (bytes : ByteArray) (i n : Nat), i + width ≤ bytes.size →
    (setNat bytes i n width).data.toList = overwrite bytes.data.toList i (lowBytes width n) := by
  induction width with
  | zero => exact fun bytes i n _ => by simp [setNat, lowBytes, overwrite]
  | succ width ih =>
    intro bytes i n h
    have hlt : i < bytes.data.toList.length := Nat.lt_of_lt_of_le (by omega) h
    have hrest : i + 1 + width ≤ (bytes.set! i (UInt8.ofNat (n % 256))).size := by
      rw [size_set]
      omega
    rw [setNat, ih _ _ _ hrest, toList_set, lowBytes, overwrite_cons hlt]

theorem toList_splice {data bytes : ByteArray} {i : Nat} :
    (splice data i bytes).data.toList = overwrite bytes.data.toList i data.data.toList := by
  change (bytes.data.extract 0 i ++ data.data.extract 0 (0 + data.size)
    ++ bytes.data.extract (i + min data.size (data.data.size - 0)) bytes.data.size).toList = _
  have hdata : data.data.toList.length = data.size := rfl
  have hsize : data.data.size = data.size := rfl
  have hbytes : bytes.data.toList.length = bytes.data.size := rfl
  simp only [Array.toList_append, Array.toList_extract, List.extract_eq_take_drop, List.drop_zero,
    Nat.zero_add, Nat.sub_zero, hsize, Nat.min_self, overwrite, hdata]
  have hall : data.data.toList.take data.size = data.data.toList :=
    List.take_of_length_le (Nat.le_of_eq hdata)
  have hrest (k : Nat) : (bytes.data.toList.drop k).take (bytes.data.size - k)
      = bytes.data.toList.drop k := List.take_of_length_le (by rw [List.length_drop, hbytes])
  rw [hall, hrest]

theorem toList_extract (bytes : ByteArray) (i count : Nat) :
    (bytes.extract i (i + count)).data.toList = slice bytes.data.toList i count := by
  rw [ByteArray.data_extract, slice]
  simp [List.extract_eq_take_drop]

/-! ### Operations on ranges from zero on -/

theorem inBounds_natCast (m : LinearMemory) (i n : Nat) :
    m.inBounds i n = decide (i + n ≤ m.size) := by
  rw [inBounds, decide_eq_decide]
  omega

theorem clamp_natCast {size i : Nat} (h : i ≤ size) : clamp size i = i := by
  unfold clamp
  split <;> omega

theorem clamp_add_natCast {size i n : Nat} (h : i + n ≤ size) :
    clamp size ((i : Int) + n) = i + n := by
  rw [← Int.natCast_add]
  exact clamp_natCast h

theorem check_eq (i n : Nat) (m : LinearMemory) :
    check i n m = if i + n ≤ m.size then .ok () m else .error .outOfBounds m := by
  unfold check
  rw [inBounds_natCast]
  simp only [decide_eq_true_eq]

/-- What comes after a check, if the range lies within the memory. -/
theorem check_bind_eq {α : Type} (i n : Nat) (k : Unit → Op α) (m : LinearMemory) :
    (check i n >>= k) m = if i + n ≤ m.size then k () m else .error .outOfBounds m := by
  change EStateM.bind (check i n) k m = _
  by_cases h : i + n ≤ m.size
  · simp only [EStateM.bind, check_eq, if_pos h]
  · simp only [EStateM.bind, check_eq, if_neg h]

theorem load_eq (a : Accessor) (i : Nat) (m : LinearMemory) :
    load a i m =
      if i + a.width ≤ m.size then
        .ok (if a.isSigned then Bits.signed (8 * a.width) (natAt m.bytes i a.width)
          else natAt m.bytes i a.width) m
      else .error .outOfBounds m := by
  unfold load
  rw [inBounds_natCast]
  simp only [decide_eq_true_eq, Int.toNat_natCast]

theorem store_eq (a : Accessor) (i : Nat) (value : Int) (m : LinearMemory) :
    store a i value m =
      if i + a.width ≤ m.size then
        .ok () { m with bytes := setNat m.bytes i (Bits.unsigned (8 * a.width) value) a.width }
      else .error .outOfBounds m := by
  unfold store
  rw [inBounds_natCast]
  simp only [decide_eq_true_eq, Int.toNat_natCast]

theorem copy_eq (d s n : Nat) (m : LinearMemory) :
    copy d s n m =
      if d + n ≤ m.size ∧ s + n ≤ m.size then
        .ok () { m with bytes := splice (m.bytes.extract s (s + n)) d m.bytes }
      else .error .outOfBounds m := by
  rw [copy, check_bind_eq]
  by_cases hd : d + n ≤ m.size
  · rw [if_pos hd, check_bind_eq]
    by_cases hs : s + n ≤ m.size
    · rw [if_pos hs, if_pos ⟨hd, hs⟩]
      have hcount : min (s + n - s) (m.size - d) = n := by omega
      change EStateM.Result.ok () { m with bytes := splice _ _ m.bytes } = _
      rw [clamp_natCast (by omega), clamp_natCast (by omega), clamp_add_natCast hs, hcount]
    · rw [if_neg hs, if_neg fun h => hs h.2]
  · rw [if_neg hd, if_neg fun h => hd h.1]

theorem fill_eq (d : Nat) (value : Int) (n : Nat) (m : LinearMemory) :
    fill d value n m =
      if d + n ≤ m.size then
        .ok ()
          { m with
            bytes := splice ⟨Array.replicate n (UInt8.ofNat (Bits.unsigned 8 value))⟩ d m.bytes }
      else .error .outOfBounds m := by
  rw [fill, check_bind_eq]
  by_cases hd : d + n ≤ m.size
  · rw [if_pos hd, if_pos hd]
    change EStateM.Result.ok () { m with bytes := splice _ _ m.bytes } = _
    rw [clamp_natCast (by omega), clamp_add_natCast hd, Nat.add_sub_cancel_left]
  · rw [if_neg hd, if_neg hd]

theorem write_eq (i : Nat) (data : ByteArray) (m : LinearMemory) :
    write i data m =
      if i + data.size ≤ m.size then .ok () { m with bytes := splice data i m.bytes }
      else .error .outOfBounds m := check_bind_eq _ _ _ _

theorem read_eq (i n : Nat) (m : LinearMemory) :
    read i n m =
      if i + n ≤ m.size then .ok (m.bytes.extract i (i + n)) m else .error .outOfBounds m := by
  rw [read, check_bind_eq]
  by_cases hi : i + n ≤ m.size
  · rw [if_pos hi, if_pos hi]
    change EStateM.Result.ok (m.bytes.extract _ _) m = _
    rw [clamp_natCast (by omega), clamp_add_natCast hi]
  · rw [if_neg hi, if_neg hi]

theorem grow_eq (hm : m.Fits) (delta : Nat) :
    grow delta m =
      if m.pages + delta ≤ m.maximum then
        .ok m.pages { m with bytes := addPages delta m.bytes, pages := m.pages + delta }
      else .ok (-1) m := by
  unfold grow
  by_cases hzero : delta = 0
  · subst hzero
    simp [hm.pages, addPages]
  · simp only [if_neg hzero]
    by_cases hle : m.pages + delta ≤ m.maximum
    · rw [if_neg (Nat.not_lt.mpr hle), if_pos hle]
    · rw [if_pos (Nat.lt_of_not_le hle), if_neg hle]

/-! ### Operations -/

/-- What an operation gave, without the memory. -/
def given {ε σ α : Type} : EStateM.Result ε σ α → Except ε α
  | .ok a _ => .ok a
  | .error e _ => .error e

def perform : MemoryOperation → Op Answer
  | .pages => do pure (.number (← get).pages)
  | .size => do pure (.number (← get).size)
  | .grow delta => .number <$> grow (Bits.unsigned32 delta)
  | .load a i => .number <$> load a i
  | .store a i value => (fun _ => .done) <$> store a i value
  | .copy d s n => (fun _ => .done) <$> copy d s n
  | .fill d value n => (fun _ => .done) <$> fill d value n
  | .write i data => (fun _ => .done) <$> write i data
  | .read i n => (fun bytes => .bytes bytes.data.toList) <$> read i n

/-- A memory holds the bytes of a flat one and may grow as far. -/
structure Represents (f : Flat) (m : LinearMemory) : Prop where
  bytes : m.contents = f.bytes
  most : m.maximum = f.most
  fits : m.Fits

theorem Represents.length (h : Represents f m) : f.bytes.length = m.size := by
  rw [← h.bytes, length_contents]

theorem Represents.pages (h : Represents f m) : f.pages = m.pages := by
  have hsize : m.size = 65536 * m.pages := h.fits.size
  rw [Flat.pages, h.length, hsize, Nat.mul_div_cancel_left _ (by decide)]

/-- An operation has the outcome that is said of a flat memory, and leaves the memory that is
said. -/
def Agrees (r : EStateM.Result TrapKind LinearMemory Answer)
    (said : Except TrapKind Answer × Flat) : Prop :=
  given r = said.1 ∧ Represents said.2 (after r)

/-- An operation that touches only what lies within the memory, and keeps its size. -/
theorem agrees_guarded {α : Type} {op : Op α} {g : α → Answer} {a : α} {answer : Answer}
    {within : Prop} [Decidable within] {bytes : ByteArray} {next : List UInt8} (h : Represents f m)
    (hop : op m = if within then .ok a { m with bytes } else .error .outOfBounds m)
    (hanswer : within → g a = answer) (hnext : within → bytes.data.toList = next)
    (hsize : within → next.length = f.bytes.length) :
    Agrees ((g <$> op) m) (f.guarded within answer next) := by
  have hmap : (g <$> op) m = EStateM.map g op m := rfl
  rw [hmap, Flat.guarded, EStateM.map, hop]
  by_cases hwithin : within
  · rw [if_pos hwithin, if_pos hwithin]
    refine ⟨congrArg _ (hanswer hwithin), hnext hwithin, h.most, h.fits.of_eq ?_ rfl rfl⟩
    rw [← length_contents, ← h.length, ← hsize hwithin, ← hnext hwithin]
    rfl
  · rw [if_neg hwithin, if_neg hwithin]
    exact ⟨rfl, h⟩

theorem unsigned_eq (width : Nat) (value : Int) :
    Bits.unsigned (8 * width) value = (value % 256 ^ width).toNat := by
  have hpow : (Bits.twoPow (8 * width) : Int) = 256 ^ width := by
    rw [Bits.twoPow_eq, Nat.pow_mul]
    norm_cast
  rw [Bits.unsigned, hpow]

/-- Each operation has the outcome that is said of flat memories. -/
theorem perform_agrees (h : Represents f m) (op : MemoryOperation) :
    Agrees (perform op m) (f.perform op) := by
  have hlength : f.bytes.length = m.size := h.length
  have hbytes : m.bytes.data.toList = f.bytes := h.bytes
  cases op with
  | pages => exact ⟨by rw [Flat.perform, h.pages]; rfl, h⟩
  | size => exact ⟨by rw [Flat.perform, hlength]; rfl, h⟩
  | grow delta =>
    have hmap : perform (.grow delta) m = EStateM.map .number (grow (Bits.unsigned32 delta)) m :=
      rfl
    have hdelta : Bits.unsigned32 delta = (delta % 2 ^ 32).toNat := rfl
    rw [hmap, EStateM.map, grow_eq h.fits, Flat.perform, h.pages, ← h.most, hdelta]
    -- A memory that may not grow so far stays as it is, and says so.
    by_cases hle : m.pages + (delta % 2 ^ 32).toNat ≤ m.maximum
    · simp only [if_pos hle]
      refine ⟨rfl, ?_, rfl, h.fits.addPages hle⟩
      rw [← hbytes, ← toList_addPages]
      rfl
    · simp only [if_neg hle]
      exact ⟨rfl, h⟩
  | load a i =>
    simp only [Flat.perform, perform, hlength]
    refine agrees_guarded h (load_eq a i m) (fun hi => ?_) (fun _ => hbytes) (fun _ => rfl)
    rw [natAt_eq _ _ _ hi, hbytes, Bits.signed_eq_toInt, BitVec.ofInt_natCast]
  | store a i value =>
    simp only [Flat.perform, perform, hlength]
    refine agrees_guarded h (store_eq a i value m) (fun _ => rfl) (fun hi => ?_)
      (fun hi => length_overwrite ?_)
    · rw [toList_setNat _ _ _ _ hi, hbytes, unsigned_eq]
    · rw [length_lowBytes, hlength]
      exact hi
  | copy d s n =>
    simp only [Flat.perform, perform, hlength]
    refine agrees_guarded h (copy_eq d s n m) (fun _ => rfl) (fun _ => ?_)
      (fun hi => length_overwrite ?_)
    · rw [toList_splice, toList_extract, hbytes]
    · have hslice := length_slice_le f.bytes s n
      omega
  | fill d value n =>
    simp only [Flat.perform, perform, hlength]
    refine agrees_guarded h (fill_eq d value n m) (fun _ => rfl) (fun _ => ?_)
      (fun hi => length_overwrite ?_)
    · rw [toList_splice, hbytes, Array.toList_replicate]
      rfl
    · rw [List.length_replicate, hlength]
      exact hi
  | write i data =>
    simp only [Flat.perform, perform, hlength]
    refine agrees_guarded h (write_eq i data m) (fun _ => rfl) (fun _ => ?_)
      (fun hi => length_overwrite ?_)
    · rw [toList_splice, hbytes]
    · rw [hlength]
      exact hi
  | read i n =>
    simp only [Flat.perform, perform, hlength]
    refine agrees_guarded h (read_eq i n m) (fun _ => ?_) (fun _ => hbytes) (fun _ => rfl)
    rw [toList_extract, hbytes]

/-! ### Sequences of operations -/

/-- What can be seen of a memory after an operation: what the operation gave, the bytes, and the
sizes that the memory tells. -/
structure Sight where
  outcome : Except TrapKind Answer
  bytes : List UInt8
  size : Nat
  pages : Nat

/-- What is seen of a memory after each of some operations. -/
def trace : List MemoryOperation → LinearMemory → List Sight
  | [], _ => []
  | op :: ops, m =>
    let r := perform op m
    let next := after r
    ⟨given r, next.contents, next.size, next.pages⟩ :: trace ops next

end LinearMemory

/-- What would be seen of a flat memory after each of some operations. -/
def Flat.trace : List MemoryOperation → Flat → List LinearMemory.Sight
  | [], _ => []
  | op :: ops, f =>
    let r := f.perform op
    ⟨r.1, r.2.bytes, r.2.bytes.length, r.2.pages⟩ :: Flat.trace ops r.2

namespace LinearMemory

variable {m : LinearMemory} {f : Flat}

/-- Any operations look the same on a memory and on a flat one that it holds. -/
theorem trace_represents (ops : List MemoryOperation) :
    ∀ (f : Flat) (m : LinearMemory), Represents f m →
    trace ops m = f.trace ops ∧
      ∀ s ∈ trace ops m, s.size = 65536 * s.pages ∧ s.pages ≤ m.maximum := by
  -- The induction is on the operations, which keep the memories alike and the maximum as it is.
  induction ops with
  | nil => exact fun f m _ => ⟨rfl, fun s hs => absurd hs List.not_mem_nil⟩
  | cons op ops ih =>
    intro f m h
    obtain ⟨hgiven, hnext⟩ := perform_agrees h op
    obtain ⟨htrace, hsizes⟩ := ih _ _ hnext
    have hmaximum : (after (perform op m)).maximum = m.maximum := by
      rw [hnext.most, h.most]
      exact Flat.most_perform f op
    refine ⟨?_, ?_⟩
    · rw [trace, Flat.trace, hgiven, htrace, hnext.bytes, hnext.length, hnext.pages]
    · rw [trace, List.forall_mem_cons]
      refine ⟨⟨hnext.fits.size, ?_⟩, ?_⟩
      · rw [← hmaximum]
        exact hnext.fits.pages
      · rwa [hmaximum] at hsizes

/-! ### Memories that are made -/

theorem bind_throw_ne {α β ε : Type} {x : Except ε α} {e : α → ε} {b : β} :
    (x >>= fun a => throw (e a)) ≠ Except.ok b := by
  cases x <;> rintro ⟨⟩

/-- The sizes that a memory is made with are the numbers asked for, the largest possible maximum if
none is asked for. -/
theorem make_cases {initial maximum : HostValue} (h : make initial maximum = .ok m) :
    ∃ n k : Nat, initial.integer? = some (n : Int) ∧
      (maximum = .undefined ∧ k = 65536 ∨ maximum.integer? = some (k : Int)) ∧
      n ≤ k ∧ k ≤ 65536 ∧ Represents (Flat.zeros n k) m := by
  unfold make at h
  dsimp only at h
  -- The maximum is read before the initial size, and a missing one is the largest possible.
  split at h
  · exact (bind_throw_ne h).elim
  · next most start hmost =>
    split at h
    · cases h
    · next hbound =>
      split at h
      · next n hinitial =>
        split at h
        · next hn =>
          cases h
          obtain ⟨n, rfl⟩ := Int.eq_ofNat_of_zero_le hn.1
          obtain ⟨k, rfl⟩ := Int.eq_ofNat_of_zero_le (hn.1.trans hn.2)
          have hk : k ≤ 65536 := Int.ofNat_le.mp (Int.not_lt.mp hbound)
          have hle : n ≤ k := Int.ofNat_le.mp hn.2
          refine ⟨n, k, hinitial, ?_, hle, hk, ?_, rfl, ?_⟩
          · split at hmost
            · have hnone : (HostValue.number (.ofInt maxPages)).integer? = some 65536 := by decide
              rw [hnone] at hmost
              exact .inl ⟨rfl, (Int.ofNat.inj (Option.some.inj hmost)).symm⟩
            · exact .inr hmost
          · exact toList_addPages n .empty
          · exact (fits_create hle hk).of_eq rfl rfl rfl
        · cases h
      · exact (bind_throw_ne h).elim

/-- Whatever is done to a memory from the moment it is made looks as if it were done to a list of
bytes, of zeros at first.  Its size always is that of its pages, and these never exceed the maximum
that it was made with. -/
theorem trace_eq_flat {initial maximum : HostValue} (h : make initial maximum = .ok m)
    (ops : List MemoryOperation) :
    ∃ n k : Nat, initial.integer? = some (n : Int) ∧
      (maximum = .undefined ∧ k = 65536 ∨ maximum.integer? = some (k : Int)) ∧
      n ≤ k ∧ k ≤ 65536 ∧ m.contents = (Flat.zeros n k).bytes ∧
      trace ops m = (Flat.zeros n k).trace ops ∧
      ∀ s ∈ trace ops m, s.size = 65536 * s.pages ∧ s.pages ≤ k := by
  obtain ⟨n, k, hinitial, hmaximum, hle, hbound, hrepresents⟩ := make_cases h
  obtain ⟨htrace, hsizes⟩ := trace_represents ops _ _ hrepresents
  refine ⟨n, k, hinitial, hmaximum, hle, hbound, hrepresents.bytes, htrace, ?_⟩
  rwa [hrepresents.most] at hsizes

/-- A memory of one page that may have two. -/
theorem make_one : make (.number (.ofInt 1)) (.number (.ofInt 2)) = .ok (create 1 2) := by
  rfl

/-- It refuses to grow by -1, grows by one page, writes over its last bytes from a range that
overlaps them, and traps where a range would leave it. -/
theorem trace_eq_flat_one :
    let ops : List MemoryOperation :=
      [.grow (-1), .grow 1, .store .storeI16 131070 (-2), .copy 131069 131068 3,
        .load .loadI8 131071, .fill 131071 257 2]
    make (.number (.ofInt 1)) (.number (.ofInt 2)) = .ok (create 1 2) ∧
      trace ops (create 1 2) = (Flat.zeros 1 2).trace ops ∧
      ∀ s ∈ trace ops (create 1 2), s.size = 65536 * s.pages ∧ s.pages ≤ 2 := by
  intro ops
  obtain ⟨n, k, hn, hk, -, -, -, htrace, hsizes⟩ := trace_eq_flat make_one ops
  have hone : (HostValue.number (.ofInt 1)).integer? = some 1 := by decide
  have htwo : (HostValue.number (.ofInt 2)).integer? = some 2 := by decide
  rw [hone] at hn
  rw [htwo] at hk
  obtain rfl : 1 = n := Int.ofNat.inj (Option.some.inj hn)
  obtain rfl : 2 = k := by
    rcases hk with ⟨hno, -⟩ | hk
    · cases hno
    · exact Int.ofNat.inj (Option.some.inj hk)
  exact ⟨make_one, htrace, hsizes⟩

end LinearMemory

end WasmScript
