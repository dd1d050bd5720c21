/-
  WasmScript/Proofs/Module/Buffers.lean
  =====================================
  **Byte buffers as lists** — what is appended to a buffer is all that it holds.

  A view that is doubled again and again keeps its filled part, so a buffer may be taken for the
  list of its bytes.  An action that only appends to that list is `Appends`; writing bytes one by
  one and writing those of a view at once are both such actions.  `buffer_holds_pushed` carries
  this through any calls of a host.

  The doubling is bounded because a view never starts without room: `Sound` says so, and every
  action keeps it.
-/
import Mathlib.Data.Nat.Log
import WasmScript.Host.Buffer
import WasmScript.Proofs.Number.Whole
import WasmScript.Proofs.Sequences

namespace WasmScript

namespace ByteBuffer

/-! ### Buffers -/

def content (b : ByteBuffer) : List UInt8 := b.toBytes.data.toList

/-- Whether the filled bytes are within the view, which has room for some. -/
structure Sound (b : ByteBuffer) : Prop where
  room : 0 < b.capacity
  filled : b.length ≤ b.capacity

variable {b : ByteBuffer}

theorem content_eq (b : ByteBuffer) : b.content = b.view.data.toList.take b.length := by
  rw [content, toBytes, ByteArray.data_extract, Array.toList_extract, List.extract_eq_take_drop]
  rfl

theorem size_zeros (count : Nat) : (zeros count).size = count := Array.size_replicate

theorem create_spec (capacity : Int) :
    (create capacity).Sound ∧ (create capacity).content = [] := by
  refine ⟨⟨?_, Nat.zero_le _⟩, ?_⟩
  · change 0 < (zeros (max capacity 16).toNat).size
    rw [size_zeros]
    omega
  · rw [content_eq]
    exact List.take_zero

theorem doubled_spec (capacity needed : Nat) (h : 0 < capacity) :
    capacity ≤ doubled capacity needed ∧ needed ≤ doubled capacity needed := by
  fun_induction doubled capacity needed with
  | case1 capacity hless ih =>
    obtain ⟨hle, hneeded⟩ := ih (by omega)
    exact ⟨by omega, hneeded⟩
  | case2 capacity hnot => exact ⟨Nat.le_refl _, by omega⟩

/-- Doubling ends, and no sooner than it has to. -/
theorem doubled_rounds {capacity : Nat} (needed : Nat) (h : 0 < capacity) :
    ∃ rounds, (∀ j < rounds, capacity * 2 ^ j < needed) ∧ needed ≤ capacity * 2 ^ rounds ∧
      doubled capacity needed = capacity * 2 ^ rounds := by
  fun_induction doubled capacity needed with
  | case1 capacity hless ih =>
    obtain ⟨rounds, hbefore, hneeded, hdoubled⟩ := ih (by omega)
    have hshift (j : Nat) : 2 * capacity * 2 ^ j = capacity * 2 ^ (j + 1) := by
      rw [Nat.pow_succ', Nat.mul_comm 2 capacity, Nat.mul_assoc]
    rw [hshift] at hneeded hdoubled
    refine ⟨rounds + 1, fun j hj => ?_, hneeded, hdoubled⟩
    cases j with
    | zero => exact (Nat.mul_one capacity).symm ▸ hless.2
    | succ j => exact hshift j ▸ hbefore j (Nat.lt_of_succ_lt_succ hj)
  | case2 capacity hnot => exact ⟨0, nofun, by omega, (Nat.mul_one capacity).symm⟩

/-- A buffer with more room has the same bytes. -/
theorem reserve_spec (h : b.Sound) (needed : Nat) :
    (b.reserve needed).Sound ∧ needed ≤ (b.reserve needed).capacity ∧
      (b.reserve needed).length = b.length ∧ (b.reserve needed).content = b.content := by
  rw [reserve]
  split
  · next hfits => exact ⟨h, hfits, rfl, rfl⟩
  · obtain ⟨hcapacity, hneeded⟩ := doubled_spec b.capacity needed h.room
    have hroom := h.room
    have hle : b.length ≤ b.view.size := h.filled
    have hsize : (b.view.extract 0 b.length).size = b.length := by
      rw [ByteArray.size_extract]
      omega
    -- The old bytes come first in the new view, and zeros behind them.
    have hview : (b.view.extract 0 b.length).copySlice 0 (zeros (doubled b.capacity needed)) 0
        b.length = b.view.extract 0 b.length
          ++ (zeros (doubled b.capacity needed)).extract b.length (doubled b.capacity needed) := by
      have hmin : min b.length ((b.view.extract 0 b.length).data.size - 0) = b.length := by
        change min b.length ((b.view.extract 0 b.length).size - 0) = b.length
        omega
      have hall : (zeros (doubled b.capacity needed)).data.size = doubled b.capacity needed :=
        size_zeros _
      have hself := ByteArray.extract_zero_size (b := b.view.extract 0 b.length)
      rw [hsize] at hself
      rw [ByteArray.copySlice_eq_append, hmin, hall, Nat.zero_add, hself, ByteArray.extract_same,
        ByteArray.empty_append]
    have hnew : ((b.view.extract 0 b.length).copySlice 0 (zeros (doubled b.capacity needed)) 0
        b.length).size = doubled b.capacity needed := by
      rw [hview, ByteArray.size_append, hsize, ByteArray.size_extract, size_zeros]
      have hcap : b.view.size = b.capacity := rfl
      omega
    refine ⟨⟨?_, ?_⟩, ?_, rfl, ?_⟩
    · exact Nat.lt_of_lt_of_le hroom (hcapacity.trans hnew.ge)
    · exact h.filled.trans (hcapacity.trans hnew.ge)
    · exact hneeded.trans hnew.ge
    · rw [content, content, toBytes, toBytes]
      dsimp only
      rw [hview, ByteArray.extract_append_eq_left hsize.symm]

theorem size_place (bs : List UInt8) :
    ∀ (view : ByteArray) (i : Nat), (place view i bs).size = view.size := by
  induction bs with
  | nil => exact fun view i => rfl
  | cons b bs ih =>
    intro view i
    exact (ih _ _).trans (Array.size_setIfInBounds)

/-- What stands before a place is kept, and the bytes come after it. -/
theorem take_place (bs : List UInt8) : ∀ (view : ByteArray) (i : Nat), i + bs.length ≤ view.size →
    (place view i bs).data.toList.take (i + bs.length) = view.data.toList.take i ++ bs := by
  induction bs with
  | nil => exact fun view i _ => (List.append_nil _).symm
  | cons b bs ih =>
    intro view i hfits
    rw [List.length_cons] at hfits
    have hset : (view.set! i b).data.toList = view.data.toList.set i b := Array.toList_setIfInBounds
    have hlength : i < view.data.toList.length := by
      change i < view.size
      omega
    have hsize : (view.set! i b).size = view.size := Array.size_setIfInBounds
    have hrest := ih (view.set! i b) (i + 1) (by omega)
    rw [hset, List.take_add_one, List.take_set_of_le (Nat.le_refl i),
      List.getElem?_set_self hlength, Nat.add_assoc, Nat.add_comm 1] at hrest
    exact hrest.trans (List.append_assoc _ _ _)

/-- What stands before a place is kept, and bytes that are copied at once come after it. -/
theorem take_copySlice {view bytes : ByteArray} {i : Nat} (h : i + bytes.size ≤ view.size) :
    (bytes.copySlice 0 view i bytes.size).size = view.size ∧
      (bytes.copySlice 0 view i bytes.size).data.toList.take (i + bytes.size)
        = view.data.toList.take i ++ bytes.data.toList := by
  have hmin : min bytes.size (bytes.data.size - 0) = bytes.size := Nat.min_self _
  have hview : bytes.copySlice 0 view i bytes.size
      = view.extract 0 i ++ bytes ++ view.extract (i + bytes.size) view.size := by
    rw [ByteArray.copySlice_eq_append, hmin, Nat.zero_add, ByteArray.extract_zero_size]
    rfl
  have hfront :
      (view.extract 0 i ++ bytes).data.toList = view.data.toList.take i ++ bytes.data.toList := by
    rw [ByteArray.data_append, Array.toList_append, ByteArray.data_extract, Array.toList_extract,
      List.extract_eq_take_drop]
    rfl
  have hlength : (view.extract 0 i ++ bytes).data.toList.length = i + bytes.size := by
    change (view.extract 0 i ++ bytes).size = i + bytes.size
    rw [ByteArray.size_append, ByteArray.size_extract]
    omega
  constructor
  · rw [hview, ByteArray.size_append, ByteArray.size_append, ByteArray.size_extract,
      ByteArray.size_extract]
    omega
  · rw [hview, ByteArray.data_append, Array.toList_append, ← hlength, List.take_left, hfront]

/-- Making room and then writing bytes behind the length, in whatever way, appends them. -/
theorem append_spec (h : b.Sound) {write : ByteArray → Nat → ByteArray} {bs : List UInt8}
    (hwrite : ∀ view i, i + bs.length ≤ view.size → (write view i).size = view.size ∧
      (write view i).data.toList.take (i + bs.length) = view.data.toList.take i ++ bs) :
    let r := b.reserve (b.length + bs.length)
    (⟨write r.view r.length, r.length + bs.length⟩ : ByteBuffer).Sound ∧
      (⟨write r.view r.length, r.length + bs.length⟩ : ByteBuffer).content = b.content ++ bs := by
  intro r
  obtain ⟨hsound, hroom, hlength, hcontent⟩ := reserve_spec h (b.length + bs.length)
  obtain ⟨hsize, htake⟩ := hwrite r.view r.length (by rw [hlength]; exact hroom)
  refine ⟨⟨hsound.room.trans_eq hsize.symm, ?_⟩, ?_⟩
  · change r.length + bs.length ≤ (write r.view r.length).size
    rw [hsize, hlength]
    exact hroom
  · rw [← hcontent, content_eq, content_eq]
    exact htake

theorem push_spec (h : b.Sound) (bs : List UInt8) :
    (b.push bs).Sound ∧ (b.push bs).content = b.content ++ bs :=
  append_spec h fun view i hfits => ⟨size_place bs view i, take_place bs view i hfits⟩

theorem pushView_spec (h : b.Sound) (bytes : ByteArray) :
    (b.pushView bytes).Sound ∧ (b.pushView bytes).content = b.content ++ bytes.data.toList :=
  append_spec h fun _ _ hfits => take_copySlice hfits

/-! ### Actions that append -/

/-- Whether an action appends some bytes. -/
def Appends (f : ByteBuffer → ByteBuffer) (bs : List UInt8) : Prop :=
  ∀ b : ByteBuffer, b.Sound → (f b).Sound ∧ (f b).content = b.content ++ bs

theorem appends_push (bs : List UInt8) : Appends (·.push bs) bs := fun _ h => push_spec h bs

theorem appends_pushView (bytes : ByteArray) : Appends (·.pushView bytes) bytes.data.toList :=
  fun _ h => pushView_spec h bytes

theorem appends_self : Appends id [] := fun _ h => ⟨h, (List.append_nil _).symm⟩

theorem Appends.comp {f g : ByteBuffer → ByteBuffer} {bs cs : List UInt8} (hf : Appends f bs)
    (hg : Appends g cs) : Appends (g ∘ f) (bs ++ cs) := by
  intro b h
  obtain ⟨hsound, hcontent⟩ := hf b h
  obtain ⟨hend, hall⟩ := hg (f b) hsound
  exact ⟨hend, by rw [Function.comp_apply, hall, hcontent, List.append_assoc]⟩

theorem appends_foldl {α : Type} {f : ByteBuffer → α → ByteBuffer} {write : α → List UInt8}
    (h : ∀ a, Appends (f · a) (write a)) (as : Array α) :
    Appends (fun b => as.foldl f b) (as.toList.flatMap write) := by
  simp only [← Array.foldl_toList]
  induction as.toList with
  | nil => exact appends_self
  | cons a as ih => exact (h a).comp ih

end ByteBuffer

/-! ### Calls of a host -/

/-- Something to append. -/
inductive BufferCall where
  | pushByte (x : Number)
  | push (xs : List Number)
  | pushArray (chunk : ByteBuffer.Chunk)

namespace ByteBuffer.Chunk

/-- The numbers of a chunk without their fractions. -/
def integers : Chunk → List Int
  | .numbers xs => xs.map Number.truncated
  | .view bytes => bytes.data.toList.map fun b => (b.toNat : Int)

def toHost : Chunk → HostValue
  | .numbers xs => .array (xs.map .number)
  | .view bytes => .bytes bytes

end ByteBuffer.Chunk

namespace BufferCall

open ByteBuffer

def perform (b : ByteBuffer) : BufferCall → ByteBuffer
  | .pushByte x => b.pushByte x.toByte
  | .push xs => b.pushArray (.numbers xs)
  | .pushArray chunk => b.pushArray chunk

/-- The integers that a call appends, before they are bytes. -/
def pushed : BufferCall → List Int
  | .pushByte x => [x.truncated]
  | .push xs => xs.map Number.truncated
  | .pushArray chunk => chunk.integers

def ask : BufferCall → HostBuffer.Act HostValue
  | .pushByte x => HostBuffer.perform "pushByte" [.number x]
  | .push xs => HostBuffer.perform "push" (xs.map .number)
  | .pushArray chunk => HostBuffer.perform "pushArray" [chunk.toHost]

/-- Calls one after another, as a host makes them. -/
def askAll : List BufferCall → HostBuffer.Act Unit
  | [] => pure ()
  | call :: calls => do
    let _ ← call.ask
    askAll calls

def byteOfInt (n : Int) : UInt8 := UInt8.ofNat (n % 256).toNat

theorem toByte_eq (x : Number) : x.toByte = byteOfInt x.truncated := by
  have hpow : (Bits.twoPow 32 : Int) = 2 ^ 32 := by decide
  rw [Number.toByte, Number.toUInt32, Bits.unsigned, hpow, byteOfInt]
  congr 1
  omega

theorem byteOfInt_toNat (b : UInt8) : byteOfInt b.toNat = b := by
  have hlt := b.toNat_lt
  rw [byteOfInt, show (b.toNat : Int) % 256 = b.toNat by omega, Int.toNat_natCast,
    UInt8.ofNat_toNat]

theorem appends_chunk (chunk : Chunk) :
    Appends (·.pushArray chunk) (chunk.integers.map byteOfInt) := by
  cases chunk with
  | numbers xs =>
    have hbyte : byteOfInt ∘ Number.truncated = Number.toByte := funext fun x => (toByte_eq x).symm
    rw [Chunk.integers, List.map_map, hbyte]
    exact appends_push _
  | view bytes =>
    have hself : byteOfInt ∘ (fun b : UInt8 => (b.toNat : Int)) = id := funext byteOfInt_toNat
    rw [Chunk.integers, List.map_map, hself, List.map_id]
    exact appends_pushView bytes

theorem appends_perform (call : BufferCall) :
    Appends (perform · call) (call.pushed.map byteOfInt) := by
  cases call with
  | pushByte x =>
    rw [pushed, List.map_singleton, ← toByte_eq]
    exact appends_push [x.toByte]
  | push xs => exact appends_chunk (.numbers xs)
  | pushArray chunk => exact appends_chunk chunk

theorem appends_performAll (calls : List BufferCall) :
    Appends (fun b => calls.foldl perform b) ((calls.flatMap pushed).map byteOfInt) := by
  have hall := appends_foldl appends_perform calls.toArray
  simp only [List.foldl_toArray] at hall
  rwa [List.map_flatMap]

/-! ### What a host gets -/

variable {b : ByteBuffer}

theorem get_eq (b : HostBuffer) : (get : HostBuffer.Act HostBuffer) b = .ok b b := rfl

theorem buffer?_ofBuffer (h : b.length ≤ b.capacity) :
    (HostBuffer.ofBuffer b).buffer? = some b := by
  have hlength : (HostBuffer.ofBuffer b).length.integer? = some (b.length : Int) :=
    (Number.Represents.ofInt b.length).toInteger?
  rw [HostBuffer.buffer?, hlength]
  exact if_pos h

theorem pushArray_ofBuffer (h : b.length ≤ b.capacity) (chunk : Chunk) :
    HostBuffer.pushArray chunk.toHost (HostBuffer.ofBuffer b) =
      .ok () (HostBuffer.ofBuffer (b.pushArray chunk)) := by
  have hchunk : HostBuffer.chunk? chunk.toHost = some chunk := by
    cases chunk with
    | numbers xs =>
      have hnumbers : (xs.map HostValue.number).mapM HostValue.toNumber = .ok xs := by
        induction xs with
        | nil => rfl
        | cons x xs ih =>
          rw [List.map_cons, List.mapM_cons, ih]
          rfl
      change (((xs.map HostValue.number).mapM HostValue.toNumber).toOption.map Chunk.numbers) = _
      rw [hnumbers]
      rfl
    | view bytes => rfl
  refine (bind_at_ok (get_eq _)).trans ?_
  rw [buffer?_ofBuffer h, hchunk]
  rfl

theorem ask_eq (h : b.length ≤ b.capacity) (call : BufferCall) :
    call.ask (HostBuffer.ofBuffer b) = .ok .undefined (HostBuffer.ofBuffer (perform b call)) := by
  cases call with
  | pushByte x =>
    have hbyte : HostBuffer.pushByte (.number x) (HostBuffer.ofBuffer b)
        = .ok () (HostBuffer.ofBuffer (b.pushByte x.toByte)) := by
      refine (bind_at_ok (get_eq _)).trans ?_
      rw [buffer?_ofBuffer h]
      rfl
    exact bind_at_ok hbyte
  | push xs => exact bind_at_ok (pushArray_ofBuffer h (.numbers xs))
  | pushArray chunk => exact bind_at_ok (pushArray_ofBuffer h chunk)

theorem askAll_eq (h : b.Sound) (calls : List BufferCall) :
    askAll calls (HostBuffer.ofBuffer b) =
      .ok () (HostBuffer.ofBuffer (calls.foldl perform b)) := by
  induction calls generalizing b with
  | nil => rfl
  | cons call calls ih =>
    obtain ⟨hsound, -⟩ := appends_perform call b h
    exact (bind_at_ok (ask_eq h.filled call)).trans (ih hsound)

theorem filled_ofBuffer (h : b.length ≤ b.capacity) :
    (HostBuffer.ofBuffer b).filled = .ok b.toBytes := by
  have hwhole : (Number.ofInt b.length).truncated = b.length :=
    (Number.Represents.ofInt b.length).truncated
  have hend : HostBuffer.endOf b.view (.ofInt b.length) = b.length := by
    have hends : HostBuffer.endOf b.view (.ofInt b.length)
        = if (Number.ofInt b.length).truncated <
            0 then (b.view.size + (Number.ofInt b.length).truncated).toNat
          else min (Number.ofInt b.length).truncated.toNat b.view.size := rfl
    rw [hends, hwhole, if_neg (by omega)]
    exact Nat.min_eq_left h
  change Except.ok (b.view.extract 0 (HostBuffer.endOf b.view (.ofInt b.length))) = _
  rw [hend]
  rfl

/-- Whatever a host appends to a buffer, of whatever capacity, the buffer has all that was appended,
in order and modulo 256.  There is room for it, and when more is needed a few doublings give it.

Making a view is assumed to succeed: of a capacity that `HostBuffer.ofCapacity` refuses there is no
buffer to speak of. -/
theorem buffer_holds_pushed (capacity : Int) (calls : List BufferCall) :
    let b := calls.foldl perform (.create capacity)
    let pushed := calls.flatMap pushed
    askAll calls (HostBuffer.ofBuffer (.create capacity)) = .ok () (HostBuffer.ofBuffer b) ∧
      HostBuffer.perform "length" [] (HostBuffer.ofBuffer b) =
        .ok (.ofNat pushed.length) (HostBuffer.ofBuffer b) ∧
      HostBuffer.perform "toUint8Array" [] (HostBuffer.ofBuffer b) =
        .ok (.bytes b.toBytes) (HostBuffer.ofBuffer b) ∧
      b.toBytes.data.toList.map UInt8.toNat = pushed.map (fun n => (n % 256).toNat) ∧
      b.length ≤ b.capacity ∧
      ∀ needed, ∃ rounds, (∀ j < rounds, b.capacity * 2 ^ j < needed) ∧
          needed ≤ b.capacity * 2 ^ rounds ∧
        doubled b.capacity needed = b.capacity * 2 ^ rounds := by
  intro b pushed
  obtain ⟨hstart, hempty⟩ := create_spec capacity
  -- All calls together append what each of them pushes.
  obtain ⟨hsound, hcontent⟩ := appends_performAll calls _ hstart
  rw [hempty, List.nil_append] at hcontent
  refine ⟨askAll_eq hstart calls, ?_, ?_, ?_, hsound.filled, fun needed =>
    doubled_rounds needed hsound.room⟩
  · have hfilled : b.content.length = b.length := by
      rw [content_eq]
      exact List.length_take_of_le hsound.filled
    have hlength : b.length = pushed.length :=
      hfilled.symm.trans ((congrArg List.length hcontent).trans (List.length_map _))
    rw [← hlength]
    rfl
  · have hname : HostBuffer.perform "toUint8Array" [] (HostBuffer.ofBuffer b)
        = (HostValue.bytes <$> HostBuffer.accept (HostBuffer.ofBuffer b).filled)
          (HostBuffer.ofBuffer b) := rfl
    rw [hname, filled_ofBuffer hsound.filled]
    rfl
  · have hbyte : UInt8.toNat ∘ byteOfInt = fun n : Int => (n % 256).toNat := by
      funext n
      rw [Function.comp_apply, byteOfInt, UInt8.toNat_ofNat']
      omega
    have hall := congrArg (List.map UInt8.toNat) hcontent
    rwa [List.map_map, hbyte] at hall

end BufferCall

end WasmScript
