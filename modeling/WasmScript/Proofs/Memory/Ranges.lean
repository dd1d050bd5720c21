/-
  WasmScript/Proofs/Memory/Ranges.lean
  ====================================
  **Ranges that a host names** — which bytes copying, filling and reading touch.

  A host passes addresses and lengths as numbers, of any sign and size.  Before a byte is
  touched each range is checked: its address must not be negative and its end must not lie
  beyond the memory.  Nothing is asked of its length.  So a range of a negative length passes
  whenever its end does, and where that end is negative as well it counts from the end of the
  memory: the operation works on bytes that the range does not have.

  `Confined` says that a call keeps to the ranges that it names.  Every call without a negative
  length does, and of the others only those that trap: `call_confined_iff`.
-/
import WasmScript.Proofs.Memory.Contents
import WasmScript.Proofs.Number.Sums
import WasmScript.Proofs.Sequences

namespace WasmScript

/-- A range of bytes, by its address and its length. -/
structure ByteRange where
  address : Int
  length : Int

namespace ByteRange

/-- The range has a length and lies inside a memory of some size. -/
structure Within (x : ByteRange) (size : Nat) : Prop where
  length : 0 ≤ x.length
  address : 0 ≤ x.address
  stop : x.address + x.length ≤ size

/-- A place is in the range. -/
def Contains (x : ByteRange) (i : Int) : Prop := x.address ≤ i ∧ i < x.address + x.length

/-- What the memory asks of a range. -/
def Passes (x : ByteRange) (size : Nat) : Prop := 0 ≤ x.address ∧ x.address + x.length ≤ size

instance (x : ByteRange) (size : Nat) : Decidable (x.Passes size) :=
  inferInstanceAs (Decidable (_ ∧ _))

theorem not_passes_iff {x : ByteRange} {size : Nat} :
    ¬ x.Passes size ↔ x.address < 0 ∨ size < x.address + x.length := by
  unfold Passes
  omega

theorem passes_natCast {i k size : Nat} : (⟨i, k⟩ : ByteRange).Passes size ↔ i + k ≤ size := by
  unfold Passes
  dsimp only
  omega

end ByteRange

/-- An operation on ranges. -/
inductive RangeOperation where
  | copy (destination source length : Int)
  | fill (destination : Int) (value : Number) (length : Int)
  | read (address length : Int)

namespace RangeOperation

/-- The ranges that an operation names, in the order in which they are checked. -/
def ranges : RangeOperation → List ByteRange
  | .copy d s n => [⟨d, n⟩, ⟨s, n⟩]
  | .fill d _ n => [⟨d, n⟩]
  | .read i n => [⟨i, n⟩]

def written : RangeOperation → List ByteRange
  | .copy d _ n => [⟨d, n⟩]
  | .fill d _ n => [⟨d, n⟩]
  | .read _ _ => []

def length : RangeOperation → Int
  | .copy _ _ n => n
  | .fill _ _ n => n
  | .read _ n => n

/-- What the operation gives: all the bytes of the range that is read. -/
def ResultIs (m : LinearMemory) (v : HostValue) : RangeOperation → Prop
  | .copy .. | .fill .. => v = .undefined
  | .read i n => ∃ bytes : ByteArray, v = .bytes bytes ∧ (bytes.size : Int) = n ∧
      bytes.data.toList = slice m.contents i.toNat n.toNat

/-- A call asks for an operation, with doubles that are its addresses and its length. -/
inductive Asked : MemoryCall → RangeOperation → Prop where
  | copy {destination source length : Number} {d s n : Int} : destination.toInteger? = some d →
      source.toInteger? = some s → length.toInteger? = some n →
      Asked (.copy (.number destination) (.number source) (.number length)) (.copy d s n)
  | fill {destination value length : Number} {d n : Int} : destination.toInteger? = some d →
      length.toInteger? = some n →
      Asked (.fill (.number destination) (.number value) (.number length)) (.fill d value n)
  | read {address length : Number} {i n : Int} : address.toInteger? = some i →
      length.toInteger? = some n →
      Asked (.read (.number address) (.number length)) (.read i n)

end RangeOperation

namespace MemoryCall

open RangeOperation

/-- A call that traps and leaves the memory as it is. -/
def Trapped (call : MemoryCall) (m : LinearMemory) : Prop :=
  call.perform m = .error (.trap .outOfBounds) m

/-- A call that keeps to its ranges: it traps and changes nothing, or they lie inside the memory and
it changes no byte outside of those it writes to. -/
inductive Confined (call : MemoryCall) (op : RangeOperation) (m : LinearMemory) : Prop where
  | trapped : call.Trapped m → Confined call op m
  | done {v : HostValue} {m' : LinearMemory} : call.perform m = .ok v m' →
      (∀ x ∈ op.ranges, x.Within m.size) → op.ResultIs m v →
      m' = { m with bytes := m'.bytes } → m'.size = m.size →
      (∀ i : Nat, (∀ x ∈ op.written, ¬ x.Contains i) → m'.contents[i]? = m.contents[i]?) →
      Confined call op m

variable {α : Type} {m : LinearMemory} {x : Number} {a n : Int}

/-! ### Numbers of a host -/

theorem size_lt (hm : m.Fits) : m.size < 2 ^ 53 := by
  have hpages : m.pages ≤ 65536 := hm.pages.trans hm.maximum
  have hsize : m.size = 65536 * m.pages := hm.size
  omega

theorem toAddress_eq (h : x.toInteger? = some a) :
    toAddress (.number x) m = if 0 ≤ a then .ok a.toNat m else .error (.trap .outOfBounds) m := by
  have hinteger : (HostValue.number x).integer? = some a := h
  unfold toAddress
  rw [hinteger]
  cases a with
  | ofNat k => rfl
  | negSucc k => rfl

/-- The end of a range is checked as it is, although it is rounded. -/
theorem toEnd_eq (hm : m.Fits) (h : x.toInteger? = some n) (k : Nat) :
    if (k : Int) + n ≤ m.size then ∃ stop, toEnd k (.number x) m = .ok stop m
    else toEnd k (.number x) m = .error (.trap .outOfBounds) m := by
  have hsize := size_lt hm
  have hlt := Number.lt_add h k (j := m.size) (by omega)
  have hsum : accept ((HostValue.number (.ofInt k)).plus (.number x)) m
      = .ok (.number ((Number.ofInt k).add x)) m := rfl
  have hstop : accept (HostValue.number ((Number.ofInt k).add x)).toNumber m
      = .ok ((Number.ofInt k).add x) m := rfl
  have hget : (get : Act LinearMemory) m = .ok m m := rfl
  have hrun : toEnd k (.number x) m = _ :=
    (bind_at_ok hsum).trans ((bind_at_ok hstop).trans (bind_at_ok hget))
  rw [hrun]
  split
  · next hle =>
    rw [decide_eq_false (by omega)] at hlt
    rw [if_neg (by rw [hlt]; exact Bool.false_ne_true)]
    cases (Number.ofInt k).add x <;> exact ⟨_, rfl⟩
  · next hgt =>
    rw [decide_eq_true (by omega)] at hlt
    rw [if_pos hlt]
    rfl

theorem toEnd_bind_eq (hm : m.Fits) (h : x.toInteger? = some n) (k : Nat) (rest : Act α) :
    (do let _ ← toEnd k (.number x); rest : Act α) m =
      if (k : Int) + n ≤ m.size then rest m else .error (.trap .outOfBounds) m := by
  have hend := toEnd_eq hm h k
  split
  · next hle =>
    rw [if_pos hle] at hend
    obtain ⟨stop, hstop⟩ := hend
    exact bind_at_ok hstop
  · next hgt =>
    rw [if_neg hgt] at hend
    exact bind_at_error hend

theorem toLength_eq (hm : m.Fits) (h : x.toInteger? = some n) (k : Nat) :
    toLength k (.number x) m =
      if (k : Int) + n ≤ m.size then .ok n m else .error (.trap .outOfBounds) m := by
  have hinteger : (HostValue.number x).integer? = some n := h
  have hend := toEnd_eq hm h k
  split
  · next hle =>
    rw [if_pos hle] at hend
    obtain ⟨stop, hstop⟩ := hend
    refine (bind_at_ok hstop).trans ?_
    rw [hinteger]
    rfl
  · next hgt =>
    rw [if_neg hgt] at hend
    exact bind_at_error hend

theorem toLength_bind_eq (hm : m.Fits) (h : x.toInteger? = some n) (k : Nat) (rest : Int → Act α) :
    (toLength k (.number x) >>= rest) m =
      if (k : Int) + n ≤ m.size then rest n m else .error (.trap .outOfBounds) m := by
  have hlength := toLength_eq hm h k
  split
  · next hle =>
    rw [if_pos hle] at hlength
    exact bind_at_ok hlength
  · next hgt =>
    rw [if_neg hgt] at hlength
    exact bind_at_error hlength

/-- An address, and after it something that fails unless the range ends within the memory. -/
theorem toAddress_bind_eq (h : x.toInteger? = some a) {rest : Nat → Act α}
    {r : EStateM.Result Failure LinearMemory α}
    (hrest : 0 ≤ a → rest a.toNat m = if a + n ≤ m.size then r else .error (.trap .outOfBounds) m) :
    (toAddress (.number x) >>= rest) m =
      if (⟨a, n⟩ : ByteRange).Passes m.size then r else .error (.trap .outOfBounds) m := by
  have haddress := toAddress_eq (m := m) h
  by_cases ha : 0 ≤ a
  · rw [if_pos ha] at haddress
    refine (bind_at_ok haddress).trans ((hrest ha).trans ?_)
    exact if_congr ⟨fun hle => ⟨ha, hle⟩, fun hpasses => hpasses.2⟩ rfl rfl
  · rw [if_neg ha] at haddress
    rw [if_neg fun hpasses => ha hpasses.1]
    exact bind_at_error haddress

/-! ### The operations -/

theorem perform_copy_eq (hm : m.Fits) {destination source length : Number} {d s : Int}
    (hd : destination.toInteger? = some d) (hs : source.toInteger? = some s)
    (hn : length.toInteger? = some n) :
    perform (.copy (.number destination) (.number source) (.number length)) m =
      if (⟨d, n⟩ : ByteRange).Passes m.size then
        if (⟨s, n⟩ : ByteRange).Passes m.size then
          (do lift (LinearMemory.copy d s n); pure .undefined : Act HostValue) m
        else .error (.trap .outOfBounds) m
      else .error (.trap .outOfBounds) m := by
  refine toAddress_bind_eq hd fun hpos => (toEnd_bind_eq hm hn _ _).trans ?_
  rw [Int.toNat_of_nonneg hpos]
  congr 1
  refine toAddress_bind_eq hs fun hpos => (toLength_bind_eq hm hn _ _).trans ?_
  rw [Int.toNat_of_nonneg hpos]

theorem perform_fill_eq (hm : m.Fits) {destination length : Number} {d : Int}
    (hd : destination.toInteger? = some d) (value : Number) (hn : length.toInteger? = some n) :
    perform (.fill (.number destination) (.number value) (.number length)) m =
      if (⟨d, n⟩ : ByteRange).Passes m.size then
        (do lift (LinearMemory.fill d value.toInt32 n); pure .undefined : Act HostValue) m
      else .error (.trap .outOfBounds) m := by
  refine toAddress_bind_eq hd fun hpos => (toLength_bind_eq hm hn _ _).trans ?_
  rw [Int.toNat_of_nonneg hpos]
  rfl

theorem perform_read_eq (hm : m.Fits) {address length : Number} {i : Int}
    (hi : address.toInteger? = some i) (hn : length.toInteger? = some n) :
    perform (.read (.number address) (.number length)) m =
      if (⟨i, n⟩ : ByteRange).Passes m.size then
        (do pure (.bytes (← lift (LinearMemory.read i n))) : Act HostValue) m
      else .error (.trap .outOfBounds) m := by
  refine toAddress_bind_eq hi fun hpos => (toLength_bind_eq hm hn _ _).trans ?_
  rw [Int.toNat_of_nonneg hpos]

theorem lift_eq_ok {op : LinearMemory.Op α} {r : α} {m' : LinearMemory} (h : op m = .ok r m') :
    lift op m = .ok r m' := by
  rw [lift, h]

theorem check_of_passes (h : (⟨a, n⟩ : ByteRange).Passes m.size) :
    LinearMemory.check a n m = .ok () m :=
  if_pos (decide_eq_true h)

theorem fill_of_passes (h : (⟨a, n⟩ : ByteRange).Passes m.size) (value : Int) :
    LinearMemory.fill a value n m = .ok ()
      { m with
        bytes := LinearMemory.splice
          ⟨Array.replicate (LinearMemory.clamp m.size (a + n) - LinearMemory.clamp m.size a)
            (UInt8.ofNat (Bits.unsigned 8 value))⟩
          (LinearMemory.clamp m.size a) m.bytes } :=
  bind_at_ok (check_of_passes h)

theorem read_of_passes (h : (⟨a, n⟩ : ByteRange).Passes m.size) :
    LinearMemory.read a n m = .ok
      (m.bytes.extract (LinearMemory.clamp m.size a) (LinearMemory.clamp m.size (a + n))) m :=
  bind_at_ok (check_of_passes h)

variable {call : MemoryCall} {op : RangeOperation}

/-- Once its ranges have passed, nothing keeps an operation from being done. -/
theorem perform_of_passes (hm : m.Fits) (h : Asked call op)
    (hpasses : ∀ x ∈ op.ranges, x.Passes m.size) :
    ∃ v m', call.perform m = .ok v m' := by
  cases h with
  | @copy _ _ _ d s n hd hs hn =>
    have hto : (⟨d, n⟩ : ByteRange).Passes m.size := hpasses _ List.mem_cons_self
    have hfrom : (⟨s, n⟩ : ByteRange).Passes m.size :=
      hpasses _ (List.mem_cons_of_mem _ List.mem_cons_self)
    obtain ⟨m', hcopy⟩ : ∃ m', LinearMemory.copy d s n m = .ok () m' :=
      ⟨_, (bind_at_ok (check_of_passes hto)).trans (bind_at_ok (check_of_passes hfrom))⟩
    rw [perform_copy_eq hm hd hs hn, if_pos hto, if_pos hfrom]
    exact ⟨_, _, bind_at_ok (lift_eq_ok hcopy)⟩
  | @fill _ value _ d n hd hn =>
    have hto : (⟨d, n⟩ : ByteRange).Passes m.size := hpasses _ List.mem_cons_self
    rw [perform_fill_eq hm hd value hn, if_pos hto]
    exact ⟨_, _, bind_at_ok (lift_eq_ok (fill_of_passes hto value.toInt32))⟩
  | @read _ _ i n hi hn =>
    have hfrom : (⟨i, n⟩ : ByteRange).Passes m.size := hpasses _ List.mem_cons_self
    rw [perform_read_eq hm hi hn, if_pos hfrom]
    exact ⟨_, _, bind_at_ok (lift_eq_ok (read_of_passes hfrom))⟩

theorem trapped_of_not_passes (hm : m.Fits) (h : Asked call op)
    (hfails : ∃ x ∈ op.ranges, ¬ x.Passes m.size) : call.Trapped m := by
  obtain ⟨x, hmem, hx⟩ := hfails
  cases h with
  | copy hd hs hn =>
    refine (perform_copy_eq hm hd hs hn).trans ?_
    rcases List.mem_cons.mp hmem with rfl | hmem
    · exact if_neg hx
    · obtain rfl := List.mem_singleton.mp hmem
      rw [if_neg hx, ite_self]
  | fill hd hn =>
    obtain rfl := List.mem_singleton.mp hmem
    exact (perform_fill_eq hm hd _ hn).trans (if_neg hx)
  | read hi hn =>
    obtain rfl := List.mem_singleton.mp hmem
    exact (perform_read_eq hm hi hn).trans (if_neg hx)

/-- A call traps where a range does not pass, and nowhere else. -/
theorem trapped_iff (hm : m.Fits) (h : Asked call op) :
    call.Trapped m ↔ ∃ x ∈ op.ranges, ¬ x.Passes m.size := by
  constructor
  · intro htrapped
    by_contra hnone
    obtain ⟨v, m', hok⟩ := perform_of_passes hm h fun x hmem => by_contra fun hx =>
      hnone ⟨x, hmem, hx⟩
    have hboth := htrapped.symm.trans hok
    cases hboth
  · exact trapped_of_not_passes hm h

/-! ### What they touch -/

theorem getElem?_overwrite {bs new : List UInt8} {i j : Nat} (h : i + new.length ≤ bs.length)
    (hj : j < i ∨ i + new.length ≤ j) : (overwrite bs i new)[j]? = bs[j]? := by
  have htake : (bs.take i).length = i := List.length_take_of_le (by omega)
  rw [overwrite, List.append_assoc]
  rcases hj with hj | hj
  · rw [List.getElem?_append_left (by omega), List.getElem?_take_of_lt hj]
  · rw [List.getElem?_append_right (by omega), List.getElem?_append_right (by omega),
      List.getElem?_drop, htake]
    congr 1
    omega

theorem contents_splice (m : LinearMemory) (data : ByteArray) (i : Nat) :
    ({ m with bytes := LinearMemory.splice data i m.bytes } : LinearMemory).contents
      = overwrite m.contents i data.data.toList :=
  LinearMemory.toList_splice

/-- Writing over a range inside the memory changes no byte outside of it. -/
theorem splice_frame {data : ByteArray} {i : Nat} (h : i + data.size ≤ m.size) :
    ({ m with bytes := LinearMemory.splice data i m.bytes } : LinearMemory).size = m.size ∧
      ∀ j : Nat, ¬ (⟨i, data.size⟩ : ByteRange).Contains j →
        ({ m with bytes := LinearMemory.splice data i m.bytes } : LinearMemory).contents[j]?
          = m.contents[j]? := by
  refine ⟨LinearMemory.size_splice h, fun j hj => ?_⟩
  have hdata : data.data.toList.length = data.size := rfl
  have hcontents : m.contents.length = m.size := LinearMemory.length_contents m
  rw [contents_splice]
  refine getElem?_overwrite (by omega) ?_
  unfold ByteRange.Contains at hj
  dsimp only at hj
  omega

theorem length_of_mem {x : ByteRange} (h : x ∈ op.ranges) : x.length = op.length := by
  cases op with
  | copy =>
    rcases List.mem_cons.mp h with rfl | h
    · rfl
    · rw [List.mem_singleton.mp h]
      rfl
  | fill => rw [List.mem_singleton.mp h]; rfl
  | read => rw [List.mem_singleton.mp h]; rfl

theorem exists_mem_ranges (op : RangeOperation) : ∃ x, x ∈ op.ranges := by
  cases op <;> exact ⟨_, List.mem_cons_self⟩

/-- A call that has written over a range inside the memory and done nothing else. -/
theorem confined_of_splice {data : ByteArray} {d : Nat} (hok : call.perform m
      = .ok .undefined { m with bytes := LinearMemory.splice data d m.bytes })
    (hgives : op.ResultIs m .undefined) (hwithin : ∀ x ∈ op.ranges, x.Within m.size)
    (hwritten : op.written = [⟨d, data.size⟩]) (hstop : d + data.size ≤ m.size) :
    Confined call op m := by
  obtain ⟨hsize, hframe⟩ := splice_frame hstop
  refine .done hok hwithin hgives rfl hsize fun i hi => hframe i ?_
  exact hi _ (hwritten ▸ List.mem_cons_self)

/-- Without a negative length an operation on ranges that have passed keeps to them. -/
theorem confined_of_passes (hm : m.Fits) (h : Asked call op) (hlength : 0 ≤ op.length)
    (hpasses : ∀ x ∈ op.ranges, x.Passes m.size) : Confined call op m := by
  have hwithin : ∀ x ∈ op.ranges, x.Within m.size := fun x hmem =>
    ⟨by rwa [length_of_mem hmem], (hpasses x hmem).1, (hpasses x hmem).2⟩
  cases h with
  | @copy _ _ _ d s n hd hs hn =>
    have hto : (⟨d, n⟩ : ByteRange).Passes m.size := hpasses _ List.mem_cons_self
    have hfrom : (⟨s, n⟩ : ByteRange).Passes m.size :=
      hpasses _ (List.mem_cons_of_mem _ List.mem_cons_self)
    have hperform := perform_copy_eq hm hd hs hn
    rw [if_pos hto, if_pos hfrom] at hperform
    obtain ⟨d, rfl⟩ := Int.eq_ofNat_of_zero_le hto.1
    obtain ⟨s, rfl⟩ := Int.eq_ofNat_of_zero_le hfrom.1
    obtain ⟨n, rfl⟩ := Int.eq_ofNat_of_zero_le (show 0 ≤ n from hlength)
    have hstop : d + n ≤ m.size := ByteRange.passes_natCast.mp hto
    have hend : s + n ≤ m.size := ByteRange.passes_natCast.mp hfrom
    have hcopy := (LinearMemory.copy_eq d s n m).trans (if_pos ⟨hstop, hend⟩)
    -- The bytes are taken out before any are written, so the two ranges may overlap.
    have hmoved : (m.bytes.extract s (s + n)).size = n := by
      have hbytes : m.bytes.size = m.size := rfl
      rw [ByteArray.size_extract]
      omega
    refine confined_of_splice (hperform.trans (bind_at_ok (lift_eq_ok hcopy))) rfl hwithin ?_ ?_
    · rw [hmoved]
      rfl
    · rwa [hmoved]
  | @fill _ value _ d n hd hn =>
    have hto : (⟨d, n⟩ : ByteRange).Passes m.size := hpasses _ List.mem_cons_self
    have hperform := perform_fill_eq hm hd value hn
    rw [if_pos hto] at hperform
    obtain ⟨d, rfl⟩ := Int.eq_ofNat_of_zero_le hto.1
    obtain ⟨n, rfl⟩ := Int.eq_ofNat_of_zero_le (show 0 ≤ n from hlength)
    have hstop : d + n ≤ m.size := ByteRange.passes_natCast.mp hto
    have hfill := (LinearMemory.fill_eq d value.toInt32 n m).trans (if_pos hstop)
    have hrow (b : UInt8) : (ByteArray.mk (Array.replicate n b)).size = n := Array.size_replicate
    refine confined_of_splice (hperform.trans (bind_at_ok (lift_eq_ok hfill))) rfl hwithin ?_ ?_
    · rw [hrow]
      rfl
    · rwa [hrow]
  | @read _ _ i n hi hn =>
    have hfrom : (⟨i, n⟩ : ByteRange).Passes m.size := hpasses _ List.mem_cons_self
    have hperform := perform_read_eq hm hi hn
    rw [if_pos hfrom] at hperform
    obtain ⟨i, rfl⟩ := Int.eq_ofNat_of_zero_le hfrom.1
    obtain ⟨n, rfl⟩ := Int.eq_ofNat_of_zero_le (show 0 ≤ n from hlength)
    have hend : i + n ≤ m.size := ByteRange.passes_natCast.mp hfrom
    have hread := (LinearMemory.read_eq i n m).trans (if_pos hend)
    refine .done (hperform.trans (bind_at_ok (lift_eq_ok hread))) hwithin ?_ rfl rfl fun _ _ => rfl
    refine ⟨_, rfl, ?_, LinearMemory.toList_extract _ _ _⟩
    have hbytes : m.bytes.size = m.size := rfl
    rw [ByteArray.size_extract]
    omega

theorem trapped_or_of_confined (h : Confined call op m) : call.Trapped m ∨ 0 ≤ op.length := by
  cases h with
  | trapped htrapped => exact .inl htrapped
  | done _ hwithin =>
    obtain ⟨x, hmem⟩ := exists_mem_ranges op
    exact .inr (length_of_mem hmem ▸ (hwithin x hmem).length)

/-- A host's call keeps to the ranges that it names exactly where it traps or their length is not
negative, and it traps exactly where an address is negative or an end lies beyond the memory. -/
theorem call_confined_iff (hm : m.Fits) (h : Asked call op) :
    (Confined call op m ↔ call.Trapped m ∨ 0 ≤ op.length) ∧
      (call.Trapped m ↔ ∃ x ∈ op.ranges, x.address < 0 ∨ m.size < x.address + x.length) := by
  refine ⟨⟨trapped_or_of_confined, ?_⟩, ?_⟩
  · rintro (htrapped | hlength)
    · exact .trapped htrapped
    · by_cases htrapped : call.Trapped m
      · exact .trapped htrapped
      · refine confined_of_passes hm h hlength fun x hmem => ?_
        by_contra hfails
        exact htrapped (trapped_of_not_passes hm h ⟨x, hmem, hfails⟩)
  · simp only [trapped_iff hm h, ByteRange.not_passes_iff]

theorem fits_page :
    (LinearMemory.create 1 1).Fits := LinearMemory.fits_create (by decide) (by decide)

theorem size_page : (LinearMemory.create 1 1).size = 65536 := fits_page.size

/-- Copying a page's last three bytes to its start. -/
theorem call_confined_iff_page :
    Asked (.copy (.number (.ofInt 0)) (.number (.ofInt 65533)) (.number (.ofInt 3)))
      (.copy 0 65533 3) ∧
      Confined (.copy (.number (.ofInt 0)) (.number (.ofInt 65533)) (.number (.ofInt 3)))
        (.copy 0 65533 3) (.create 1 1) ∧
      ¬ Trapped (.copy (.number (.ofInt 0)) (.number (.ofInt 65533)) (.number (.ofInt 3)))
        (.create 1 1) := by
  have h : Asked (.copy (.number (.ofInt 0)) (.number (.ofInt 65533)) (.number (.ofInt 3)))
      (.copy 0 65533 3) := .copy (by decide) (by decide) (by decide)
  obtain ⟨hconfined, htrapped⟩ := call_confined_iff fits_page h
  refine ⟨h, hconfined.mpr (.inr (by decide)), fun htrap => ?_⟩
  obtain ⟨x, hmem, hx⟩ := htrapped.mp htrap
  rw [size_page] at hx
  rcases List.mem_cons.mp hmem with rfl | hmem
  · exact absurd hx (by decide)
  · obtain rfl := List.mem_singleton.mp hmem
    exact absurd hx (by decide)

/-- A negative length need not trap: reading gives bytes from the end on that the length counts back
to, and filling writes to places that the range does not have. -/
theorem negative_length_taken :
    Asked (.read (.number (.ofInt 0)) (.number (.ofInt (-65534)))) (.read 0 (-65534)) ∧
      ¬ Confined (.read (.number (.ofInt 0)) (.number (.ofInt (-65534)))) (.read 0 (-65534))
        (.create 1 1) ∧
      (∃ bytes : ByteArray, bytes.size = 2 ∧
        perform (.read (.number (.ofInt 0)) (.number (.ofInt (-65534)))) (.create 1 1)
          = .ok (.bytes bytes) (.create 1 1)) ∧
      (LinearMemory.create 1 1).contents[0]? = some 0 ∧
      ∃ m', perform (.fill (.number (.ofInt 0)) (.number (.ofInt 7)) (.number (.ofInt (-1))))
        (.create 1 1)
        = .ok .undefined m' ∧ m'.contents[0]? = some 7 := by
  -- Such a range ends before it starts, so its end lies within any memory.
  have hpasses (n : Int) (hn : n ≤ 0) :
      (⟨0, n⟩ : ByteRange).Passes (LinearMemory.create 1 1).size := by
    refine ⟨Int.le_refl 0, ?_⟩
    dsimp only
    omega
  have hread : perform (.read (.number (.ofInt 0)) (.number (.ofInt (-65534)))) (.create 1 1)
      = .ok (.bytes ((LinearMemory.create 1 1).bytes.extract 0 2)) (.create 1 1) := by
    have hi : (Number.ofInt 0).toInteger? = some 0 := by decide
    have hn : (Number.ofInt (-65534)).toInteger? = some (-65534) := by decide
    have hperform := perform_read_eq fits_page hi hn
    rw [if_pos (hpasses _ (by decide))] at hperform
    have hop := read_of_passes (hpasses (-65534) (by decide))
    have hstart : LinearMemory.clamp 65536 0 = 0 := by decide
    have hstop : LinearMemory.clamp 65536 (0 + -65534) = 2 := by decide
    rw [size_page, hstart, hstop] at hop
    exact hperform.trans (bind_at_ok (lift_eq_ok hop))
  have hzero : (LinearMemory.create 1 1).contents = List.replicate (65536 * 1) 0 :=
    (LinearMemory.toList_addPages 1 .empty).trans (List.nil_append _)
  refine ⟨.read (by decide) (by decide), fun hconfined => ?_, ⟨_, ?_, hread⟩, ?_, ?_⟩
  · rcases trapped_or_of_confined hconfined with htrap | hlength
    · have hboth := htrap.symm.trans hread
      cases hboth
    · exact absurd hlength (by decide)
  · have hsize : (LinearMemory.create 1 1).bytes.size = 65536 := size_page
    rw [ByteArray.size_extract, hsize]
    rfl
  · rw [hzero]
    exact List.getElem?_replicate_of_lt (by decide)
  · have hd : (Number.ofInt 0).toInteger? = some 0 := by decide
    have hn : (Number.ofInt (-1)).toInteger? = some (-1) := by decide
    have hperform := perform_fill_eq fits_page hd (.ofInt 7) hn
    rw [if_pos (hpasses _ (by decide))] at hperform
    have hop := fill_of_passes (hpasses (-1) (by decide)) (Number.ofInt 7).toInt32
    refine ⟨_, hperform.trans (bind_at_ok (lift_eq_ok hop)), ?_⟩
    have hstart : LinearMemory.clamp 65536 0 = 0 := by decide
    have hstop : LinearMemory.clamp 65536 (0 + -1) = 65535 := by decide
    have hbyte : UInt8.ofNat (Bits.unsigned 8 (Number.ofInt 7).toInt32) = 7 := by decide
    rw [contents_splice, Array.toList_replicate, size_page, hstart, hstop, hbyte, overwrite,
      List.take_zero, List.nil_append,
        List.getElem?_append_left (by rw [List.length_replicate]; decide)]
    exact List.getElem?_replicate_of_lt (by decide)

end MemoryCall

end WasmScript
