/-
  WasmScript/Proofs/Module/Confinement.lean
  =========================================
  **Readers keep to their stretch** — calls on nested readers that share their bytes.

  A reader makes others of what it has left, and all of them go on being used, also after faults.
  `ReaderCall.performAll` is such a use: any operations in any order, each on any of the readers
  that there are by then.  A step moves one reader forward by no more than it has left and may
  add one that lies inside of it, so every reader stays inside the first one
  (`readers_confined`).  What the first one does not cover has no part in any answer.
-/
import Mathlib.Tactic.IntervalCases
import WasmScript.Module.ReadStep
import WasmScript.Proofs.Module.Locality

namespace WasmScript

/-! ### Uses of readers -/

/-- Something that a reader can be asked for. -/
inductive ReaderOperation where
  | read (step : ReadStep)
  | sub (length : Nat) (sectionName : Option String)

/-- An operation of the reader with a number. -/
structure ReaderCall where
  reader : Nat
  operation : ReaderOperation

/-- What a call gives: a value, the number of a new reader, or a fault. -/
inductive ReaderAnswer where
  | value (v : ReadResult)
  | reader (number : Nat)
  | fault (e : DecodeError)
  /-- No reader has the number of the call. -/
  | unasked

namespace ReaderOperation

def perform : ReaderOperation → Parser (ReadResult ⊕ Reader)
  | .read step => .inl <$> step.perform
  | .sub length sectionName => .inr <$> Parser.sub length sectionName

/-- The operations that ask for bytes only once: a byte, some bytes, a reader of some bytes. -/
def isSingle : ReaderOperation → Bool
  | .read .byte | .read (.bytes _) | .sub .. => true
  | .read _ => false

end ReaderOperation

namespace ReaderCall

/-- The answer of the reader with a number, and all readers after it. -/
def settle (number : Nat) (rs : List Reader) :
    EStateM.Result DecodeError Reader (ReadResult ⊕ Reader) → ReaderAnswer × List Reader
  | .ok (.inl v) r => (.value v, rs.set number r)
  | .ok (.inr inner) r => (.reader rs.length, rs.set number r ++ [inner])
  | .error e r => (.fault e, rs.set number r)

def perform (c : ReaderCall) (rs : List Reader) : ReaderAnswer × List Reader :=
  match rs[c.reader]? with
  | none => (.unasked, rs)
  | some r => settle c.reader rs (c.operation.perform r)

def performAll : List ReaderCall → List Reader → List ReaderAnswer × List Reader
  | [], rs => ([], rs)
  | c :: cs, rs =>
    let (answer, rs) := c.perform rs
    let (answers, rs) := performAll cs rs
    (answer :: answers, rs)

end ReaderCall

/-! ### One operation -/

namespace Reader

variable {r : Reader} {bytes other : ByteArray} {start limit : Nat}

def on (r : Reader) (other : ByteArray) : Reader := { r with bytes := other }

/-- The reader has its place in some bytes, between a start and a limit. -/
structure Inside (bytes : ByteArray) (start limit : Nat) (r : Reader) : Prop where
  bytes : r.bytes = bytes
  start : start ≤ r.pos
  pos : r.pos ≤ r.limit
  limit : r.limit ≤ limit

theorem Inside.skip {n : Nat} (h : r.Inside bytes start limit) (hn : n ≤ r.remaining) :
    (r.skip n).Inside bytes start limit := by
  have hpos := h.pos
  unfold remaining at hn
  refine ⟨h.bytes, Nat.le_add_right_of_le h.start, ?_, h.limit⟩
  change r.pos + n ≤ r.limit
  omega

theorem Inside.stretch {n : Nat} (h : r.Inside bytes start limit) (hn : n ≤ r.remaining)
    (sectionName : String) :
    (r.stretch n sectionName).Inside bytes start limit := by
  have hpos := h.pos
  have hlimit := h.limit
  unfold remaining at hn
  refine ⟨h.bytes, h.start, Nat.le_add_right _ _, ?_⟩
  change r.pos + n ≤ limit
  omega

/-- Bytes that are the same between a start and a limit are the same for a reader in there. -/
theorem Inside.shifted (h : r.Inside bytes start limit) (hlimit : limit ≤ bytes.size)
    (hsame : ∀ i, start ≤ i → i < limit → other.data[i]? = bytes.data[i]?) :
    r.Shifted 0 (r.on other) := by
  have hstart := h.start
  have hpos := h.pos
  have hend := h.limit
  have hsize : bytes.data.toList.length = bytes.size := rfl
  -- The bytes that are left, of which both readers have the same number.
  have hleft : (other.data.toList.drop r.pos).take r.remaining =
      (bytes.data.toList.drop r.pos).take r.remaining := by
    refine List.ext_getElem? fun i => ?_
    rw [List.getElem?_take, List.getElem?_take]
    split
    · next hi =>
      unfold remaining at hi
      rw [List.getElem?_drop, List.getElem?_drop, Array.getElem?_toList, Array.getElem?_toList]
      exact hsame _ (by omega) (by omega)
    · rfl
  have hlength : ((bytes.data.toList.drop r.pos).take r.remaining).length = r.remaining := by
    rw [List.length_take, List.length_drop]
    unfold remaining
    omega
  refine ⟨rfl, rfl, (bytes.data.toList.drop r.pos).take r.remaining, ⟨?_, ?_⟩, ?_, ?_⟩
  · rw [hlength]
    exact Nat.add_sub_cancel' hpos
  · rw [h.bytes]
    exact List.take_prefix _ _
  · rw [hlength]
    exact Nat.add_sub_cancel' hpos
  · rw [← hleft]
    exact List.take_prefix _ _

end Reader

namespace ReaderOperation

variable {r : Reader} {other : ByteArray}

theorem steady_step (step : ReadStep) : step.perform.Steady := by
  cases step with
  | byte => exact Parser.steady_byte.map
  | peek => exact Parser.steady_peek.map
  | bytes length => exact (Parser.steady_bytes length).map
  | u32 => exact Parser.steady_u32.map
  | s32 => exact Parser.steady_s32.map
  | s64 => exact Parser.steady_s64.map
  | name => exact Parser.steady_name.map

/-- What comes of an operation on a reader, and on the same reader in other bytes. -/
inductive Outcome (r : Reader) (other : ByteArray) (op : ReaderOperation) :
    EStateM.Result DecodeError Reader (ReadResult ⊕ Reader) →
      EStateM.Result DecodeError Reader (ReadResult ⊕ Reader) → Prop where
  | value {v : ReadResult} {n : Nat} : n ≤ r.remaining →
      Outcome r other op (.ok (.inl v) (r.skip n)) (.ok (.inl v) ((r.skip n).on other))
  | reader {length : Nat} {sectionName : Option String} : op = .sub length sectionName →
      length ≤ r.remaining →
      Outcome r other op
          (.ok (.inr (r.stretch length (sectionName.getD r.sectionName))) (r.skip length))
        (.ok (.inr ((r.stretch length (sectionName.getD r.sectionName)).on other))
          ((r.skip length).on other))
  | fault {e : DecodeError} {n : Nat} : n ≤ r.remaining → (op.isSingle → n = 0) →
      Outcome r other op (.error e (r.skip n)) (.error e ((r.skip n).on other))

theorem sub_of_lt {length : Nat} (h : r.remaining < length) (sectionName : Option String) :
    (sub length sectionName).perform r =
      .error ⟨.lengthOverrun length, r.sectionName, r.pos⟩ r := by
  have hsub :
    Parser.sub length sectionName r = .error ⟨.lengthOverrun length, r.sectionName, r.pos⟩ r :=
      if_pos h
  exact map_at_error hsub

theorem sub_of_le {length : Nat} (h : length ≤ r.remaining) (sectionName : Option String) :
    (sub length sectionName).perform r
      = .ok (.inr (r.stretch length (sectionName.getD r.sectionName))) (r.skip length) := by
  have hsub : Parser.sub length sectionName r
      = .ok (r.stretch length (sectionName.getD r.sectionName)) (r.skip length) :=
        if_neg (Nat.not_lt.mpr h)
  exact map_at_ok hsub

/-- A fault of a byte or of some bytes is found before the reader is moved. -/
theorem kept_of_error {step : ReadStep} {r' : Reader} {e : DecodeError}
    (hsingle : (read step).isSingle) (h : step.perform r = .error e r') : r' = r := by
  cases step with
  | byte =>
    have hbyte := map_at_eq_error h
    unfold Parser.byte at hbyte
    split at hbyte
    · cases hbyte
    · cases hbyte
      rfl
  | bytes length =>
    have hbytes := map_at_eq_error h
    unfold Parser.bytes at hbytes
    split at hbytes
    · cases hbytes
      rfl
    · cases hbytes
  | _ => cases hsingle

theorem outcome (op : ReaderOperation) (h : r.Shifted 0 (r.on other)) :
    Outcome r other op (op.perform r) (op.perform (r.on other)) := by
  -- Taking a part looks at no bytes, and all other operations only at those that both readers
  -- share.
  cases op with
  | sub length sectionName =>
    rcases Nat.lt_or_ge r.remaining length with hlt | hle
    · rw [sub_of_lt hlt, sub_of_lt (r := r.on other) hlt]
      exact .fault (n := 0) (Nat.zero_le _) fun _ => rfl
    · rw [sub_of_le hle, sub_of_le (r := r.on other) hle]
      exact .reader rfl hle
  | read step =>
    have hrun := steady_step step 0 0 r (r.on other) (Nat.zero_le _) h
    have hkept : (read step).isSingle → ∀ e r', step.perform r = .error e r' → r' = r :=
      fun hsingle e r' => kept_of_error hsingle
    generalize hx : step.perform r = x, hy : step.perform (r.on other) = y at hrun hkept
    cases hrun with
    | gives hab hn =>
      subst hab
      have hleft : (read step).perform r = _ := map_at_ok hx
      have hright : (read step).perform (r.on other) = _ := map_at_ok hy
      rw [hleft, hright]
      exact .value hn
    | @fails offset n cause _ _ hn =>
      have hleft : (read step).perform r = _ := map_at_error hx
      have hright : (read step).perform (r.on other) = _ := map_at_error hy
      rw [hleft, hright]
      refine .fault hn fun hsingle => ?_
      have hpos := congrArg Reader.pos (hkept hsingle _ _ rfl)
      change r.pos + n = r.pos at hpos
      omega

end ReaderOperation

/-! ### Several readers -/

/-- Each reader has moved forward, by no more than it had left, and is otherwise as it was. -/
def Reader.Advances (rs rs' : List Reader) : Prop :=
  ∀ (k : Nat) (r : Reader), rs[k]? = some r → ∃ n ≤ r.remaining, rs'[k]? = some (r.skip n)

namespace Reader.Advances

variable {rs rs' rs'' : List Reader}

theorem refl (rs : List Reader) : Advances rs rs := fun _ _ hr => ⟨0, Nat.zero_le _, hr⟩

theorem trans (h : Advances rs rs') (h' : Advances rs' rs'') : Advances rs rs'' := by
  intro k r hr
  obtain ⟨n, hn, hmoved⟩ := h k r hr
  obtain ⟨m, hm, hagain⟩ := h' k _ hmoved
  rw [remaining_skip] at hm
  rw [skip_skip] at hagain
  exact ⟨n + m, by omega, hagain⟩

theorem append (h : Advances rs rs') (more : List Reader) : Advances rs (rs' ++ more) := by
  intro k r hr
  obtain ⟨n, hn, hmoved⟩ := h k r hr
  obtain ⟨hk, -⟩ := List.getElem?_eq_some_iff.mp hmoved
  exact ⟨n, hn, (List.getElem?_append_left hk).trans hmoved⟩

theorem set {i n : Nat} {r : Reader} (hr : rs[i]? = some r) (hn : n ≤ r.remaining) :
    Advances rs (rs.set i (r.skip n)) := by
  obtain ⟨hi, -⟩ := List.getElem?_eq_some_iff.mp hr
  intro k r' hr'
  by_cases hk : i = k
  · subst hk
    obtain rfl := Option.some.inj (hr.symm.trans hr')
    exact ⟨n, hn, List.getElem?_set_self hi⟩
  · exact ⟨0, Nat.zero_le _, (List.getElem?_set_ne hk).trans hr'⟩

end Reader.Advances

namespace ReaderCall

variable {bytes other : ByteArray} {start limit : Nat} {rs : List Reader}

theorem perform_of_none {c : ReaderCall} (h : rs[c.reader]? = none) :
    c.perform rs = (.unasked, rs) := by
  rw [perform, h]

theorem perform_of_some {c : ReaderCall} {r : Reader} (h : rs[c.reader]? = some r) :
    c.perform rs = settle c.reader rs (c.operation.perform r) := by
  rw [perform, h]

/-- One call keeps all readers inside and moves them forward, and it has the same answer in other
bytes. -/
theorem perform_step (hlimit : limit ≤ bytes.size)
    (hsame : ∀ i, start ≤ i → i < limit → other.data[i]? = bytes.data[i]?)
    (hrs : ∀ r ∈ rs, r.Inside bytes start limit) (c : ReaderCall) :
    (∀ r ∈ (c.perform rs).2, r.Inside bytes start limit) ∧ Reader.Advances rs (c.perform rs).2 ∧
      c.perform (rs.map (·.on other)) = ((c.perform rs).1, (c.perform rs).2.map (·.on other)) := by
  cases hr : rs[c.reader]? with
  | none =>
    have hother : (rs.map (·.on other))[c.reader]? = none := by
      rw [List.getElem?_map, hr]
      rfl
    rw [perform_of_none hr, perform_of_none hother]
    exact ⟨hrs, .refl rs, rfl⟩
  | some r =>
    have hinside := hrs r (List.mem_of_getElem? hr)
    have hset {n : Nat} (hn : n ≤ r.remaining) : ∀ s ∈ rs.set c.reader (r.skip n),
        s.Inside bytes start limit := by
      intro s hs
      rcases List.mem_or_eq_of_mem_set hs with hold | rfl
      · exact hrs s hold
      · exact hinside.skip hn
    have hother : (rs.map (·.on other))[c.reader]? = some (r.on other) := by
      rw [List.getElem?_map, hr]
      rfl
    -- Both readers see the same bytes, so they do the same and go equally far.
    have hrun := c.operation.outcome (hinside.shifted hlimit hsame)
    rw [perform_of_some hr, perform_of_some hother]
    generalize c.operation.perform r = x, c.operation.perform (r.on other) = y at hrun ⊢
    cases hrun with
    | value hn =>
      refine ⟨hset hn, .set hr hn, ?_⟩
      rw [settle, settle, List.map_set]
    | reader _ hlength =>
      refine ⟨?_, (Reader.Advances.set hr hlength).append _, ?_⟩
      · intro s hs
        rcases List.mem_append.mp hs with hold | hnew
        · exact hset hlength s hold
        · rw [List.mem_singleton.mp hnew]
          exact hinside.stretch hlength _
      · rw [settle, settle, List.map_append, List.map_set, List.length_map]
        rfl
    | fault hn _ =>
      refine ⟨hset hn, .set hr hn, ?_⟩
      rw [settle, settle, List.map_set]

/-- Any number of calls do. -/
theorem performAll_run (hlimit : limit ≤ bytes.size)
    (hsame : ∀ i, start ≤ i → i < limit → other.data[i]? = bytes.data[i]?) (cs : List ReaderCall) :
    ∀ rs : List Reader, (∀ r ∈ rs, r.Inside bytes start limit) →
      (∀ r ∈ (performAll cs rs).2, r.Inside bytes start limit) ∧ Reader.Advances rs
        (performAll cs rs).2 ∧
        performAll cs (rs.map (·.on other)) =
          ((performAll cs rs).1, (performAll cs rs).2.map (·.on other)) := by
  induction cs with
  | nil => exact fun rs hrs => ⟨hrs, .refl rs, rfl⟩
  | cons c cs ih =>
    intro rs hrs
    obtain ⟨hinside, hfirst, hanswer⟩ := perform_step hlimit hsame hrs c
    obtain ⟨hall, hrest, hanswers⟩ := ih _ hinside
    refine ⟨hall, hfirst.trans hrest, ?_⟩
    rw [performAll, hanswer]
    dsimp only
    rw [hanswers]
    rfl

theorem sub_covers {k length : Nat} {r : Reader} (hr : rs[k]? = some r)
    (sectionName : Option String) :
    perform ⟨k, .sub length sectionName⟩ rs =
      if length ≤ r.remaining then
        (.reader rs.length,
          rs.set k (r.skip length) ++ [r.stretch length (sectionName.getD r.sectionName)])
      else (.fault ⟨.lengthOverrun length, r.sectionName, r.pos⟩, rs) := by
  obtain ⟨_, hget⟩ := List.getElem?_eq_some_iff.mp hr
  rw [perform_of_some (c := ⟨k, .sub length sectionName⟩) hr]
  split
  · next hle =>
    rw [ReaderOperation.sub_of_le hle]
    rfl
  · next hlt =>
    rw [ReaderOperation.sub_of_lt (Nat.lt_of_not_le hlt), settle, ← hget, List.set_getElem_self]

theorem kept_of_fault (hlimit : limit ≤ bytes.size) (hrs : ∀ r ∈ rs, r.Inside bytes start limit)
    {c : ReaderCall} (hsingle : c.operation.isSingle) {e : DecodeError}
    (h : (c.perform rs).1 = .fault e) : (c.perform rs).2 = rs := by
  cases hr : rs[c.reader]? with
  | none => rw [perform_of_none hr]
  | some r =>
    obtain ⟨_, hget⟩ := List.getElem?_eq_some_iff.mp hr
    have hshifted : r.Shifted 0 (r.on bytes) :=
      (hrs r (List.mem_of_getElem? hr)).shifted hlimit fun _ _ _ => rfl
    have hrun := c.operation.outcome hshifted
    rw [perform_of_some hr] at h ⊢
    generalize c.operation.perform r = x, c.operation.perform (r.on bytes) = y at hrun h ⊢
    cases hrun with
    | value => cases h
    | reader => cases h
    | fault _ hkept =>
      rw [settle, hkept hsingle, ← hget]
      exact List.set_getElem_self _

/-- Whatever is asked of a reader and of those made from it, all of them stay between its start and
its limit and only move forward.  A new reader covers the next bytes of the one that it was made
from, which moves past them; where a byte, bytes or a reader cannot be had nothing moves; and bytes
around the start and the limit, and how many there are, make no difference to any answer or any
place. -/
theorem readers_confined {bytes : ByteArray} {start limit : Nat} (hstart : start ≤ limit)
    (hlimit : limit ≤ bytes.size) (sectionName : String) (calls : List ReaderCall) :
    let root : Reader := ⟨bytes, start, limit, sectionName⟩
    let rs := (performAll calls [root]).2
    (∀ r ∈ rs, r.Inside bytes start limit) ∧
      (∀ more, Reader.Advances rs (performAll more rs).2) ∧
      (∀ k r, rs[k]? = some r → ∀ length inner, perform ⟨k, .sub length inner⟩ rs =
        if length ≤ r.limit - r.pos then
          (.reader rs.length, rs.set k { r with pos := r.pos + length }
            ++ [⟨r.bytes, r.pos, r.pos + length, inner.getD r.sectionName⟩])
        else (.fault ⟨.lengthOverrun length, r.sectionName, r.pos⟩, rs)) ∧
      (∀ c : ReaderCall, c.operation.isSingle → ∀ e, (c.perform rs).1 = .fault e →
        (c.perform rs).2 = rs) ∧
      ∀ other : ByteArray, (∀ i, start ≤ i → i < limit → other.data[i]? = bytes.data[i]?) →
        performAll calls [{ root with bytes := other }]
          = ((performAll calls [root]).1, rs.map fun r => { r with bytes := other }) := by
  intro root rs
  have hroot : ∀ r ∈ [root], r.Inside bytes start limit := by
    intro r hr
    rw [List.mem_singleton.mp hr]
    exact ⟨rfl, Nat.le_refl _, hstart, Nat.le_refl _⟩
  -- With the same bytes again, what holds of two runs holds of this one.
  have hself : ∀ i, start ≤ i → i < limit → bytes.data[i]? = bytes.data[i]? := fun _ _ _ => rfl
  obtain ⟨hinside, -, -⟩ := performAll_run hlimit hself calls [root] hroot
  refine ⟨hinside, ?_, ?_, ?_, ?_⟩
  · intro more
    exact (performAll_run hlimit hself more rs hinside).2.1
  · exact fun k r hr length inner => sub_covers hr inner
  · exact fun c hsingle e h => kept_of_fault hlimit hinside hsingle h
  · exact fun other hsame => (performAll_run hlimit hsame calls [root] hroot).2.2

/-- A reader of one byte in which an integer does not end, although it would go on behind it. -/
theorem readers_confined_cut :
    let calls : List ReaderCall := [⟨0, .sub 1 none⟩, ⟨1, .read .u32⟩, ⟨1, .read .byte⟩]
    let bytes : ByteArray := ⟨#[9, 0x83, 1, 7]⟩
    let root : Reader := ⟨bytes, 1, 3, "test"⟩
    (performAll calls [root]).2.map Reader.pos = [2, 2] ∧ (1 ≤ 3 ∧ 3 ≤ bytes.size) ∧
      (∀ r ∈ (performAll calls [root]).2, r.Inside bytes 1 3) ∧
      performAll calls [{ root with bytes := ⟨#[0, 0x83, 1]⟩ }] = ((performAll calls [root]).1,
        (performAll calls [root]).2.map fun r => { r with bytes := ⟨#[0, 0x83, 1]⟩ }) := by
  intro calls bytes root
  have hbounds : 1 ≤ 3 ∧ 3 ≤ bytes.size := by decide
  obtain ⟨hinside, -, -, -, hsame⟩ := readers_confined hbounds.1 hbounds.2 "test" calls
  refine ⟨by decide, hbounds, hinside, hsame _ fun i hlow hhigh => ?_⟩
  interval_cases i <;> rfl

end ReaderCall

end WasmScript
