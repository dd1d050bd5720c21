/-
  WasmScript/Proofs/Module/Ensures.lean
  ===================================
  **What parsers give** — properties that hold of whatever a parser gives.

  `Parser.Ensures p P` says nothing of faults and nothing of where the reader stands
  afterwards.  It goes through a parser step by step: what one step gives is known to the
  steps after it.
-/
import WasmScript.Module.Reader
import WasmScript.Proofs.Sequences
import Mathlib.Tactic.Common

namespace WasmScript.Parser

variable {α β : Type}

/-- Whatever a parser gives has a property. -/
def Ensures (p : Parser α) (P : α → Prop) : Prop := ∀ r a r', p r = .ok a r' → P a

variable {p : Parser α} {k : α → Parser β} {P : α → Prop} {Q : β → Prop}

namespace Ensures

theorem bind (hp : p.Ensures P) (hk : ∀ a, P a → (k a).Ensures Q) : (p >>= k).Ensures Q := by
  intro r b r' h
  change EStateM.bind p k r = .ok b r' at h
  unfold EStateM.bind at h
  split at h
  · next a r₁ hp' => exact hk a (hp r a r₁ hp') r₁ b r' h
  · cases h

/-- A step of which nothing need be known. -/
theorem next (hk : ∀ a, (k a).Ensures Q) : (p >>= k).Ensures Q :=
  bind (P := fun _ => True) (fun _ _ _ _ => trivial) fun a _ => hk a

theorem mono {P' : α → Prop} (hp : p.Ensures P) (h : ∀ a, P a → P' a) : p.Ensures P' :=
  fun r a r' hr => h a (hp r a r' hr)

theorem map {f : α → β} (hp : p.Ensures P) (h : ∀ a, P a → Q (f a)) : (f <$> p).Ensures Q := by
  rw [map_eq_pure_bind]
  refine bind hp fun a ha => ?_
  rintro r b r' ⟨⟩
  exact h a ha

/-- A step that is mapped and of which nothing need be known. -/
theorem mapped {f : α → β} (h : ∀ a, Q (f a)) : (f <$> p).Ensures Q :=
  map (P := fun _ => True) (fun _ _ _ _ => trivial) fun a _ => h a

end Ensures

theorem ensures_pure {a : α} (h : P a) : (pure a : Parser α).Ensures P := by
  rintro r _ r' ⟨⟩
  exact h

theorem ensures_failAt (cause : DecodeCause) (offset : Nat) : (failAt cause offset).Ensures P := by
  rintro r a r' ⟨⟩

theorem ensures_fail (cause : DecodeCause) : (fail cause).Ensures P := by
  rintro r a r' ⟨⟩

theorem ensures_within {length : Nat} {sectionName : Option String} (hp : p.Ensures P) :
    (within length sectionName p).Ensures P := by
  refine .next fun inner => ?_
  intro r a r' h
  dsimp only at h
  split at h
  · next a' _ hinner =>
    cases h
    exact hp _ _ _ hinner
  · cases h

/-! ### Several items -/

theorem ensures_repeated (hp : p.Ensures P) (count : Nat) :
    ∀ items : Array α, (∀ a ∈ items, P a) → (repeated p count items).Ensures fun as =>
      ∀ a ∈ as, P a := by
  induction count with
  | zero => exact fun items h => ensures_pure h
  | succ count ih =>
    intro items h
    refine .bind hp fun a ha => ih _ fun a' ha' => ?_
    rcases Array.mem_push.mp ha' with ha' | rfl
    · exact h a' ha'
    · exact ha

theorem ensures_size_repeated (count : Nat) :
    ∀ items : Array α, (repeated p count items).Ensures fun all =>
      all.size = items.size + count := by
  induction count with
  | zero => exact fun items => ensures_pure rfl
  | succ count ih =>
    refine fun items => .next fun a => (ih _).mono fun all hall => ?_
    rw [hall, Array.size_push]
    omega

theorem ensures_vector (hp : p.Ensures P) : (vector p).Ensures fun as => ∀ a ∈ as, P a :=
  .next fun count => ensures_repeated hp count #[] fun a ha => absurd ha (Array.not_mem_empty a)

/-! ### Integers -/

theorem ensures_byte : byte.Ensures fun b => b < 256 := by
  intro r b r' h
  unfold byte Reader.peek? at h
  split at h
  · next b' hb =>
    split at hb
    · cases hb
      cases h
      unfold Reader.byteAt
      split
      · exact UInt8.toNat_lt _
      · omega
    · cases hb
  · cases h

/-- What follows a byte may be replaced by what is the same for each byte. -/
theorem bind_byte_congr {k k' : Nat → Parser α} (h : ∀ b < 256, k b = k' b) :
    (byte >>= k) = (byte >>= k') := by
  funext r
  cases hbyte : byte r with
  | ok b r' =>
    have hb : b < 256 := ensures_byte r b r' hbyte
    rw [bind_at_ok hbyte, bind_at_ok hbyte, h b hb]
  | error e r' => rw [bind_at_error hbyte, bind_at_error hbyte]

/-- Mapping what a parser gives is idle if nothing that it may give is changed. -/
theorem Ensures.bind_pure_eq {f : α → α} (hp : p.Ensures P) (h : ∀ a, P a → f a = a) :
    (p >>= fun a => pure (f a)) = p := by
  funext r
  cases hrun : p r with
  | ok a r' =>
    have hgive : (p >>= fun a => pure (f a)) r = .ok (f a) r' := bind_at_ok hrun
    rw [hgive, h a (hp r a r' hrun)]
  | error e r' => exact bind_at_error hrun

end WasmScript.Parser
