/-
  WasmScript/Proofs/Fixture/Reports.lean
  ======================================
  **Reports on fixtures** — what it takes for a fixture to pass.

  An instance is created, the call is made, and each region of the memory is read and
  compared.  Reading changes nothing, so a region that is reported as right holds what is
  expected once the run is over.  A fixture whose instance cannot be created has no memory to
  read, and its report says nothing about the regions: it passes as soon as the failure is
  the expected outcome, whatever was expected of the memory.
-/
import WasmScript.Proofs.Fixture.Comparison
import WasmScript.Proofs.Memory.Contents
import WasmScript.Proofs.Run.Fits
import WasmScript.Proofs.Sequences
import WasmScript.Proofs.Text.Hex

namespace WasmScript

/-! ### Reading a memory -/

/-- What leaves every property of a state as it was leaves the state as it was. -/
theorem Keeps.eq_of_ok {ε S α : Type} {op : EStateM ε S α} (h : ∀ P, Keeps P op) {a : α} {s s' : S}
    (hop : op s = .ok a s') : s' = s := by
  have hafter : after (op s) = s := h (· = s) s rfl
  rwa [hop] at hafter

namespace LinearMemory

theorem clamp_natCast_eq_min (size i : Nat) : clamp size i = min i size := by
  rw [clamp, if_neg (Int.not_lt.mpr (Int.natCast_nonneg i)), Int.toNat_natCast]

/-- What is read lies in the memory from its address on. -/
theorem read_eq_ok {i : Nat} {length : Int} {m m' : LinearMemory} {found : ByteArray}
    (h : read i length m = .ok found m') :
    found.data.toList = slice m.contents i found.data.toList.length := by
  obtain ⟨⟨⟩, m₁, hcheck, hrest⟩ := bind_at_eq_ok h
  obtain rfl : m = m₁ := (Keeps.eq_of_ok (fun P => keeps_check P i length) hcheck).symm
  cases hrest
  -- The range may have a negative length, and starts at the end of the memory then.
  have hdrop : m.contents.drop (min i m.size) = m.contents.drop i := List.drop_eq_drop_min.symm
  have htoList (stop : Nat) : (m.bytes.extract (min i m.size) stop).data.toList =
      (m.contents.drop i).take (stop - min i m.size) := by
    rw [ByteArray.data_extract, Array.toList_extract, List.extract_eq_take_drop, ← hdrop]
    rfl
  rw [clamp_natCast_eq_min, htoList, slice, List.length_take, ← List.take_eq_take_min]

end LinearMemory

namespace MemoryCall

theorem toAddress_eq_ok {v : HostValue} {i : Nat} {m m' : LinearMemory}
    (h : toAddress v m = .ok i m') :
    v.integer? = some (i : Int) := by
  unfold toAddress at h
  cases hinteger : v.integer? with
  | none =>
    rw [hinteger] at h
    cases h
  | some n =>
    rw [hinteger] at h
    cases n with
    | ofNat k =>
      cases h
      rfl
    | negSucc k => cases h

/-- A host that reads has an address and gets what the memory holds there, and the memory stays. -/
theorem perform_read_eq_ok {address length r : HostValue} {m m' : LinearMemory}
    (h : perform (.read address length) m = .ok r m') :
    m' = m ∧ ∃ (i : Nat) (found : ByteArray), address.integer? = some (i : Int) ∧ r = .bytes found ∧
      found.data.toList = slice m.contents i found.data.toList.length := by
  change (toAddress address >>= _) m = _ at h
  obtain ⟨i, m₁, haddress, hafter⟩ := bind_at_eq_ok h
  have hm₁ : m₁ = m := Keeps.eq_of_ok (fun P => keeps_toAddress address) haddress
  obtain ⟨n, m₂, hlength, hthen⟩ := bind_at_eq_ok hafter
  have hm₂ : m₂ = m₁ := Keeps.eq_of_ok (fun P => keeps_toLength i length) hlength
  obtain ⟨found, m₃, hread, hgive⟩ := bind_at_eq_ok hthen
  have hm₃ : m₃ = m₂ := Keeps.eq_of_ok (fun P => keeps_lift (LinearMemory.keeps_read P i n)) hread
  cases hgive
  subst hm₁ hm₂ hm₃
  refine ⟨rfl, i, found, toAddress_eq_ok haddress, rfl, ?_⟩
  unfold lift at hread
  cases hop : LinearMemory.read i n m' with
  | ok a m =>
    rw [hop] at hread
    cases hread
    exact LinearMemory.read_eq_ok hop
  | error e m =>
    rw [hop] at hread
    cases hread

end MemoryCall

/-- The memory at a place holds some bytes at their address. -/
def Store.Holds {σ : Type} (s : Store σ) (place : Nat) (b : MemoryBytes) : Prop :=
  ∃ m i, s.memories[place]? = some m ∧ b.address.integer? = some (Int.ofNat i) ∧
    slice m.contents i b.bytes.length = b.bytes

/-- What creating an instance gives: the place of its memory, if it hands one out, and a way to call
its exports. -/
structure Created (σ : Type) where
  memory : Option Nat
  call : String → List HostValue → Action σ HostValue

namespace Created

variable {σ : Type}

/-- The instance as a fixture uses it. -/
def subject (c : Created σ) : Subject σ := .ofMemory c.memory c.call

theorem requireMemory_eq_ok {memory : Option Nat} {place : Nat} {s s' : Store σ}
    (h : Subject.requireMemory memory s = .ok place s') : memory = some place ∧ s' = s := by
  cases memory with
  | none => cases h
  | some p =>
    cases h
    exact ⟨rfl, rfl⟩

/-- What a fixture reads is what the memory holds, and all stays as it was. -/
theorem read_eq_ok {c : Created σ} {b : MemoryBytes} {found : List UInt8} {s s' : Store σ}
    (h : c.subject.read b s = .ok found s') :
    s' = s ∧ ∃ place, c.memory = some place ∧ s.Holds place ⟨b.address, found⟩ := by
  obtain ⟨place, s₁, hplace, hafter⟩ := bind_at_eq_ok h
  obtain ⟨hmemory, hs₁⟩ := requireMemory_eq_ok hplace
  obtain ⟨r, s₂, hread, hgive⟩ := bind_at_eq_ok hafter
  subst hs₁
  cases hm : s₁.memories[place]? with
  | none =>
    simp only [Action.onMemory, hm] at hread
    cases hread
  | some m =>
    rw [Action.onMemory_eq hm] at hread
    split at hread
    · next hperform =>
      obtain ⟨hsame, i, bytes, haddress, rfl, hbytes⟩ := MemoryCall.perform_read_eq_ok hperform
      obtain rfl := hsame.symm
      rw [Action.setIfInBounds_eq_self hm] at hread
      cases hread
      cases hgive
      exact ⟨rfl, place, hmemory, m, i, hm, haddress, hbytes.symm⟩
    · cases hread

end Created

/-! ### Reports -/

namespace Action

variable {σ α : Type} {run : Action σ α} {s s' : Store σ}

theorem outcome_of_ok {a : α} (h : run s = .ok a s') : outcome run s = .ok (.ok a) s' := by
  rw [outcome, h]

theorem outcome_of_error {e : Failure} (h : run s = .error e s') :
    outcome run s = .ok (.error e) s' := by
  rw [outcome, h]

theorem outcome_total (run : Action σ α) (s : Store σ) : ∃ r s', outcome run s = .ok r s' := by
  cases h : run s with
  | ok a s' => exact ⟨_, s', outcome_of_ok h⟩
  | error e s' => exact ⟨_, s', outcome_of_error h⟩

end Action

namespace Fixture

variable {σ : Type}

/-- What a region of the memory is found to hold: nothing is wrong only if it was read and is as
expected. -/
theorem checkBytes_total (S : Subject σ) (b : MemoryBytes) (s : Store σ) :
    ∃ wrong s', checkBytes S b s = .ok wrong s' ∧ (wrong = [] → S.read b s = .ok b.bytes s') := by
  cases hread : S.read b s with
  | error e s' => exact ⟨_, s', bind_at_ok (Action.outcome_of_error hread), nofun⟩
  | ok found s' =>
    have hcheck : checkBytes S b s = _ := bind_at_ok (Action.outcome_of_ok hread)
    by_cases hsame : Hex.ofBytesSpaced found = Hex.ofBytesSpaced b.bytes
    · simp only [if_pos hsame] at hcheck
      exact ⟨[], s', hcheck, fun _ => by rw [Hex.ofBytesSpaced_inj.mp hsame]⟩
    · simp only [if_neg hsame] at hcheck
      exact ⟨_, s', hcheck, nofun⟩

/-- Nothing is wrong with the memory of an instance only if each region was read and is as expected,
and then all stays as it was. -/
theorem checkMemory_total (c : Created σ) (s : Store σ) (bs : List MemoryBytes) :
    ∃ wrong s', checkMemory c.subject bs s = .ok wrong s' ∧
      (wrong = [] → s' = s ∧ ∀ b ∈ bs, c.subject.read b s = .ok b.bytes s) := by
  induction bs generalizing s with
  | nil => exact ⟨[], s, rfl, fun _ => ⟨rfl, nofun⟩⟩
  | cons b bs ih =>
    obtain ⟨here, s₁, hhere, hread⟩ := checkBytes_total c.subject b s
    obtain ⟨there, s₂, hthere, hreads⟩ := ih s₁
    refine ⟨here ++ there, s₂, (bind_at_ok hhere).trans (bind_at_ok hthere), fun hnil => ?_⟩
    obtain ⟨rfl, rfl⟩ := List.append_eq_nil_iff.mp hnil
    obtain ⟨rfl, hreads⟩ := hreads rfl
    obtain ⟨rfl, -⟩ := Created.read_eq_ok (hread rfl)
    exact ⟨rfl, List.forall_mem_cons.mpr ⟨hread rfl, hreads⟩⟩

theorem execute_total (f : Fixture) (S : Subject σ) (s : Store σ) :
    ∃ outcome s', f.execute S s = .ok outcome s' := by
  obtain ⟨r, s', hr⟩ :=
    Action.outcome_total (do prepare S f.memory; S.call f.exportName.text f.args) s
  exact ⟨_, s', bind_at_ok hr⟩

/-- A fixture that is run against an instance passes only if the outcome is the expected one and
each region of the memory was read and is as expected. -/
theorem check_total (f : Fixture) (c : Created σ) (s : Store σ) :
    ∃ r s', f.check c.subject s = .ok r s' ∧ (r.passed = true →
      r.outcome.matches f.expect = true ∧ ∀ b ∈ f.memoryAfter, c.subject.read b s' =
        .ok b.bytes s') := by
  obtain ⟨outcome, s₁, houtcome⟩ := execute_total f c.subject s
  obtain ⟨wrong, s₂, hwrong, hreads⟩ := checkMemory_total c s₁ f.memoryAfter
  refine ⟨_, s₂, (bind_at_ok houtcome).trans (bind_at_ok hwrong), fun hpassed => ?_⟩
  obtain ⟨hcheck, hnil⟩ := List.append_eq_nil_iff.mp (List.isEmpty_iff.mp hpassed)
  obtain ⟨rfl, hreads⟩ := hreads hnil
  exact ⟨checkOutcome_eq_nil_iff.mp hcheck, hreads⟩

end Fixture

/-- An instance was created, and in the end a region of its memory reads as expected because it
holds just those bytes. -/
def ReadBack {σ : Type} (create : Action σ (Created σ)) (s s' : Store σ) (b : MemoryBytes) : Prop :=
  ∃ c s₁ place, create s = .ok c s₁ ∧ c.memory = some place ∧ c.subject.read b s' = .ok b.bytes s' ∧
    s'.Holds place b

/-- The outcome and the memory are as a fixture expects them. -/
structure Fixture.Met {σ : Type} (f : Fixture) (create : Action σ (Created σ)) (s s' : Store σ)
    (r : FixtureResult) : Prop where
  outcome : r.outcome.matches f.expect = true
  memory : ∀ b ∈ f.memoryAfter, ReadBack create s s' b

/-- **Each fixture is reported on, and one that passes is met, unless the instance could not be
created although memory was expected, in just the way that was expected of the call.**  Then it
passes without any memory having been read. -/
theorem passed_met_iff {σ : Type} (create : Action σ (Created σ)) (f : Fixture) (s : Store σ) :
    ∃ r s', f.run (Created.subject <$> create) s = .ok r s' ∧
      ((r.passed = true → f.Met create s s' r) ↔
        ∀ e s₁, create s = .error e s₁ → (Outcome.ofUncreated e).matches f.expect = true →
          f.memoryAfter = []) := by
  have hmap : (Created.subject <$> create) s = EStateM.map Created.subject create s := rfl
  rw [EStateM.map] at hmap
  -- Only where there is an instance has the memory been looked at.
  cases hcreate : create s with
  | ok c s₁ =>
    rw [hcreate] at hmap
    have houtcome := Action.outcome_of_ok hmap
    obtain ⟨r, s', hcheck, hpassed⟩ := Fixture.check_total f c s₁
    refine ⟨r, s', (bind_at_ok houtcome).trans hcheck, iff_of_true (fun hr => ?_) nofun⟩
    obtain ⟨hmatches, hreads⟩ := hpassed hr
    refine ⟨hmatches, fun b hb => ?_⟩
    obtain ⟨-, place, hplace, hholds⟩ := Created.read_eq_ok (hreads b hb)
    exact ⟨c, s₁, place, hcreate, hplace, hreads b hb, hholds⟩
  | error e s₁ =>
    rw [hcreate] at hmap
    have houtcome := Action.outcome_of_error hmap
    refine ⟨f.reportUncreated e, s₁, bind_at_ok houtcome, ?_⟩
    constructor
    · rintro hmet e' s₂ heq hmatches
      obtain ⟨rfl, rfl⟩ : e = e' ∧ s₁ = s₂ := by
        cases heq
        exact ⟨rfl, rfl⟩
      refine List.eq_nil_iff_forall_not_mem.mpr fun b hb => ?_
      obtain ⟨c, s₂, place, hok, -⟩ := (hmet hmatches).memory b hb
      cases hcreate.symm.trans hok
    · intro hnil hmatches
      refine ⟨hmatches, fun b hb => ?_⟩
      rw [hnil e s₁ rfl hmatches] at hb
      cases hb

/-- A data segment that does not fit is the trap that was expected, and the fixture passes, although
it expects a byte of a memory that there is not. -/
theorem unread_memory_passes :
    let create : Action Unit (Created Unit) := throw (.trap .outOfBounds)
    let region : MemoryBytes := ⟨.number (.ofInt 0), [42]⟩
    let f : Fixture :=
      { exportName := .string "anything", args := []
        expect := .trap (.string "out-of-bounds"), memoryAfter := [region] }
    ∃ r s', f.run (Created.subject <$> create) { world := () } = .ok r s' ∧ r.passed = true ∧
      r.failures = [] ∧ ¬ ReadBack create { world := () } s' region := by
  intro create region f
  refine ⟨_, _, rfl, by decide +kernel, by decide +kernel, ?_⟩
  rintro ⟨c, s₁, place, ⟨⟩, -⟩

end WasmScript
