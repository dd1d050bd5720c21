/-
  WasmScript/Proofs/Module/Positions.lean
  =======================================
  **Positions of instructions** — that the bytes of a body are its instructions and nothing else.

  A decoded module keeps the offset of each instruction.  The bytes from one offset to the next
  spell the instruction: they are read as it wherever they stand, whatever follows them, and all
  of them are taken (`Decode.Spells`).  The instructions of a body so tile it, from the end of its
  locals to the end that its size declares, and the bodies tile the code section:
  `Module.tiled_of_decode`.

  `Parser.Exact` says of a parser that what it gives depends on the bytes it takes only.
-/
import WasmScript.Proofs.Module.BlockTypes
import WasmScript.Proofs.Module.Nesting
import WasmScript.Proofs.Module.Walk
import WasmScript.Proofs.Module.WellFormed

namespace WasmScript

namespace Parser

variable {α β : Type}

/-- Whatever a parser gives it gives for the bytes that it takes, anywhere and whatever follows
them.  The offset that it is told has no part in that. -/
def Exact (p : Nat → Parser α) : Prop :=
  ∀ ⦃pos : Nat⦄ ⦃r r' : Reader⦄ ⦃bs : List UInt8⦄ ⦃a : α⦄, r.BytesLeft bs → p pos r = .ok a r' →
    ∃ code, code <+: bs ∧ r' = r.skip code.length ∧ ∀ other, (p other).Accepts code (· = a)

/-- Some bytes are read as a value wherever they stand, whatever follows them, and all are taken. -/
def ReadsAs (p : Parser α) (a : α) (code : List UInt8) : Prop :=
  ∀ (r : Reader) (rest : List UInt8), r.BytesLeft (code ++ rest) → p r = .ok a (r.skip code.length)

variable {p : Nat → Parser α} {k : Nat → α → Parser β}

namespace Exact

theorem readsAs (hp : Exact p) {pos : Nat} {r r' : Reader} {bs : List UInt8} {a : α}
    (hr : r.BytesLeft bs) (h : p pos r = .ok a r') :
    ∃ code, code <+: bs ∧ r' = r.skip code.length ∧ ∀ other, (p other).ReadsAs a code := by
  obtain ⟨code, hbegin, hend, hcode⟩ := hp hr h
  refine ⟨code, hbegin, hend, fun other s rest hs => ?_⟩
  obtain ⟨_, s', hrun, hrest, rfl⟩ := hcode other rest s hs
  -- The reader has gone as far as it says, for what is left of the bytes is the same.
  obtain ⟨taken, ⟨left, heq⟩, rfl, -⟩ := hp hs hrun
  rw [← heq] at hs
  have hleft := hs.skip.remaining
  rw [hrest.remaining] at hleft
  have hlength := congrArg List.length heq
  rw [List.length_append, List.length_append] at hlength
  rw [hrun, show taken.length = code.length by omega]

theorem pure (a : α) : Exact fun _ => pure a := by
  rintro pos r _ bs _ hr ⟨⟩
  exact ⟨[], List.nil_prefix, rfl, fun _ => accepts_pure rfl⟩

theorem failAt (cause : DecodeCause) (offset : Nat → Nat) :
    Exact fun pos => (failAt cause (offset pos) : Parser α) := by
  rintro pos r r' bs a hr ⟨⟩

theorem bind (hp : Exact p) (hk : ∀ a, Exact fun pos => k pos a) :
    Exact fun pos => p pos >>= k pos := by
  intro pos r r' bs b hr h
  obtain ⟨a, r₁, hfirst, hrest⟩ := bind_at_eq_ok h
  obtain ⟨code, ⟨rest, rfl⟩, rfl, hcode⟩ := hp hr hfirst
  obtain ⟨more, ⟨rest, rfl⟩, rfl, hmore⟩ := hk a hr.skip hrest
  refine ⟨code ++ more, ⟨rest, List.append_assoc _ _ _⟩, ?_, fun other =>
    .step (hcode other) (hmore other)⟩
  rw [Reader.skip_skip, List.length_append]

theorem placed {p : Nat → Parser α} (hp : Exact p) : Exact fun _ => position >>= p := by
  intro pos r r' bs a hr h
  have hrun : p r.pos r = .ok a r' := (bind_at_ok (position_eq r)).symm.trans h
  obtain ⟨code, hbegin, hend, hcode⟩ := hp hr hrun
  exact ⟨code, hbegin, hend, fun _ => .placed hcode⟩

theorem map {f : α → β} (hp : Exact p) : Exact fun pos => f <$> p pos := by
  simp only [map_eq_pure_bind]
  exact hp.bind fun a => .pure (f a)

theorem ite {c : Prop} [Decidable c] {q : Nat → Parser α} (hp : Exact p) (hq : Exact q) :
    Exact fun pos => if c then p pos else q pos := by
  split
  · exact hp
  · exact hq

end Exact

/-- A parser that is described by the codes that it takes. -/
theorem exact_of_codes {p : Parser α} {G : α → List UInt8 → Prop}
    (h : ∀ ⦃r r' : Reader⦄ ⦃bs : List UInt8⦄ ⦃a : α⦄, r.BytesLeft bs →
      (p r = .ok a r' ↔ ∃ code, code <+: bs ∧ G a code ∧ r' = r.skip code.length)) : Exact fun _ =>
        p := by
  intro _ r r' bs a hr hok
  obtain ⟨code, hbegin, hcode, hend⟩ := (h hr).mp hok
  refine ⟨code, hbegin, hend, fun _ rest s hs => ?_⟩
  exact ⟨a, _, (h hs).mpr ⟨code, ⟨rest, rfl⟩, hcode, rfl⟩, hs.skip, rfl⟩

theorem Recognizes.exact {p : Parser α} {type : String} {most : Nat} {G : α → List UInt8 → Prop}
    (h : Recognizes p type most G) : Exact fun _ => p :=
  exact_of_codes fun _ _ _ _ hr => h.accepts_iff hr _ _

theorem exact_byte : Exact fun _ => byte := by
  intro _ r r' bs b hr h
  cases bs with
  | nil => cases (byte_of_nil hr).symm.trans h
  | cons first rest =>
    cases (byte_of_bytesLeft hr).symm.trans h
    exact ⟨[first], ⟨rest, rfl⟩, rfl, fun _ => accepts_byte⟩

theorem exact_valueType : Exact fun _ => valueType := by
  refine exact_of_codes (G := fun t code => code = [t.byte]) ?_
  intro r r' bs t hr
  cases bs with
  | nil =>
    constructor
    · intro hok
      obtain ⟨pos, _, hpos, hok⟩ := bind_at_eq_ok hok
      cases hpos
      obtain ⟨b, _, hbyte, -⟩ := bind_at_eq_ok hok
      cases (byte_of_nil hr).symm.trans hbyte
    · rintro ⟨_, hbegin, rfl, -⟩
      cases List.prefix_nil.mp hbegin
  | cons b rest =>
    rw [Decode.valueType_ok_iff hr]
    constructor
    · rintro ⟨rfl, rfl⟩
      exact ⟨[t.byte], ⟨rest, rfl⟩, rfl, rfl⟩
    · rintro ⟨_, hbegin, rfl, rfl⟩
      exact ⟨(List.cons_prefix_cons.mp hbegin).1.symm, rfl⟩

/-! ### Vectors -/

variable {item : Parser α}

/-- Items of which each takes a byte at least. -/
theorem exists_items (hitem : Exact fun _ => item) (hne : ∀ a, ¬ item.Accepts [] (· = a))
    (count : Nat) :
    ∀ {items all : Array α} {r r' : Reader} {bs : List UInt8}, r.BytesLeft bs →
      repeated item count items r = .ok all r' →
      ∃ as bss, all.toList = items.toList ++ as ∧ as.length = count ∧ Items item as bss ∧
        bss.flatten <+: bs ∧
        r' = r.skip bss.flatten.length := by
  induction count with
  | zero =>
    rintro items _ r _ bs hr ⟨⟩
    exact ⟨[], [], (List.append_nil _).symm, rfl, .nil, List.nil_prefix, rfl⟩
  | succ count ih =>
    intro items all r r' bs hr h
    obtain ⟨a, r₁, hfirst, hrest⟩ := bind_at_eq_ok h
    obtain ⟨code, ⟨rest, rfl⟩, rfl, hcode⟩ := @hitem 0 _ _ _ _ hr hfirst
    obtain ⟨as, bss, hall, rfl, hitems, ⟨rest, rfl⟩, rfl⟩ := ih hr.skip hrest
    refine ⟨a :: as, code :: bss, ?_, rfl, .cons ⟨hcode 0, ?_⟩ hitems,
      ⟨rest, List.append_assoc _ _ _⟩, ?_⟩
    · rw [hall, Array.toList_push, List.append_assoc]
      rfl
    · rintro rfl
      exact hne a (hcode 0)
    · rw [Reader.skip_skip, List.flatten_cons, List.length_append]

theorem exact_vector (hitem : Exact fun _ => item) (hne : ∀ a, ¬ item.Accepts [] (· = a)) :
    Exact fun _ => vector item := by
  intro _ r r' bs all hr h
  obtain ⟨count, r₁, hcount, hitems⟩ := bind_at_eq_ok h
  obtain ⟨n, r₂, hn, hguard⟩ := bind_at_eq_ok hcount
  obtain ⟨cs, ⟨rest, rfl⟩, hcs, rfl⟩ := (recognizes_u32.accepts_iff hr n r₂).mp hn
  obtain ⟨left, _, hleft, hguard⟩ := bind_at_eq_ok hguard
  cases hleft
  split at hguard
  · cases hguard
  · cases hguard
    obtain ⟨as, bss, hall, rfl, hread, ⟨rest, rfl⟩, rfl⟩ := exists_items hitem hne _ hr.skip hitems
    refine ⟨cs ++ bss.flatten, ⟨rest, List.append_assoc _ _ _⟩, ?_, fun _ => ?_⟩
    · rw [Reader.skip_skip, List.length_append]
    · have hsame : as.toArray = all := Array.toList_inj.mp (by rw [hall]; rfl)
      rw [← hsame]
      exact accepts_vector hcs hread

/-- What reads a byte at least does not read nothing. -/
theorem not_accepts_nil {p : Parser α} (h : ∀ r : Reader, r.BytesLeft [] → ∀ a r', p r ≠ .ok a r')
    (a : α) :
    ¬ p.Accepts [] (· = a) := by
  intro haccepts
  obtain ⟨a', r', hok, -⟩ :=
    haccepts [] (Reader.ofBytes ByteArray.empty "") (Reader.bytesLeft_ofBytes _ _)
  exact h _ (Reader.bytesLeft_ofBytes _ _) a' r' hok

theorem u32_ne_nil (n : Nat) : ¬ u32.Accepts [] (· = n) := by
  refine not_accepts_nil (fun r hr n r' hok => ?_) n
  obtain ⟨code, hbegin, hcode, -⟩ := (recognizes_u32.accepts_iff hr n r').mp hok
  exact hcode.ne_nil (List.prefix_nil.mp hbegin)

theorem valueType_ne_nil (t : ValueType) : ¬ valueType.Accepts [] (· = t) := by
  refine not_accepts_nil (fun r hr t r' hok => ?_) t
  obtain ⟨pos, _, hpos, hok⟩ := bind_at_eq_ok hok
  cases hpos
  obtain ⟨b, _, hbyte, -⟩ := bind_at_eq_ok hok
  cases (byte_of_nil hr).symm.trans hbyte

end Parser

namespace Decode

open WasmScript.Parser

variable {scope : Scope}

/-! ### Instructions -/

theorem exact_u32 : Exact fun _ => u32 := recognizes_u32.exact

theorem exact_blockType :
    Exact fun _ => blockType scope := exact_of_codes fun _ _ _ _ hr => blockType_ok_iff hr

theorem exact_memArg (access : Access) : Exact fun _ => memArg access := by
  refine .placed (.bind exact_u32 fun align => .ite (.failAt _ id) (.ite (.failAt _ id) ?_))
  exact .bind exact_u32 fun _ => .pure _

theorem exact_memoryIndex : Exact fun _ => memoryIndex :=
  .placed (.bind exact_byte fun _ => .ite (.failAt _ id) (.pure _))

theorem exact_escaped : Exact escaped := by
  refine .bind exact_u32 fun number => ?_
  split
  · exact .bind exact_memoryIndex fun _ => .bind exact_memoryIndex fun _ => .pure _
  · exact .bind exact_memoryIndex fun _ => .pure _
  · exact .failAt _ id
  · exact .failAt _ id
  · exact .ite (.failAt _ id) (.ite (.failAt _ id) (.failAt _ id))

theorem exact_plain (byte : Nat) : Exact fun pos => plain pos byte :=
  .ite (.failAt _ id)
    (.ite (.failAt _ id)
      (.ite (.pure _) (.ite (.failAt _ id) (.ite (.failAt _ id) (.failAt _ id)))))

theorem exact_access (byte : Nat) : Exact fun pos => access pos byte := by
  unfold access
  split
  · exact .bind (exact_memArg _) fun arg => .pure _
  · exact .failAt _ id

theorem exact_operation (first : Nat) : Exact fun pos => operation scope pos first := by
  unfold operation
  split
  case h_10 =>
    exact .bind (exact_vector exact_u32 u32_ne_nil) fun depths => .bind exact_u32 fun _ => .pure _
  case h_12 => exact .bind exact_u32 fun index => .ite (.pure _) (.failAt _ id)
  case h_16 =>
    exact .bind (exact_vector exact_valueType valueType_ne_nil) fun types =>
      .ite (.pure _) (.failAt _ id)
  case h_22 => exact .bind exact_memoryIndex fun _ => .pure _
  case h_23 => exact .bind exact_memoryIndex fun _ => .pure _
  case h_24 => exact recognizes_s32.exact.map
  case h_25 => exact recognizes_s64.exact.map
  case h_28 => exact exact_escaped
  case h_31 => exact exact_access first
  case h_32 => exact exact_plain first
  all_goals first
    | exact .pure _
    | exact exact_u32.map
    | exact exact_blockType.map
    | exact .failAt _ id

/-- Some bytes are read as an instruction wherever they stand, whatever follows them, and all are
taken. -/
def Spells (scope : Scope) (i : Instruction) (code : List UInt8) : Prop :=
  ∀ (r : Reader) (rest : List UInt8), r.BytesLeft (code ++ rest) →
    instruction scope r = .ok ⟨r.pos, i⟩ (r.skip code.length)

variable {bytes : ByteArray} {r r' : Reader} {bs : List UInt8} {l : Located} {start next stop : Nat}

theorem exists_spells (hr : r.BytesLeft bs) (h : instruction scope r = .ok l r') :
    l.pos = r.pos ∧ ∃ code, code ≠ [] ∧ code <+: bs ∧ r' = r.skip code.length ∧
      Spells scope l.instruction code := by
  obtain ⟨pos, _, hpos, h⟩ := bind_at_eq_ok h
  cases hpos
  obtain ⟨first, r₁, hfirst, h⟩ := bind_at_eq_ok h
  obtain ⟨i, r₂, hrest, hgive⟩ := bind_at_eq_ok h
  cases hgive
  cases bs with
  | nil => cases (byte_of_nil hr).symm.trans hfirst
  | cons b bs =>
    cases (byte_of_bytesLeft hr).symm.trans hfirst
    obtain ⟨code, hbegin, rfl, hcode⟩ := (exact_operation b.toNat).readsAs hr.tail hrest
    refine ⟨rfl, b :: code, List.cons_ne_nil _ _, (List.prefix_cons_inj b).mpr hbegin, ?_,
      fun s rest hs => ?_⟩
    · rw [Reader.skip_skip, List.length_cons, Nat.add_comm]
    · have hrun : instruction scope s = _ :=
        (bind_at_ok (position_eq s)).trans (bind_at_ok (byte_of_bytesLeft hs))
      rw [hrun, bind_at_ok (hcode s.pos _ rest (Reader.BytesLeft.tail hs)), List.length_cons,
        Nat.add_comm, ← Reader.skip_skip]
      rfl

/-! ### Tilings -/

/-- Instructions one after another from `start` on, each at its offset, the last of which ends at
`stop`. -/
inductive Tiles (scope : Scope) (bytes : ByteArray) : Nat → List Located → Nat → Prop where
  | done {stop : Nat} : Tiles scope bytes stop [] stop
  | next {start next stop : Nat} {i : Instruction} {ls : List Located} : start < next →
      Spells scope i (bytes.extract start next).data.toList → Tiles scope bytes next ls stop →
      Tiles scope bytes start (⟨start, i⟩ :: ls) stop

namespace Tiles

variable {ls : List Located}

theorem le (h : Tiles scope bytes start ls stop) : start ≤ stop := by
  induction h with
  | done => exact Nat.le_refl _
  | next hlt _ _ ih => exact (Nat.le_of_lt hlt).trans ih

theorem bounds (h : Tiles scope bytes start ls stop) : ∀ l ∈ ls, start ≤ l.pos ∧ l.pos < stop := by
  induction h with
  | done => exact fun l hl => absurd hl List.not_mem_nil
  | next hlt _ hrest ih =>
    refine List.forall_mem_cons.mpr ⟨⟨Nat.le_refl _, hlt.trans_le hrest.le⟩, fun l hl => ?_⟩
    exact ⟨(Nat.le_of_lt hlt).trans (ih l hl).1, (ih l hl).2⟩

theorem increasing (h : Tiles scope bytes start ls stop) :
    (ls.map Located.pos).Pairwise (· < ·) := by
  induction h with
  | done => exact .nil
  | next hlt _ hrest ih =>
    refine .cons ?_ ih
    intro pos hpos
    obtain ⟨l, hl, rfl⟩ := List.mem_map.mp hpos
    exact hlt.trans_le (hrest.bounds l hl).1

theorem spelled (h : Tiles scope bytes start ls stop) :
    ∀ l ∈ ls, ∃ next, l.pos < next ∧ next ≤ stop ∧
    Spells scope l.instruction (bytes.extract l.pos next).data.toList := by
  induction h with
  | done => exact fun l hl => absurd hl List.not_mem_nil
  | next hlt hspells hrest ih => exact List.forall_mem_cons.mpr ⟨⟨_, hlt, hrest.le, hspells⟩, ih⟩

end Tiles

theorem exists_tiles (fuel : Nat) :
    ∀ {depth : Nat} {read all : Array Located} {r r' : Reader} {bs : List UInt8},
    r.BytesLeft bs → instructions scope fuel depth read r = .ok all r' →
      ∃ more code, all.toList = read.toList ++ more ∧ Tiles scope r.bytes r.pos more r'.pos ∧
        code <+: bs ∧ r' = r.skip code.length := by
  induction fuel with
  | zero => rintro depth read all r r' bs hr ⟨⟩
  | succ fuel ih =>
    intro depth read all r r' bs hr h
    obtain ⟨l, r₁, hfirst, h⟩ := bind_at_eq_ok h
    obtain ⟨hpos, code, hne, ⟨rest, rfl⟩, rfl, hspells⟩ := exists_spells hr hfirst
    have hcode := hr.extract
    have hlt : r.pos < r.pos + code.length := Nat.lt_add_of_pos_right (List.length_pos_iff.mpr hne)
    have htile {more : List Located} {stop : Nat}
        (hmore : Tiles scope r.bytes (r.pos + code.length) more stop) :
        Tiles scope r.bytes r.pos (l :: more) stop := by
      have hl : l = ⟨r.pos, l.instruction⟩ := by rw [← hpos]
      rw [hl]
      exact .next hlt (hcode.symm ▸ hspells) hmore
    -- Reading ends with this instruction or goes on with the next one, at whatever depth.
    have hgo (k : Parser (Array Located))
        (hk : k = pure (read.push l) ∨ ∃ depth, k = instructions scope fuel depth (read.push l))
        (h : k (r.skip code.length) = .ok all r') :
        ∃ more taken, all.toList = read.toList ++ more ∧ Tiles scope r.bytes r.pos more r'.pos ∧
          taken <+: code ++ rest ∧ r' = r.skip taken.length := by
      rcases hk with rfl | ⟨depth, rfl⟩
      · cases h
        exact ⟨[l], code, Array.toList_push, htile .done, ⟨rest, rfl⟩, rfl⟩
      · obtain ⟨more, taken, hall, hmore, ⟨left, rfl⟩, rfl⟩ := ih hr.skip h
        refine ⟨l :: more, code ++ taken, ?_, htile hmore, ⟨left, List.append_assoc _ _ _⟩, ?_⟩
        · rw [hall, Array.toList_push, List.append_assoc]
          rfl
        · rw [Reader.skip_skip, List.length_append]
    refine hgo _ ?_ h
    dsimp only
    split
    · exact .inl rfl
    · exact .inr ⟨_, rfl⟩
    · exact .inr ⟨_, rfl⟩

/-! ### Bodies -/

def declarations : Parser (Array ValueType) := do localGroups (← u32) #[]

theorem exact_localGroups (groups : Nat) :
    ∀ locals : Array ValueType, Exact fun _ => localGroups groups locals := by
  induction groups with
  | zero => exact fun locals => .pure _
  | succ groups ih =>
    intro locals
    refine .placed (.bind exact_u32 fun count => .bind exact_valueType fun type => ?_)
    exact .ite (.failAt _ id) (ih _)

theorem exact_declarations : Exact fun _ => declarations :=
  .bind exact_u32 fun groups => exact_localGroups groups #[]

theorem declarations_ne_nil (locals : Array ValueType) : ¬ declarations.ReadsAs locals [] := by
  intro hreadsAs
  have hr := Reader.bytesLeft_ofBytes ByteArray.empty ""
  obtain ⟨groups, r₁, hgroups, -⟩ := bind_at_eq_ok (hreadsAs _ [] hr)
  obtain ⟨code, hbegin, hcode, -⟩ := (recognizes_u32.accepts_iff hr groups r₁).mp hgroups
  exact hcode.ne_nil (List.prefix_nil.mp hbegin)

end Decode

open Decode in
/-- A body fills its entry, from the size at `start` to the end at `stop` that the size declares:
its locals come first, and its instructions tile the rest. -/
structure Body.Tiled (scope : Scope) (bytes : ByteArray) (b : Body) (start stop : Nat) : Prop where
  inside : stop ≤ bytes.size
  size : Leb128.Unsigned 32 (stop - b.pos) (bytes.extract start b.pos).data.toList
  filled : ∃ first, b.pos < first ∧
      declarations.ReadsAs b.locals (bytes.extract b.pos first).data.toList ∧
    Tiles scope bytes first b.instructions.toList stop

namespace Decode

open WasmScript.Parser

variable {scope : Scope} {bytes : ByteArray} {r r' : Reader} {bs : List UInt8}
    {start next stop : Nat} {b : Body}

theorem exists_tiles_of_body (hr : r.BytesLeft bs) (h : body scope r = .ok b r') :
    b.pos = r.pos ∧ ∃ first, r.pos < first ∧
      declarations.ReadsAs b.locals (r.bytes.extract r.pos first).data.toList ∧
      Tiles scope r.bytes first b.instructions.toList (r.pos + bs.length) := by
  obtain ⟨pos, _, hpos, h⟩ := bind_at_eq_ok h
  cases hpos
  obtain ⟨groups, r₁, hgroups, h⟩ := bind_at_eq_ok h
  obtain ⟨locals, r₂, hlocals, h⟩ := bind_at_eq_ok h
  have hdeclared : declarations r = .ok locals r₂ := (bind_at_ok hgroups).trans hlocals
  obtain ⟨left, _, hleft, h⟩ := bind_at_eq_ok h
  cases hleft
  obtain ⟨code, r₃, hcode, h⟩ := bind_at_eq_ok h
  obtain ⟨rest, _, hrest, h⟩ := bind_at_eq_ok h
  cases hrest
  obtain ⟨front, ⟨back, rfl⟩, rfl, hreadsAs⟩ :=
    @Exact.readsAs _ _ exact_declarations 0 _ _ _ _ hr hdeclared
  obtain ⟨more, taken, hall, htiles, ⟨last, rfl⟩, rfl⟩ := exists_tiles _ hr.skip hcode
  split at h
  · cases h
  · next hend =>
    cases h
    have hfront := hr.extract
    have hlast := hr.skip.skip.remaining
    rw [not_not.mp hend] at hlast
    -- The declarations have a count at least, so the code starts behind the position of the body.
    have hne : front ≠ [] := by
      rintro rfl
      exact declarations_ne_nil locals (hreadsAs 0)
    refine ⟨rfl, r.pos + front.length, Nat.lt_add_of_pos_right (List.length_pos_iff.mpr hne), ?_,
      ?_⟩
    · rw [hfront]
      exact hreadsAs 0
    · have hstop : ((r.skip front.length).skip taken.length).pos =
          r.pos + (front ++ (taken ++ last)).length := by
        change r.pos + front.length + taken.length = _
        rw [List.length_append, List.length_append, ← hlast]
        omega
      rw [← hstop]
      rw [List.nil_append] at hall
      rwa [hall]

/-- Bodies one after another from `start` on, the last of which ends at `stop`. -/
inductive Entries (scope : Scope) (bytes : ByteArray) : Nat → List Body → Nat → Prop where
  | done {stop : Nat} : Entries scope bytes stop [] stop
  | next {start next stop : Nat} {b : Body} {bodies : List Body} : b.Tiled scope bytes start next →
      Entries scope bytes next bodies stop → Entries scope bytes start (b :: bodies) stop

theorem exists_entries (count : Nat) :
    ∀ {read all : Array Body} {r r' : Reader} {bs : List UInt8}, r.BytesLeft bs →
    bodies scope count read r = .ok all r' → r.limit ≤ r.bytes.size →
      ∃ more code, all.toList = read.toList ++ more ∧ Entries scope r.bytes r.pos more r'.pos ∧
        code <+: bs ∧ r' = r.skip code.length := by
  -- The induction is on the bodies that are left, each of which stands behind its size.
  induction count with
  | zero =>
    rintro read _ r _ bs hr ⟨⟩ _
    exact ⟨[], [], (List.append_nil _).symm, .done, List.nil_prefix, rfl⟩
  | succ count ih =>
    intro read all r r' bs hr h hlimit
    obtain ⟨size, r₁, hsize, h⟩ := bind_at_eq_ok h
    obtain ⟨code, ⟨rest, rfl⟩, hcode, rfl⟩ := (recognizes_u32.accepts_iff hr size r₁).mp hsize
    obtain ⟨b, r₂, hbody, h⟩ := bind_at_eq_ok h
    have hnext := hr.skip
    rcases Nat.lt_or_ge (r.skip code.length).remaining size with hlt | hle
    · cases (within_of_lt hlt none).symm.trans hbody
    · obtain ⟨content, rest, rfl, rfl⟩ := hnext.split hle
      rw [within_of_le hle] at hbody
      split at hbody
      · next hinner =>
        cases hbody
        obtain ⟨hpos, first, hfirst, hlocals, htiles⟩ :=
          exists_tiles_of_body (hnext.stretch _) hinner
        obtain ⟨more, taken, hall, hmore, ⟨left, rfl⟩, rfl⟩ := ih hnext.skip h hlimit
        have hposEq : b.pos = r.pos + code.length := hpos
        have htiled : b.Tiled scope r.bytes r.pos (r.pos + code.length + content.length) := by
          refine ⟨?_, ?_, first, ?_, ?_, htiles⟩
          · have hend := hnext.skip.le_limit
            exact hend.trans hlimit
          · rw [hposEq, hr.extract, Nat.add_sub_cancel_left]
            exact hcode
          · rw [hposEq]
            exact hfirst
          · rw [hposEq]
            exact hlocals
        refine ⟨b :: more, code ++ (content ++ taken), ?_, .next htiled hmore, ⟨left, ?_⟩, ?_⟩
        · rw [hall, Array.toList_push, List.append_assoc]
          rfl
        · simp only [List.append_assoc]
        · rw [Reader.skip_skip, Reader.skip_skip, List.length_append, List.length_append]
      · cases hbody

end Decode

/-! ### The code section -/

/-- What the instructions of a module may refer to. -/
def Module.scope (m : Module) : Scope := ⟨m.types, m.functionCount⟩

namespace Decode

open WasmScript.Parser

variable {r r' : Reader} {bs rest : List UInt8} {m m' : Module} {p : Progress} {id : SectionId}
    {st st' : Stage}
variable {s : RawSection} {secs : List RawSection} {pos : Nat}

theorem exists_entries_of_code (hr : r.BytesLeft bs) (hlimit : r.limit ≤ r.bytes.size)
    (h : code m r = .ok m' r') :
    m'.scope = m.scope ∧ r'.pos + r'.remaining = r.limit ∧
      ∃ count, Leb128.Unsigned 32 m'.bodies.size count ∧ count <+: bs ∧
        Entries m.scope r.bytes (r.pos + count.length) m'.bodies.toList r'.pos := by
  obtain ⟨_, _, hpos, h⟩ := bind_at_eq_ok h
  cases hpos
  obtain ⟨n, r₁, hn, h⟩ := bind_at_eq_ok h
  obtain ⟨count, ⟨rest, rfl⟩, hcount, rfl⟩ := (recognizes_u32.accepts_iff hr n r₁).mp hn
  split at h
  · cases h
  · obtain ⟨all, r₂, hall, hgive⟩ := bind_at_eq_ok h
    have hsize :=
      (ensures_bodies n #[] (fun b hb => absurd hb (Array.not_mem_empty b)) _ _ _ hall).1
    obtain ⟨more, code, hmore, hentries, ⟨left, rfl⟩, rfl⟩ := exists_entries n hr.skip hall hlimit
    cases hgive
    rw [List.nil_append] at hmore
    refine ⟨rfl, Nat.add_sub_of_le hr.skip.skip.le_limit, count, ?_, ⟨_, rfl⟩, ?_⟩
    · rw [hsize, Array.size_empty, Nat.zero_add]
      exact hcount
    · rw [hmore]
      exact hentries

theorem ensures_importEntry_bodies : (importEntry m).Ensures fun m' => m'.bodies = m.bodies := by
  refine .next fun source => .next fun field => .next fun pos => .next fun kind => ?_
  split
  · exact .next fun index => ensures_pure rfl
  · exact ensures_failAt _ _
  · split
    · exact ensures_failAt _ _
    · exact .next fun found => ensures_pure rfl
  · exact ensures_failAt _ _
  · exact ensures_failAt _ _

theorem ensures_importEntries_bodies (count : Nat) :
    ∀ m : Module, (importEntries count m).Ensures fun m' => m'.bodies = m.bodies := by
  induction count with
  | zero => exact fun m => ensures_pure rfl
  | succ count ih =>
    exact fun m => .bind ensures_importEntry_bodies fun m₁ hm₁ => (ih m₁).mono fun m' hm' =>
      hm'.trans hm₁

theorem ensures_memory_bodies : (memory m).Ensures fun m' => m'.bodies = m.bodies := by
  refine .next fun pos => .next fun count => ?_
  split
  · exact ensures_failAt _ _
  split
  · exact .next fun found => ensures_pure rfl
  · exact ensures_pure rfl

/-- Only the code section has bodies. -/
theorem ensures_bodies_kept (hne : id ≠ .code) :
    (contents id p).Ensures fun p' => p'.module.bodies = p.module.bodies := by
  -- Only the section of the code has bodies.
  cases id with
  | custom => exact ensures_pure rfl
  | type => exact .next fun _ => ensures_pure rfl
  | «import» =>
    exact .next fun count => .bind (ensures_importEntries_bodies count p.module) fun m' hm' =>
      ensures_pure hm'
  | function => exact .next fun _ => ensures_pure rfl
  | table => exact .next fun _ => ensures_pure rfl
  | memory => exact .bind ensures_memory_bodies fun m' hm' => ensures_pure hm'
  | global => exact .next fun _ => ensures_pure rfl
  | «export» => exact .next fun _ => .next fun _ => ensures_pure rfl
  | start =>
    refine .bind ensures_start fun m' hm' => ?_
    obtain ⟨i, rfl, -⟩ := hm'
    exact ensures_pure rfl
  | element =>
    refine .next fun pos => .next fun count => ?_
    split
    · exact ensures_failAt _ _
    · exact ensures_pure rfl
  | code => exact absurd rfl hne
  | data => exact .next fun _ => ensures_pure rfl
  | dataCount => exact .next fun _ => ensures_pure rfl

/-- The order of sections lets only data follow the code, besides custom sections. -/
theorem eq_data_of_rank (hid : id ≠ .custom) (hrank : SectionId.code.rank < id.rank) :
    id = .data := by
  have hall : ∀ id : SectionId, id ≠ .custom → SectionId.code.rank < id.rank → id = .data := by
    intro id
    cases id <;> decide
  exact hall id hid hrank

/-- A stage at which the code is read. -/
structure Stage.HasCode (scope : Scope) (bodies : Array Body) (st : Stage) : Prop where
  last : ∃ rank ∈ st.last, SectionId.code.rank ≤ rank
  scope : st.progress.module.scope = scope
  bodies : st.progress.module.bodies = bodies

theorem ensures_interior_hasCode {scope : Scope} {read : Array Body} (h : st.HasCode scope read) :
    (interior id pos st).Ensures (Stage.HasCode scope read) := by
  obtain ⟨⟨rank, hlast, hrank⟩, hscope, hbodies⟩ := h
  have hordered (hid : id ≠ .custom) :
      (Stage.mk (some id.rank) <$> ordered id pos st).Ensures (Stage.HasCode scope read) := by
    unfold ordered
    split
    · exact (ensures_failAt _ _).map (P := fun _ => False) fun _ h => h.elim
    · next horder =>
      -- Only the data comes after the code.
      have hlater : rank < id.rank := by
        rw [show st.last = some rank from hlast] at horder
        simpa using horder
      obtain rfl := eq_data_of_rank hid (hrank.trans_lt hlater)
      have hdata : (contents .data st.progress).Ensures fun p => p.module.scope = scope ∧
          p.module.bodies = read :=
        .next fun segments => ensures_pure ⟨hscope, hbodies⟩
      refine .map (P := fun p => p.module.scope = scope ∧ p.module.bodies = read) ?_ fun p hp =>
        ⟨⟨_, rfl, Nat.le_of_lt (hrank.trans_lt hlater)⟩, hp.1, hp.2⟩
      refine hdata.bind fun p hp => .next fun left => ?_
      split
      · exact ensures_fail _
      · exact ensures_pure hp
  cases id with
  | custom => exact .mapped fun label => ⟨⟨rank, hlast, hrank⟩, hscope, hbodies⟩
  | _ => exact hordered (by decide)

theorem Walk.hasCode {scope : Scope} {read : Array Body} (hwalk : Walk pos secs st st')
    (h : st.HasCode scope read) :
    st'.HasCode scope read := by
  induction hwalk with
  | done => exact h
  | next hlead _ ih => exact ih (hlead.ensures (ensures_interior_hasCode h))

theorem ensures_interior_bodies (hid : id ≠ .code) :
    (interior id pos st).Ensures fun st' => st'.progress.module.bodies =
      st.progress.module.bodies := by
  have hordered (id : SectionId) (hid : id ≠ .code) :
      (Stage.mk (some id.rank) <$> ordered id pos st).Ensures fun st' =>
      st'.progress.module.bodies = st.progress.module.bodies := by
    unfold ordered
    split
    · exact (ensures_failAt _ _).map (P := fun _ => False) fun _ h => h.elim
    · refine .map ((ensures_bodies_kept hid).bind fun p hp => .next fun left => ?_) fun p hp => hp
      split
      · exact ensures_fail _
      · exact ensures_pure hp
  cases id with
  | custom => exact .mapped fun label => rfl
  | _ => exact hordered _ hid

/-- Bodies come from the one code section. -/
theorem exists_code (hwalk : Walk pos secs st st') (hnone : st.progress.module.bodies = #[]) :
    st'.progress.module.bodies = #[] ∨ ∃ front s back st₁ st₂, secs = front ++ s :: back ∧
      s.id = .code ∧
      SectionStep (pos + (front.flatMap RawSection.bytes).length) s st₁ st₂ ∧
      Walk (pos + (front.flatMap RawSection.bytes).length + s.bytes.length) back st₂ st' := by
  induction hwalk with
  | done => exact .inl hnone
  | @next pos s secs st st₁ st' hlead hrest ih =>
    by_cases hid : s.id = .code
    · exact .inr ⟨[], s, secs, st, st₁, rfl, hid, hlead, hrest⟩
    · rcases ih ((hlead.ensures (ensures_interior_bodies hid)).trans hnone) with
        hnone | ⟨front, t, back, st₂, st₃, rfl, ht, hlead', hback⟩
      · exact .inl hnone
      · refine .inr ⟨s :: front, t, back, st₂, st₃, rfl, ht, ?_⟩
        rw [List.flatMap_cons, List.length_append, ← Nat.add_assoc]
        exact ⟨hlead', hback⟩

/-- The code section is the number of the bodies and the bodies. -/
theorem exists_entries_of_sectionStep (hid : s.id = .code) (hlead : SectionStep r.pos s st st')
    (hr : r.BytesLeft (s.bytes ++ rest)) (hlimit : r.limit ≤ r.bytes.size) :
    st'.HasCode st.progress.module.scope st'.progress.module.bodies ∧ ∃ start,
      Leb128.Unsigned 32 st'.progress.module.bodies.size
        (r.bytes.extract (s.contentStart r.pos) start).data.toList ∧
      Entries st.progress.module.scope r.bytes start st'.progress.module.bodies.toList
        (r.pos + s.bytes.length) := by
  obtain ⟨r', hrun⟩ := hlead.run hr.inside rfl rfl
  have hinsideLimit : (r.inside s).limit ≤ r.bytes.size :=
    (Reader.BytesLeft.past hr).le_limit.trans hlimit
  rw [hid] at hrun
  change (Stage.mk (some SectionId.code.rank) <$> ordered .code r.pos st) (r.inside s) = _ at hrun
  rw [map_eq_pure_bind] at hrun
  obtain ⟨p', _, hordered, hgive⟩ := bind_at_eq_ok hrun
  cases hgive
  unfold ordered at hordered
  split at hordered
  · cases hordered
  obtain ⟨p, r₁, hcontents, hend⟩ := bind_at_eq_ok hordered
  obtain ⟨left, _, hleft, hend⟩ := bind_at_eq_ok hend
  obtain ⟨m', r₂, hcode, hgive⟩ := bind_at_eq_ok hcontents
  cases hgive
  cases hleft
  split at hend
  · cases hend
  next hall =>
  cases hend
  obtain ⟨hscope, hstop, count, hcount, ⟨code, heq⟩, hentries⟩ :=
    exists_entries_of_code hr.inside hinsideLimit hcode
  -- Nothing of the section is left, so the last body ends where the section does.
  have hfilled : r'.pos = r.pos + s.bytes.length := by
    rw [not_not.mp hall] at hstop
    exact hstop
  refine ⟨⟨⟨_, rfl, Nat.le_refl _⟩, hscope, rfl⟩, s.contentStart r.pos + count.length, ?_, ?_⟩
  · have hinside := hr.inside
    rw [← heq] at hinside
    have hfront :
        (r.bytes.extract (s.contentStart r.pos) (s.contentStart r.pos + count.length)).data.toList =
          count :=
      hinside.extract
    rw [hfront]
    exact hcount
  · rw [← hfilled]
    exact hentries

/-- The bodies of a module fill its code section, after their number. -/
def FilledBy (bytes : ByteArray) (scope : Scope) (bodies : List Body) : Prop :=
  ∃ front s back start, s.id = .code ∧
    bytes.data.toList = preamble ++ (front ++ s :: back).flatMap RawSection.bytes ∧
    Leb128.Unsigned 32 bodies.length
      (bytes.extract (s.contentStart (boundary front)) start).data.toList ∧
    Entries scope bytes start bodies (boundary front + s.bytes.length)

end Decode

namespace Body.Tiled

open WasmScript.Decode

variable {scope : Scope} {bytes : ByteArray} {b : Body} {start stop : Nat}

theorem start_lt (h : b.Tiled scope bytes start stop) : start < b.pos := by
  have hlength := List.length_pos_iff.mpr h.size.ne_nil
  rw [ByteArray.data_extract, Array.toList_extract, List.extract_eq_take_drop,
    List.length_take] at hlength
  omega

theorem pos_lt (h : b.Tiled scope bytes start stop) : b.pos < stop := by
  obtain ⟨first, hfirst, -, htiles⟩ := h.filled
  exact hfirst.trans_le htiles.le

theorem instruction_lt (h : b.Tiled scope bytes start stop) :
    ∀ l ∈ b.instructions, b.pos < l.pos ∧ l.pos < stop := by
  obtain ⟨first, hfirst, -, htiles⟩ := h.filled
  intro l hl
  obtain ⟨hlow, hhigh⟩ := htiles.bounds l (Array.mem_toList_iff.mpr hl)
  exact ⟨hfirst.trans_le hlow, hhigh⟩

theorem increasing (h : b.Tiled scope bytes start stop) :
    (b.instructions.toList.map Located.pos).Pairwise (· < ·) := by
  obtain ⟨first, -, -, htiles⟩ := h.filled
  exact htiles.increasing

end Body.Tiled

namespace Decode.Entries

variable {scope : Scope} {bytes : ByteArray} {start stop : Nat} {read : List Body}

theorem le (h : Entries scope bytes start read stop) : start ≤ stop := by
  induction h with
  | done => exact Nat.le_refl _
  | next htiled _ ih => exact (Nat.le_of_lt (htiled.start_lt.trans htiled.pos_lt)).trans ih

theorem tiled (h : Entries scope bytes start read stop) :
    ∀ b ∈ read, ∃ first last, last ≤ stop ∧ b.Tiled scope bytes first last := by
  induction h with
  | done => exact fun b hb => absurd hb List.not_mem_nil
  | next htiled hrest ih => exact List.forall_mem_cons.mpr ⟨⟨_, _, hrest.le, htiled⟩, ih⟩

end Decode.Entries

open Decode in
/-- The bodies that a walk through all that follows the preamble leads to. -/
theorem filled_of_walk {bytes : ByteArray} {secs : List RawSection} {st : Stage}
    (heq : bytes.data.toList = preamble ++ secs.flatMap RawSection.bytes)
    (hwalk : Walk 8 secs .first st) :
    st.progress.module.bodies = #[] ∨
      FilledBy bytes st.progress.module.scope st.progress.module.bodies.toList := by
  -- Without a section for it there is no code, and with one the bodies are those of that section.
  rcases exists_code hwalk rfl with hnone | ⟨front, s, back, st₁, st₂, rfl, hid, hlead, hback⟩
  · exact .inl hnone
  · have hr := Reader.bytesLeft_ofBytes bytes "header"
    rw [heq, List.flatMap_append, List.flatMap_cons, ← List.append_assoc] at hr
    have hs := hr.skip
    have hlength : (preamble ++ front.flatMap RawSection.bytes).length = boundary front := by
      rw [List.length_append]
      rfl
    change SectionStep (boundary front) s st₁ st₂ at hlead
    rw [← hlength] at hlead
    have hpos :
        ((Reader.ofBytes bytes "header").skip
          (preamble ++ front.flatMap RawSection.bytes).length).pos
        = (preamble ++ front.flatMap RawSection.bytes).length := Nat.zero_add _
    rw [← hpos] at hlead
    obtain ⟨hcode, start, hcount, hentries⟩ :=
      exists_entries_of_sectionStep hid hlead hs (Nat.le_refl _)
    have hlast := hback.hasCode hcode
    rw [hpos, hlength] at hcount hentries
    refine .inr ⟨front, s, back, start, hid, heq, ?_, ?_⟩
    · rw [hlast.bodies]
      exact hcount
    · rw [hlast.bodies, hlast.scope]
      exact hentries

open Decode in
theorem Module.exists_filled {bytes : ByteArray} {m : Module} (h : decode bytes = .ok m) :
    m.bodies = #[] ∨ FilledBy bytes m.scope m.bodies.toList := by
  obtain ⟨secs, st, heq, hwalk, -, rfl⟩ := decode_ok_iff.mp h
  exact filled_of_walk heq hwalk

open Decode in
/-- Of each body of a module the instructions stand at increasing offsets, and the bytes from one
offset to the next, in the end to the end of the body, spell them one after another and fill the
body after its locals.  The bodies in turn fill the code section. -/
theorem Module.tiled_of_decode {bytes : ByteArray} {m : Module} (h : decode bytes = .ok m) :
    (∀ b ∈ m.bodies, (b.instructions.toList.map Located.pos).Pairwise (· < ·) ∧
      ∃ start stop, b.Tiled m.scope bytes start stop) ∧
    (m.bodies = #[] ∨ FilledBy bytes m.scope m.bodies.toList) := by
  refine ⟨fun b hb => ?_, exists_filled h⟩
  rcases exists_filled h with hnone | ⟨_, _, _, _, -, -, -, hentries⟩
  · rw [hnone] at hb
    exact absurd hb (Array.not_mem_empty b)
  · obtain ⟨first, last, -, htiled⟩ := hentries.tiled b (Array.mem_toList_iff.mpr hb)
    exact ⟨htiled.increasing, first, last, htiled⟩

open Decode in
/-- The two bodies of the sample module fill its code section. -/
theorem Module.tiled_of_decode_sample :
    decode sampleBytes = .ok sample ∧ sample.bodies.size = 2 ∧
      (∀ b ∈ sample.bodies, (b.instructions.toList.map Located.pos).Pairwise (· < ·) ∧
        ∃ start stop, b.Tiled sample.scope sampleBytes start stop) ∧
      FilledBy sampleBytes sample.scope sample.bodies.toList := by
  obtain ⟨heach, hfilled⟩ := tiled_of_decode decode_sample
  exact ⟨decode_sample, by decide, heach, hfilled.resolve_left (by decide)⟩

/-! ### Single instructions -/

structure Reader.On (bytes : ByteArray) (r : Reader) : Prop where
  same : r.bytes = bytes
  pos : r.pos ≤ r.limit
  limit : r.limit ≤ bytes.size

theorem Reader.On.exists_bytesLeft {bytes : ByteArray} {r : Reader} (h : r.On bytes) :
    ∃ bs, r.BytesLeft bs := by
  have hpos := h.pos
  have hlimit : r.limit ≤ r.bytes.data.toList.length := h.same ▸ h.limit
  refine ⟨(r.bytes.data.toList.drop r.pos).take (r.limit - r.pos), ?_, List.take_prefix _ _⟩
  rw [List.length_take, List.length_drop]
  omega

/-- An instruction is read at its offset in some bytes. -/
def Located.ReadAt (bytes : ByteArray) (l : Located) : Prop :=
  ∃ scope r r', r.On bytes ∧ r.pos = l.pos ∧ Decode.instruction scope r = .ok l r'

/-- The instructions of a body are read at their offsets. -/
def Body.ReadAt (bytes : ByteArray) (b : Body) : Prop := ∀ l ∈ b.instructions, l.ReadAt bytes

/-- Each instruction of a decoded module is read at its offset in the bytes of the module. -/
theorem Module.readAt_of_decode {bytes : ByteArray} {m : Module} (h : decode bytes = .ok m) :
    ∀ b ∈ m.bodies, b.ReadAt bytes := by
  intro b hb l hl
  rcases exists_filled h with hnone | ⟨_, _, _, _, -, -, -, hentries⟩
  · rw [hnone] at hb
    exact absurd hb (Array.not_mem_empty b)
  obtain ⟨first, last, -, htiled⟩ := hentries.tiled b (Array.mem_toList_iff.mpr hb)
  obtain ⟨first, -, -, htiles⟩ := htiled.filled
  obtain ⟨next, hlt, hnext, hspells⟩ := htiles.spelled l (Array.mem_toList_iff.mpr hl)
  have hsize := hnext.trans htiled.inside
  let r : Reader := ⟨bytes, l.pos, next, ""⟩
  have hr : r.BytesLeft (bytes.extract l.pos next).data.toList := by
    rw [ByteArray.data_extract, Array.toList_extract, List.extract_eq_take_drop]
    refine ⟨?_, List.take_prefix _ _⟩
    have hlength : bytes.data.toList.length = bytes.size := rfl
    change l.pos + _ = next
    rw [List.length_take, List.length_drop, hlength]
    omega
  have hrun := hspells r [] (by rwa [List.append_nil])
  exact ⟨m.scope, r, _, ⟨rfl, Nat.le_of_lt hlt, hsize⟩, rfl, hrun⟩

end WasmScript
