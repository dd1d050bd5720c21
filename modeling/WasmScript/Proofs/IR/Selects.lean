/-
  WasmScript/Proofs/IR/Selects.lean
  =================================
  **Selections with a type** — what an annotated `select` is held to.

  The byte `0x1c` starts a `select` that names the type of its operands.  Reading it keeps
  nothing of the annotation, which has to be one value type and no more, so validation sees
  the same instruction as for `0x1b`: the two operands below the condition have one type,
  whatever it is.

  `Validation.visited` lists what validation meets of a body, each instruction with the
  innermost open block at its place.  In a module that is transpiled each of them obeys its
  rule, and `Module.readAt_of_decode` leads from an instruction back to its bytes.
-/
import WasmScript.Proofs.Accepted
import WasmScript.Proofs.IR.Acceptance
import WasmScript.Proofs.Module.BlockTypes
import WasmScript.Proofs.Module.Positions

namespace WasmScript

/-! ### Reading an annotation -/

/-- A `select` that names one type is written at an offset. -/
def AnnotatedAt (bytes : ByteArray) (pos : Nat) (t : ValueType) : Prop :=
  ∃ count, Leb128.Unsigned 32 1 count ∧ 0x1c :: (count ++ [t.byte]) <+: bytes.data.toList.drop pos

namespace Parser

/-- A vector with one item is its number and the item. -/
theorem vector_single {α : Type} {p : Parser α} {r r' : Reader} {bs : List UInt8} {items : Array α}
    (h : r.BytesLeft bs) (hok : vector p r = .ok items r') (hsize : items.size = 1) :
    ∃ count rest a, bs = count ++ rest ∧ Leb128.Unsigned 32 1 count ∧ p (r.skip count.length) =
      .ok a r' := by
  obtain ⟨n, r₁, hcount, hitems⟩ := bind_at_eq_ok hok
  obtain rfl : n = 1 := by
    have hall : items.size = #[].size + n := ensures_size_repeated n #[] _ _ _ hitems
    simpa [hsize] using hall.symm
  obtain ⟨n, r₂, hu32, hleft⟩ := bind_at_eq_ok hcount
  obtain ⟨code, ⟨rest, rfl⟩, hcode, rfl⟩ := (recognizes_u32.accepts_iff h n r₂).mp hu32
  obtain ⟨left, r₃, hremaining, hgive⟩ := bind_at_eq_ok hleft
  cases hremaining
  split at hgive
  · cases hgive
  · cases hgive
    obtain ⟨a, r₄, hitem, hend⟩ := bind_at_eq_ok hitems
    cases hend
    exact ⟨code, rest, a, rfl, hcode, hitem⟩

end Parser

namespace Decode

open WasmScript.Parser

/-- A reader of a value type is at its byte. -/
theorem exists_of_valueType {r r' : Reader} {bs : List UInt8} {t : ValueType} (h : r.BytesLeft bs)
    (hok : valueType r = .ok t r') : ∃ rest, bs = t.byte :: rest := by
  cases bs with
  | nil =>
    obtain ⟨_, _, hpos, hbyte⟩ := bind_at_eq_ok hok
    cases hpos
    rw [bind_at_error (byte_of_nil h)] at hbyte
    cases hbyte
  | cons b rest =>
    obtain ⟨rfl, -⟩ := (valueType_ok_iff h).mp hok
    exact ⟨rest, rfl⟩

/-- An instruction that starts with `0x1c` is a `select` that names one type. -/
theorem select_of_readAt {bytes : ByteArray} {l : Located} (h : l.ReadAt bytes)
    (hfirst : bytes.data.toList[l.pos]? = some 0x1c) :
    l.instruction = .select ∧ ∃ t, AnnotatedAt bytes l.pos t := by
  obtain ⟨scope, r, r', hr, hpos, hok⟩ := h
  obtain ⟨bs, hbs⟩ := hr.exists_bytesLeft
  obtain ⟨pos, _, hposition, hok⟩ := bind_at_eq_ok hok
  cases hposition
  obtain ⟨first, _, hbyte, hok⟩ := bind_at_eq_ok hok
  -- The opcode is the byte at the position, so it is that of an annotated select.
  cases bs with
  | nil =>
    rw [byte_of_nil hbs] at hbyte
    cases hbyte
  | cons b after =>
    rw [byte_of_bytesLeft hbs] at hbyte
    cases hbyte
    have hbegin : b :: after <+: bytes.data.toList.drop l.pos := hr.same ▸ hpos ▸ hbs.2
    obtain rfl : b = 0x1c := by
      obtain ⟨rest, hrest⟩ := hbegin
      have hhead := congrArg List.head? hrest
      rw [List.head?_drop, hfirst] at hhead
      exact Option.some.inj hhead
    obtain ⟨i, _, hoperation, hgive⟩ := bind_at_eq_ok hok
    cases hgive
    obtain ⟨types, _, htypes, hone⟩ := bind_at_eq_ok hoperation
    split at hone
    · next hsize =>
      cases hone
      obtain ⟨count, rest, t, rfl, hcount, ht⟩ := vector_single hbs.tail htypes hsize
      obtain ⟨rest, rfl⟩ := exists_of_valueType hbs.tail.skip ht
      refine ⟨rfl, t, count, hcount, List.IsPrefix.trans ?_ hbegin⟩
      exact ⟨rest, by simp⟩
    · cases hone

end Decode

/-! ### What validation meets -/

namespace Validation

variable {m : Module} {locals : Array ValueType} {results : List ValueType} {v w : Level}
variable {vs ws : List Level}

/-- The instructions of a body that validation does not skip, each with the innermost open block
that it is in, `skipped` blocks that cannot be reached being open.  The first fault ends the
list. -/
def visits (m : Module) (locals : Array ValueType) (results : List ValueType) :
    List Located → (skipped : Nat) → List Level → List (Located × Level)
  | next :: rest, skipped, v :: vs =>
    if ¬ v.live ∧ next.instruction.opensBlock then
      visits m locals results rest (skipped + 1) (v :: vs)
    else if ¬ v.live ∧ next.instruction = .endMark ∧ 0 < skipped then
      visits m locals results rest (skipped - 1) (v :: vs)
    else if ¬ v.live ∧ (0 < skipped ∨ ¬ next.instruction.closesBlock) then
      visits m locals results rest skipped (v :: vs)
    else
      (next, v) ::
        match rule m locals results next.instruction v vs with
        | none => []
        | some vs => visits m locals results rest skipped vs
  | _, _, _ => []

/-- The instructions of a body that validation does not skip, each with the innermost open block
that it is in. -/
def visited (m : Module) (type : FunctionType) (body : Body) : List (Located × Level) :=
  visits m (type.params.toArray ++ body.locals) type.results body.instructions.toList 0
    [⟨.function, type.params, type.results, [], true, false, false⟩]

theorem visits_cons {next : Located} {rest : List Located} {skipped : Nat} :
    visits m locals results (next :: rest) skipped (v :: vs)
      = (IR.Build.passes (!v.live) next.instruction skipped).elim
          ((next, v) :: (rule m locals results next.instruction v vs).elim []
            (visits m locals results rest skipped))
          fun s => visits m locals results rest s (v :: vs) := by
  rw [visits, IR.Build.elim_passes (!v.live) (by simp) next.instruction skipped _
    fun s => visits m locals results rest s (v :: vs)]
  cases rule m locals results next.instruction v vs <;> rfl

/-- Where there is no fault, each instruction that is not skipped obeys its rule. -/
theorem rule_of_visits (ls : List Located) : ∀ (skipped : Nat) (vs : List Level),
    firstFault m locals results ls skipped vs = none → ∀ x ∈ visits m locals results ls skipped vs,
      x.1 ∈ ls ∧ ∃ us ws, rule m locals results x.1.instruction x.2 us = some ws := by
  -- The induction is on the code, of which what is passed over is not visited.
  induction ls with
  | nil =>
    intro skipped vs _ x hx
    cases vs <;> cases hx
  | cons next rest ih =>
    intro skipped vs hfault x hx
    cases vs with
    | nil => cases hx
    | cons v vs =>
      have hlater {skipped : Nat} {vs : List Level}
          (hnone : firstFault m locals results rest skipped vs = none)
          (hmem : x ∈ visits m locals results rest skipped vs) :
          x.1 ∈ next :: rest ∧ ∃ us ws, rule m locals results x.1.instruction x.2 us = some ws :=
        (ih skipped vs hnone x hmem).imp_left (List.mem_cons_of_mem next)
      rw [firstFault_cons] at hfault
      rw [visits_cons] at hx
      cases hpasses : IR.Build.passes (!v.live) next.instruction skipped with
      | some s =>
        rw [hpasses] at hfault hx
        exact hlater hfault hx
      | none =>
        rw [hpasses, Option.elim_none] at hfault hx
        cases hrule : rule m locals results next.instruction v vs with
        | none =>
          rw [hrule] at hfault
          cases hfault
        | some ws =>
          rw [hrule] at hfault hx
          rcases List.mem_cons.mp hx with rfl | hx
          · exact ⟨List.mem_cons_self, vs, ws, hrule⟩
          · exact hlater hfault hx

theorem Level.exists_of_take {types : List ValueType} (h : v.take types = some w) :
    ∃ rest, v.operands = rest ++ types ∧ w = { v with operands := rest } := by
  by_cases htop : types <:+ v.operands
  · obtain ⟨rest, hrest⟩ := htop
    rw [take_eq hrest.symm] at h
    exact ⟨rest, hrest.symm, (Option.some.inj h).symm⟩
  · rw [take_eq_none htop] at h
    cases h

/-- Below its condition a `select` has two operands of one type. -/
theorem operands_of_select (h : rule m locals results .select v vs = some ws) :
    ∃ rest type, v.operands = rest ++ [type, type, .i32] := by
  obtain ⟨w, hcondition, h⟩ := Option.bind_eq_some_iff.mp h
  obtain ⟨type, -, h⟩ := Option.bind_eq_some_iff.mp h
  obtain ⟨w', htake, -⟩ := Option.bind_eq_some_iff.mp h
  obtain ⟨under, hunder, rfl⟩ := Level.exists_of_take hcondition
  obtain ⟨rest, hrest, -⟩ := Level.exists_of_take htake
  refine ⟨rest, type, ?_⟩
  rw [hunder, show under = rest ++ [type, type] from hrest, List.append_assoc]
  rfl

end Validation

/-- A function that is built has no fault. -/
theorem IR.fault_of_build {m : Module} (h : m.WellFormed) {i : Nat} {type : FunctionType}
    {body : Body} {f : Function} (htype : m.functionType? (m.imports.size + i) = some type)
    (hbody : m.bodies[i]? = some body) (hbuild : buildFunction m (m.imports.size + i) = .ok f) :
    Validation.fault m type body = none := by
  have hi : i < m.functions.size := h.bodyCount ▸ (Array.getElem?_eq_some_iff.mp hbody).1
  obtain ⟨_, _, htype', hbody', hwell⟩ := h.exists_function hi
  obtain rfl := Option.some.inj (htype.symm.trans htype')
  obtain rfl := Option.some.inj (hbody.symm.trans hbody')
  have hcases :=
    buildBody_cases m (m.imports.size + i) (m.exportNames (m.imports.size + i)).head? type
      (fun l hl => (hwell.instructions l hl).known) hwell.closes
  rw [buildFunction_eq htype hbody] at hbuild
  cases hfault : Validation.fault m type body with
  | none => rfl
  | some pos =>
    rw [hfault] at hcases
    exact absurd hbuild hcases.not_ok

/-! ### Transpiled modules -/

/-- In a module that is transpiled, each `select` that validation meets and that is written with an
annotation names one type, and it has two operands of one type below its condition.  The type that
it names need not be the one that they have. -/
theorem annotated_selects_agree {bytes : ByteArray} {options : TranspileOptions} {out : Output}
    (h : transpile bytes options = .ok out) {i : Nat} {type : FunctionType} {body : Body}
    (htype : out.module.functionType? (out.module.imports.size + i) = some type)
    (hbody : out.module.bodies[i]? = some body) :
    ∀ x ∈ Validation.visited out.module type body, bytes.data.toList[x.1.pos]? = some 0x1c →
      x.1.instruction = .select ∧ (∃ t, AnnotatedAt bytes x.1.pos t) ∧
        ∃ rest operand, x.2.operands = rest ++ [operand, operand, .i32] := by
  intro x hx hfirst
  have haccepted := accepted_of_transpile h
  have himport : out.module.imports[out.module.imports.size + i]? = none :=
    Array.getElem?_eq_none_iff.mpr (Nat.le_add_right _ _)
  obtain ⟨f, -, hbuild⟩ := haccepted.exists_function himport htype
  have hfault := IR.fault_of_build haccepted.wellFormed htype hbody hbuild
  obtain ⟨hmem, us, ws, hrule⟩ := Validation.rule_of_visits _ 0 _ hfault x hx
  have hread : x.1.ReadAt bytes :=
    Module.readAt_of_decode (built_of_check (check_of_transpile h)).1 body
        (Array.mem_of_getElem? hbody)
      x.1 (Array.mem_toList_iff.mp hmem)
  obtain ⟨hselect, hannotated⟩ := Decode.select_of_readAt hread hfirst
  rw [hselect] at hrule
  exact ⟨hselect, hannotated, Validation.operands_of_select hrule⟩

/-- A module with a function that chooses between two 32-bit integers by a `select` that names a
type. -/
def annotatedSelectBytes (t : ValueType) : ByteArray :=
  ⟨#[0x00, 0x61, 0x73, 0x6d, 0x01, 0x00, 0x00, 0x00,
     0x01, 0x04, 0x01, 0x60, 0x00, 0x00,
     0x03, 0x02, 0x01, 0x00,
     0x0a, 0x0e, 0x01, 0x0c, 0x00, 0x41, 0x01, 0x41, 0x02, 0x41, 0x00, 0x1c, 0x01, t.byte,
       0x1a, 0x0b]⟩

def annotatedSelectBody : Body :=
  ⟨#[], #[⟨23, .const (.i32 1)⟩, ⟨25, .const (.i32 2)⟩, ⟨27, .const (.i32 0)⟩, ⟨29, .select⟩,
    ⟨32, .drop⟩, ⟨33, .endMark⟩], 22⟩

/-- The function with its operands where it chooses. -/
def annotatedSelectLevel : Validation.Level :=
  ⟨.function, [], [], [.i32, .i32, .i32], true, false, false⟩

theorem annotatedAt_select (t : ValueType) : AnnotatedAt (annotatedSelectBytes t) 29 t :=
  ⟨[0x01], @Leb128.Unsigned.last 32 0x01 (by decide) (by decide), [0x1a, 0x0b], by cases t <;> rfl⟩

/-- The module is transpiled whichever type the `select` names. -/
theorem exists_transpile_annotatedSelect (t : ValueType) :
    ∃ out, transpile (annotatedSelectBytes t) {} = .ok out ∧
      out.module.functionType? (out.module.imports.size + 0) = some ⟨[], []⟩ ∧
      out.module.bodies[0]? = some annotatedSelectBody ∧
      (⟨29, .select⟩, annotatedSelectLevel) ∈ Validation.visited out.module
        ⟨[], []⟩ annotatedSelectBody := by
  have hfacts : ((check (annotatedSelectBytes t) {}).toOption.map fun c =>
      (c.module.functionType? (c.module.imports.size + 0), c.module.bodies[0]?,
        decide ((⟨29, .select⟩, annotatedSelectLevel) ∈ Validation.visited c.module
            ⟨[], []⟩ annotatedSelectBody)))
          = some (some ⟨[], []⟩, some annotatedSelectBody, true) := by
    cases t <;> decide +kernel
  cases hcheck : check (annotatedSelectBytes t) {} with
  | error e =>
    rw [hcheck] at hfacts
    cases hfacts
  | ok c =>
    rw [hcheck] at hfacts
    obtain ⟨htype, hrest⟩ := Prod.mk.inj (Option.some.inj hfacts)
    obtain ⟨hbody, hvisited⟩ := Prod.mk.inj hrest
    obtain ⟨out, hout, rfl⟩ := exists_transpile hcheck
    exact ⟨out, hout, htype, hbody, of_decide_eq_true hvisited⟩

/-- Where it names the type of its operands, it has them. -/
theorem annotated_selects_agree_same :
    ∃ out, transpile (annotatedSelectBytes .i32) {} = .ok out ∧
      out.module.functionType? (out.module.imports.size + 0) = some ⟨[], []⟩ ∧
      out.module.bodies[0]? = some annotatedSelectBody ∧
      (⟨29, .select⟩, annotatedSelectLevel) ∈ Validation.visited out.module
        ⟨[], []⟩ annotatedSelectBody ∧
      (annotatedSelectBytes .i32).data.toList[29]? = some 0x1c ∧
      (∃ t, AnnotatedAt (annotatedSelectBytes .i32) 29 t) ∧
      ∃ rest operand, annotatedSelectLevel.operands = rest ++ [operand, operand, .i32] := by
  obtain ⟨out, hout, htype, hbody, hvisited⟩ := exists_transpile_annotatedSelect .i32
  obtain ⟨-, hannotated, hoperands⟩ := annotated_selects_agree hout htype hbody _ hvisited rfl
  exact ⟨out, hout, htype, hbody, hvisited, rfl, hannotated, hoperands⟩

/-- Where it names the type of 64-bit integers, it is transpiled too, in code that control reaches
and with operands of 32 bits. -/
theorem other_annotation_taken :
    ∃ out, transpile (annotatedSelectBytes .i64) {} = .ok out ∧
      ∃ type body, out.module.functionType? (out.module.imports.size + 0) = some type ∧
        out.module.bodies[0]? = some body ∧
        ∃ x ∈ Validation.visited out.module type body, x.1.instruction = .select ∧ x.2.live ∧
          AnnotatedAt (annotatedSelectBytes .i64) x.1.pos .i64 ∧ x.2.operands =
            [.i32, .i32, .i32] := by
  obtain ⟨out, hout, htype, hbody, hvisited⟩ := exists_transpile_annotatedSelect .i64
  exact ⟨out, hout, _, _, htype, hbody, _, hvisited, rfl, rfl, annotatedAt_select .i64, rfl⟩

end WasmScript
