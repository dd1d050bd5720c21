/-
  WasmScript/Proofs/Run/Boundary.lean
  ===================================
  **The boundary of a script** — which values cross it, in both directions.

  `Coerces` says which host values stand for which values of a module, by what a number is as
  a rational.  A call of an export coerces as many arguments as there are parameters before
  anything else happens, and a missing one is undefined; so a call that is refused has changed
  nothing and has not reached the host.

  An import is called with values that fit its parameters, whatever a module does.
  `Machine.strictly` runs a module with a call of a host function that insists on it and is
  stuck otherwise; it does the same as the machine (`agree_strictly`).
-/
import WasmScript.Proofs.Number.Truncation
import WasmScript.Proofs.Run.Safety

namespace WasmScript

variable {σ : Type}

/-! ### Coercion -/

/-- The value of a type that a host value stands for. -/
inductive Coerces : ValueType → HostValue → Value → Prop
  | number (x : Number) : Coerces .i32 (.number x) (.i32 (x.wholePart.bmod (2 ^ 32)))
  | bigint32 (n : Int) : Coerces .i32 (.bigint n) (.i32 (n.bmod (2 ^ 32)))
  | bigint64 (n : Int) : Coerces .i64 (.bigint n) (.i64 (n.bmod (2 ^ 64)))
  | safeInteger {x : Number} {n : Int} (value : x.value? = some (n : ℚ))
      (safe : n.natAbs < 2 ^ 53) :
      Coerces .i64 (.number x) (.i64 n)

/-- Whether a host value stands for a value of a type at all. -/
def Coercible (type : ValueType) (v : HostValue) : Prop := ∃ r, Coerces type v r

/-- A number in its signed form does not change when it wraps. -/
theorem Bits.signed_of_canonical32 {n : Int} (h : (Value.i32 n).Canonical) :
    Bits.signed 32 n = n := by
  obtain ⟨hlow, hhigh⟩ := h
  have hlow : -(((2 : Nat) ^ 32 : Nat) : Int) / 2 ≤ n := by omega
  have hhigh : n < ((((2 : Nat) ^ 32 : Nat) : Int) + 1) / 2 := by omega
  exact Int.bmod_eq_of_le hlow hhigh

theorem Bits.signed_of_canonical64 {n : Int} (h : (Value.i64 n).Canonical) :
    Bits.signed 64 n = n := by
  obtain ⟨hlow, hhigh⟩ := h
  have hlow : -(((2 : Nat) ^ 64 : Nat) : Int) / 2 ≤ n := by omega
  have hhigh : n < ((((2 : Nat) ^ 64 : Nat) : Int) + 1) / 2 := by omega
  exact Int.bmod_eq_of_le hlow hhigh

/-- A safe integer is far from wrapping. -/
theorem signed_of_safe {n : Int} (h : n.natAbs < 2 ^ 53) : Bits.signed 64 n = n :=
  Bits.signed_of_canonical64 ⟨by omega, by omega⟩

namespace Boundary

theorem coerced_eq_ok_iff {type : ValueType} {v : HostValue} {r : Value} :
    coerced type v = .ok r ↔ Coerces type v r := by
  constructor
  · intro h
    cases type with
    | i32 =>
      cases v with
      | number x =>
        cases h
        rw [Number.toInt32, Number.truncated_eq_wholePart]
        exact .number x
      | bigint n =>
        cases h
        exact .bigint32 n
      | _ => cases h
    | i64 =>
      cases v with
      | number x =>
        simp only [coerced, HostValue.coerce, HostValue.toI64] at h
        -- A number stands for a long integer only if it is whole and in the safe range.
        cases hn : x.toSafeInteger? with
        | none =>
          rw [hn] at h
          cases h
        | some n =>
          rw [hn] at h
          cases h
          obtain ⟨hvalue, hsafe⟩ := Number.toSafeInteger?_eq_some_iff.mp hn
          rw [signed_of_safe hsafe]
          exact .safeInteger hvalue hsafe
      | bigint n =>
        cases h
        exact .bigint64 n
      | _ => cases h
  · intro h
    cases h with
    | number x =>
      rw [← Number.truncated_eq_wholePart]
      rfl
    | bigint32 n => rfl
    | bigint64 n => rfl
    | @safeInteger x n hvalue hsafe =>
      have hn : x.toSafeInteger? = some n := Number.toSafeInteger?_eq_some_iff.mpr ⟨hvalue, hsafe⟩
      simp only [coerced, HostValue.coerce, HostValue.toI64, hn, signed_of_safe hsafe]
      rfl

/-- What is not coercible is refused, with its description. -/
theorem coerced_refuses {type : ValueType} {v : HostValue} (h : ¬ Coercible type v) :
    coerced type v = .error (.type (.notCoercible type v.description)) := by
  cases hv : coerced type v with
  | ok r => exact absurd ⟨r, coerced_eq_ok_iff.mp hv⟩ h
  | error e =>
    cases type with
    | i32 => cases v <;> cases hv <;> rfl
    | i64 =>
      cases v with
      | number x =>
        simp only [coerced, HostValue.coerce, HostValue.toI64] at hv
        cases hn : x.toSafeInteger? with
        | none =>
          rw [hn] at hv
          cases hv
          rfl
        | some n =>
          rw [hn] at hv
          cases hv
      | _ => cases hv <;> rfl

end Boundary

/-- The argument at a place; a missing one is undefined. -/
def argument (vs : List HostValue) (i : Nat) : HostValue := vs[i]?.getD .undefined

theorem argument_zero (vs : List HostValue) : argument vs 0 = vs.headD .undefined := by
  cases vs <;> rfl

theorem argument_succ (vs : List HostValue) (i : Nat) :
    argument vs (i + 1) = argument vs.tail i := by
  cases vs with
  | nil => rfl
  | cons v vs => rfl

/-- Whether there is an argument for each of some types.  What there is beyond does not matter. -/
def AllCoercible (types : List ValueType) (vs : List HostValue) : Prop :=
  ∀ (i : Nat) (type : ValueType), types[i]? = some type → Coercible type (argument vs i)

/-- The values that arguments stand for, one for each of some types. -/
def CoerceAll (types : List ValueType) (vs : List HostValue) (rs : List Value) : Prop :=
  rs.length = types.length ∧
    ∀ (i : Nat) (type : ValueType), types[i]? = some type → ∃ r, rs[i]? = some r ∧
      Coerces type (argument vs i) r

section Lists

variable {type : ValueType} {types : List ValueType} {vs : List HostValue}

theorem allCoercible_cons :
    AllCoercible (type :: types) vs ↔ Coercible type (vs.headD .undefined) ∧
      AllCoercible types vs.tail := by
  constructor
  · intro h
    refine ⟨argument_zero vs ▸ h 0 type rfl, fun i t ht => ?_⟩
    rw [← argument_succ]
    exact h (i + 1) t ht
  · rintro ⟨hfirst, hrest⟩ i t ht
    cases i with
    | zero =>
      cases ht
      rwa [argument_zero]
    | succ i =>
      rw [argument_succ]
      exact hrest i t ht

theorem coerceAll_nil {rs : List Value} : CoerceAll [] vs rs ↔ rs = [] := by
  constructor
  · exact fun h => List.eq_nil_of_length_eq_zero h.1
  · rintro rfl
    exact ⟨rfl, by simp⟩

theorem coerceAll_cons {r : Value} {rs : List Value} :
    CoerceAll (type :: types) vs (r :: rs) ↔ Coerces type (vs.headD .undefined) r ∧
      CoerceAll types vs.tail rs := by
  constructor
  · rintro ⟨hlength, h⟩
    obtain ⟨r', hr, hfirst⟩ := h 0 type rfl
    cases hr
    refine ⟨argument_zero vs ▸ hfirst, Nat.succ.inj hlength, fun i t ht => ?_⟩
    obtain ⟨r', hr', hcoerces⟩ := h (i + 1) t ht
    exact ⟨r', hr', argument_succ vs i ▸ hcoerces⟩
  · rintro ⟨hfirst, hlength, hrest⟩
    refine ⟨congrArg Nat.succ hlength, fun i t ht => ?_⟩
    cases i with
    | zero =>
      cases ht
      exact ⟨r, rfl, argument_zero vs ▸ hfirst⟩
    | succ i =>
      rw [argument_succ]
      exact hrest i t ht

/-- Coercible arguments stand for values. -/
theorem AllCoercible.exists_coerceAll (h : AllCoercible types vs) :
    ∃ rs, CoerceAll types vs rs := by
  induction types generalizing vs with
  | nil => exact ⟨[], coerceAll_nil.mpr rfl⟩
  | cons type types ih =>
    obtain ⟨⟨r, hr⟩, hrest⟩ := allCoercible_cons.mp h
    obtain ⟨rs, hrs⟩ := ih hrest
    exact ⟨r :: rs, coerceAll_cons.mpr ⟨hr, hrs⟩⟩

end Lists

namespace Boundary

variable {types : List ValueType} {vs : List HostValue} {rs : List Value}

theorem acceptAll_of_coerceAll (h : CoerceAll types vs rs) :
    script.acceptAll types vs = .ok rs := by
  induction types generalizing vs rs with
  | nil =>
    rw [coerceAll_nil.mp h]
    rfl
  | cons type types ih =>
    cases rs with
    | nil => cases h.1
    | cons r rs =>
      obtain ⟨hfirst, hrest⟩ := coerceAll_cons.mp h
      have haccept : script.accept type (vs.headD .undefined) = .ok r :=
        coerced_eq_ok_iff.mpr hfirst
      rw [acceptAll, haccept, ih hrest]
      rfl

/-- A refusal mentions the first argument that is not coercible. -/
theorem acceptAll_refuses (h : ¬ AllCoercible types vs) :
    ∃ i type, types[i]? = some type ∧ ¬ Coercible type (argument vs i)
      ∧ (∀ j < i, ∀ type, types[j]? = some type → Coercible type (argument vs j))
      ∧ script.acceptAll types vs =
        .error (.type (.notCoercible type (argument vs i).description)) := by
  induction types generalizing vs with
  | nil => exact absurd (fun i type htype => by cases htype) h
  | cons type types ih =>
    -- The first argument that is refused is this one, or it is among the rest.
    by_cases hfirst : Coercible type (vs.headD .undefined)
    · obtain ⟨r, hr⟩ := hfirst
      have haccept : script.accept type (vs.headD .undefined) = .ok r := coerced_eq_ok_iff.mpr hr
      obtain ⟨i, t, ht, hnot, hbefore, hrefuses⟩ :=
        ih fun hrest => h (allCoercible_cons.mpr ⟨⟨r, hr⟩, hrest⟩)
      refine ⟨i + 1, t, ht, ?_, ?_, ?_⟩
      · rwa [argument_succ]
      · intro j hj t' ht'
        cases j with
        | zero =>
          cases ht'
          rw [argument_zero]
          exact ⟨r, hr⟩
        | succ j =>
          rw [argument_succ]
          exact hbefore j (Nat.lt_of_succ_lt_succ hj) t' ht'
      · rw [acceptAll, haccept, hrefuses, argument_succ]
        rfl
    · have haccept : script.accept type (vs.headD .undefined)
          = .error (.type (.notCoercible type (vs.headD .undefined).description)) :=
            coerced_refuses hfirst
      refine ⟨0, type, rfl, ?_, by simp, ?_⟩
      · rwa [argument_zero]
      · rw [acceptAll, haccept, argument_zero]
        rfl

end Boundary

/-! ### Results of a host function -/

/-- The results that a returned value stands for.  Several are the items of an array that has as
many. -/
def Returns (types : List ValueType) (v : HostValue) (rs : List Value) : Prop :=
  match types with
  | [] => rs = []
  | [type] => ∃ r, rs = [r] ∧ Coerces type v r
  | types => ∃ items, v = .array items ∧ items.length = types.length ∧ CoerceAll types items rs

namespace Boundary

variable {types : List ValueType} {v : HostValue} {rs : List Value}

theorem arrayItems_of_length {module field : String} {count : Nat} {items : List HostValue}
    (h : items.length = count) : arrayItems module field count (.array items) =
      .ok items := if_pos h

theorem arrayItems_refuses (module field : String) {count : Nat}
    (h : ∀ items, v = .array items → items.length ≠ count) :
    arrayItems module field count v = .error (.type (.resultCount module field count)) := by
  cases v with
  | array items => exact if_neg (h items rfl)
  | _ => rfl

theorem results_of_returns (module field : String) (h : Returns types v rs) :
    script.results module field types v = .ok rs := by
  match types, h with
  | [], h => exact congrArg Except.ok (Eq.symm h)
  | [type], ⟨r, hrs, hr⟩ =>
    have haccept : script.accept type v = .ok r := coerced_eq_ok_iff.mpr hr
    rw [results, haccept, hrs]
    rfl
  | type :: type' :: types, ⟨items, hv, hlength, hrs⟩ =>
    have hitems : script.items module field (type :: type' :: types).length v = .ok items := by
      rw [hv]
      exact arrayItems_of_length hlength
    simp only [results, hitems, bind, Except.bind]
    exact acceptAll_of_coerceAll hrs

theorem results_refuses (module field : String) (h : ¬ ∃ rs, Returns types v rs) :
    ∃ cause, script.results module field types v = .error (.type cause) := by
  -- No results are always given, a single one stands for itself, and several come as an array.
  match types, h with
  | [], h => exact absurd ⟨[], rfl⟩ h
  | [type], h =>
    have haccept : script.accept type v = .error (.type (.notCoercible type v.description)) :=
      coerced_refuses fun ⟨r, hr⟩ => h ⟨[r], r, rfl, hr⟩
    rw [results, haccept]
    exact ⟨_, rfl⟩
  | type :: type' :: types, h =>
    by_cases harray : ∃ items, v = .array items ∧ items.length = (type :: type' :: types).length
    · obtain ⟨items, hv, hlength⟩ := harray
      have hitems : script.items module field (type :: type' :: types).length v = .ok items := by
        rw [hv]
        exact arrayItems_of_length hlength
      -- An array of the right length fails at an item, since it would be a result otherwise.
      have hnot : ¬ AllCoercible (type :: type' :: types) items := by
        intro hall
        obtain ⟨rs, hrs⟩ := hall.exists_coerceAll
        exact h ⟨rs, items, hv, hlength, hrs⟩
      obtain ⟨i, t, -, -, -, hrefuses⟩ := acceptAll_refuses hnot
      simp only [results, hitems, bind, Except.bind]
      exact ⟨_, hrefuses⟩
    · have hitems : script.items module field (type :: type' :: types).length v
          = .error (.type (.resultCount module field (type :: type' :: types).length)) :=
        arrayItems_refuses module field fun items hv hlength => harray ⟨items, hv, hlength⟩
      simp only [results, hitems, bind, Except.bind]
      exact ⟨_, rfl⟩

end Boundary

/-! ### Calls of exports -/

namespace Machine

open WasmScript.Action

variable {m : Machine σ} {depth place index : Nat} {name : String} {type : FunctionType}
    {s : Store σ}

/-- Arguments are accepted before the function is called. -/
theorem callExport_eq (hs : s.Sound m.module) (hplace : place < s.instances.size)
    (hexport : (m.module.exports.find? fun e => e.name == name) = some ⟨name, .function, index⟩)
    (htype : m.module.functionType? index = some type) (vs : List HostValue) :
    m.callExport depth place name vs s
      = (ofExcept id (m.boundary.acceptAll type.params vs) >>= fun args =>
          (fun cells => HostValue.ofResults (cells.map Cell.toHost)) <$>
            m.invoke depth place index (args.map .plain)) s := by
  unfold callExport callExported
  rw [bind_at_ok (requireInstance_eq hs hplace), hexport]
  dsimp only
  rw [htype]
  simp only [map_eq_pure_bind]
  rfl

theorem callExport_of_coerceAll (hboundary : m.boundary = .script) (hs : s.Sound m.module)
    (hplace : place < s.instances.size)
    (hexport : (m.module.exports.find? fun e => e.name == name) = some ⟨name, .function, index⟩)
    (htype : m.module.functionType? index = some type) {vs : List HostValue} {args : List Value}
    (h : CoerceAll type.params vs args) :
    m.callExport depth place name vs s
      = ((fun cells => HostValue.ofResults (cells.map Cell.toHost)) <$>
          m.invoke depth place index (args.map .plain)) s := by
  rw [callExport_eq hs hplace hexport htype, hboundary, Boundary.acceptAll_of_coerceAll h]
  rfl

theorem callExport_refuses (hboundary : m.boundary = .script) (hs : s.Sound m.module)
    (hplace : place < s.instances.size)
    (hexport : (m.module.exports.find? fun e => e.name == name) = some ⟨name, .function, index⟩)
    (htype : m.module.functionType? index = some type) {vs : List HostValue} {e : Failure}
    (h : Boundary.script.acceptAll type.params vs = .error e) :
    m.callExport depth place name vs s = .error e s := by
  rw [callExport_eq hs hplace hexport htype, hboundary, h]
  rfl

end Machine

/-! ### Calls of imports -/

namespace Boundary

/-- A cell is passed on as the value that it is used as. -/
theorem coerced_toHost {type : ValueType} {c : Cell} (h : c.Fits type) :
    coerced type c.toHost = .ok c.toValue := by
  obtain ⟨htype, hcanonical⟩ := h
  cases c with
  | negativeZero =>
    cases htype
    rfl
  | plain v =>
    cases v with
    | i32 n =>
      cases htype
      have hn : (Number.ofInt n).toInt32 = n := by
        rw [(Number.Represents.ofInt n).toInt32, Bits.signed_of_canonical32 hcanonical]
      exact congrArg (fun k => Except.ok (Value.i32 k)) hn
    | i64 n =>
      cases htype
      exact congrArg (fun k => Except.ok (Value.i64 k)) (Bits.signed_of_canonical64 hcanonical)

/-- A host as it is called by an import: with one value for each parameter, in its signed form. -/
theorem pass_of_fit {cells : List Cell} {types : List ValueType} (h : FitAll cells types) :
    script.pass types (cells.map Cell.toHost) = .ok (cells.map fun c => .ofValue c.toValue) := by
  change coercedAll types (cells.map Cell.toHost) = _
  induction h with
  | nil => rfl
  | cons hfirst _ ih =>
    rw [List.map_cons, coercedAll, List.headD_cons, coerced_toHost hfirst, List.tail_cons, ih]
    rfl

end Boundary

namespace Machine

open WasmScript.Action

/-- Calls a host function, once, and coerces what it returns. -/
def callHost (m : Machine σ) (exports : Exports σ) (target : Nat) (entry : FunctionImport)
    (type : FunctionType) (args : List Cell) : Action σ (List Value) := do
  let returned ← runHost exports (m.host target (args.map fun c => .ofValue c.toValue))
  ofExcept id (Boundary.script.results entry.module entry.name type.results returned)

/-- Calls the host function that is bound to an import with the values that the import declares;
stuck if it is given anything else. -/
def callStrictly (m : Machine σ) (exports : Exports σ) (place function : Nat)
    (entry : FunctionImport) (args : List Cell) : Action σ (List Value) := do
  let i ← instanceAt place
  let target ← ofOption i.imports[function]?
  let type ← ofOption m.module.types[entry.typeIndex]?
  if FitAll args type.params then m.callHost exports target entry type args else throw .stuck

/-- Calls a function of an instance, where imports are called strictly. -/
def strictly (m : Machine σ) :
    (depth : Nat) → (place function : Nat) → List Cell → Action σ (List Cell)
  | 0, _, _, _ => throw .tooDeep
  | depth + 1, place, function, args =>
    match m.module.imports[function]? with
    | some entry => do
      let results ← m.callStrictly (m.callExported (m.strictly depth)) place function entry args
      pure (results.map .plain)
    | none => m.body place (m.strictly depth place) function args

variable {M : Machine σ} {count : Nat}
variable {body : Nat → (Nat → List Cell → Action σ (List Cell)) → Nat → List Cell →
    Action σ (List Cell)}

/-- A machine whose bodies do the same with calls that do the same. -/
theorem BodiesAgree.refl (h : M.BodiesAgree body) : M.BodiesAgree M.body where
  wellFormed := h.wellFormed
  boundary := h.boundary
  maxPages := h.maxPages
  body := by
    intro count place call call' hplace hcalls function type args himport htype hargs
    have hcalls' : CallsAgree M.host M.module count call' call' :=
      fun function type args htype hargs =>
        (hcalls function type args htype hargs).symm.trans (hcalls function type args htype hargs)
    exact (h.body hplace hcalls function type args himport htype hargs).trans
      (h.body hplace hcalls' function type args himport htype hargs).symm

theorem callBound_eq (m : Machine σ) (exports : Exports σ) (target : Nat) (entry : FunctionImport)
    {type : FunctionType} {args : List Cell} (h : FitAll args type.params) :
    callBound m.host .script exports target entry.module entry.name type (args.map Cell.toHost)
      = m.callHost exports target entry type args := by
  unfold callBound
  rw [Boundary.pass_of_fit h]
  rfl

section Imports

variable {place function : Nat} {entry : FunctionImport} {type : FunctionType} {s : Store σ}

/-- With the values that an import declares, both ways of calling it are a call of one host
function. -/
theorem callImport_eq (hboundary : M.boundary = .script) (hs : s.Fits M.module count)
    (hplace : place < count) (himport : M.module.imports[function]? = some entry)
    (hentry : M.module.types[entry.typeIndex]? = some type) :
    ∃ target, ∀ (exports : Exports σ) (args : List Cell), FitAll args type.params →
      M.callImport exports place function entry (args.map Cell.toHost) s =
        M.callHost exports target entry type args s
        ∧ M.callStrictly exports place function entry args s =
          M.callHost exports target entry type args s := by
  obtain ⟨i, -, hi, hfits⟩ := instanceAt_eq hs hplace
  have hlt : function < i.imports.size := hfits.imports ▸ (Array.getElem?_eq_some_iff.mp himport).1
  refine ⟨i.imports[function], fun exports args hargs => ⟨?_, ?_⟩⟩
  · unfold callImport
    rw [bind_at_ok hi, Array.getElem?_eq_getElem hlt, hentry,
      hboundary, ← callBound_eq M _ _ _ hargs]
    rfl
  · unfold callStrictly
    rw [bind_at_ok hi, Array.getElem?_eq_getElem hlt, hentry]
    exact congrFun (if_pos hargs) s

/-- The whole of a call of an import. -/
theorem invoke_import (hboundary : M.boundary = .script) (hs : s.Fits M.module count)
    (hplace : place < count) (himport : M.module.imports[function]? = some entry)
    (hentry : M.module.types[entry.typeIndex]? = some type) :
    ∃ target, ∀ (depth : Nat) (args : List Cell), FitAll args type.params →
      M.invoke (depth + 1) place function args s
        = (List.map .plain <$> M.callHost (M.callExport depth) target entry type args) s := by
  obtain ⟨target, hboth⟩ := callImport_eq hboundary hs hplace himport hentry
  refine ⟨target, fun depth args hargs => ?_⟩
  have hcall := (hboth (M.callExport depth) args hargs).1
  unfold invoke
  rw [himport, map_eq_pure_bind]
  exact bind_at_congr hcall fun _ _ _ => rfl

end Imports

/-- Whatever a module does, it calls its imports as they are declared. -/
theorem agree_strictly (h : M.BodiesAgree body) (depth : Nat) :
    ∀ place < count,
      CallsAgree M.host M.module count (M.invoke depth place) (M.strictly depth place) := by
  induction depth with
  | zero =>
    intro place _ function type args _ _
    exact Agree.throw fun s hs => ⟨.tooDeep, hs⟩
  | succ depth ih =>
    intro place hplace function type args htype hargs
    unfold invoke strictly
    cases himport : M.module.imports[function]? with
    | none => exact h.refl.body hplace (ih place hplace) function type args himport htype hargs
    | some entry =>
      have hentry : M.module.types[entry.typeIndex]? = some type := by
        rwa [Module.functionType?, himport] at htype
      -- The callbacks of a host run the same module again, one level further down.
      have hexports (place : Nat) (name : String) (args : List HostValue) :
          Agree (Store.Fits M.module count) (M.callExported (M.invoke depth) place name args)
            (M.callExported (M.strictly depth) place name args) (fun _ s => s.Fits M.module count)
            (ExportFails M.host M.module count) :=
        agree_callExported h.wellFormed h.boundary ih place name args
      have hcall : Agree (Store.Fits M.module count)
          (M.callImport (M.callExported (M.invoke depth)) place function entry
            (args.map Cell.toHost))
          (M.callStrictly (M.callExported (M.strictly depth)) place function entry args)
          (fun vs s => FitAll (vs.map .plain) type.results ∧ s.Fits M.module count)
          (CallFails M.host M.module count) := by
        intro s hs
        obtain ⟨target, hboth⟩ := callImport_eq h.boundary hs hplace himport hentry
        -- Either way the import gets what its arguments look like to a host, which are of its
        -- types.
        rw [(hboth _ args hargs).1,
          (hboth _ args hargs).2, ← callBound_eq M _ _ _ hargs, ← callBound_eq M _ _ _ hargs]
        exact agree_callBound hexports target _ _ type _ s hs
      exact hcall.bind fun vs => Agree.of_fact fun hvs => Agree.pure fun s hs => ⟨hvs, hs⟩

end Machine

/-! ### Modules -/

/-- An export coerces its arguments or fails before it does anything, and imports are called as they
are declared, with results that are coerced in turn. -/
theorem values_cross_boundary {bytes : ByteArray} {options : TranspileOptions} {out : Output}
    (h : transpile bytes options = .ok out) (host : Host σ) (turns depth : Nat) {s : Store σ}
    (hs : s.Sound out.module) {place : Nat} (hplace : place < s.instances.size) :
    let M := out.machine host turns
    (∀ name index type, (out.module.exports.find? fun e => e.name == name) =
        some ⟨name, .function, index⟩ →
        out.module.functionType? index = some type → ∀ vs,
      (AllCoercible type.params vs → ∃ args, CoerceAll type.params vs args ∧
        M.callExport depth place name vs s
          = ((fun cells => HostValue.ofResults (cells.map Cell.toHost)) <$>
              M.invoke depth place index (args.map .plain)) s) ∧
      (¬ AllCoercible type.params vs → ∃ i t, type.params[i]? = some t ∧
          ¬ Coercible t (argument vs i) ∧
        ∀ host' : Host σ, (out.machine host' turns).callExport depth place name vs s
          = .error (.type (.notCoercible t (argument vs i).description)) s)) ∧
    (∀ function type args, out.module.functionType? function = some type → FitAll args type.params →
      M.invoke depth place function args s = M.strictly depth place function args s) ∧
    (∀ (function : Nat) entry type, out.module.imports[function]? = some entry →
        out.module.types[entry.typeIndex]? = some type →
      ∃ target, ∀ depth args, FitAll args type.params →
        M.invoke (depth + 1) place function args s
          = (List.map .plain <$> M.callHost (M.callExport depth) target entry type args) s) ∧
    ∀ module field types v,
      (∀ rs, Returns types v rs →
        Boundary.script.results module field types v = .ok rs ∧ FitAll (rs.map .plain) types) ∧
      ((¬ ∃ rs, Returns types v rs) → ∃ cause, Boundary.script.results module field types v =
        .error (.type cause)) := by
  intro M
  have hagree : M.BodiesAgree (out.auditedMachine host turns).body :=
    (accepted_of_transpile h).bodiesAgree_audited host turns
  refine ⟨fun name index type hexport htype vs => ⟨fun hall => ?_, fun hnot => ?_⟩,
    fun function type args htype hargs => ?_, fun function entry type himport hentry => ?_,
    fun module field types v => ⟨fun rs hrs => ?_, Boundary.results_refuses module field⟩⟩
  -- Arguments that can be coerced all are, before the function is called.
  · obtain ⟨args, hargs⟩ := hall.exists_coerceAll
    exact ⟨args, hargs,
      Machine.callExport_of_coerceAll hagree.boundary hs hplace hexport htype hargs⟩
  -- The first argument that cannot be coerced ends the call, whoever the host is.
  · obtain ⟨i, t, ht, hrefused, -, haccept⟩ := Boundary.acceptAll_refuses hnot
    exact ⟨i, t, ht, hrefused, fun host' =>
      Machine.callExport_refuses (m := out.machine host' turns) rfl hs hplace hexport htype haccept⟩
  -- Coercing changes no argument of the declared types, so a strict call is the same call.
  · exact (Machine.agree_strictly hagree depth place hplace function type args htype hargs s hs).1
  · exact Machine.invoke_import hagree.boundary hs hplace himport hentry
  -- What is coerced from the host fits the declared results.
  · have hresults := Boundary.results_of_returns module field hrs
    have haccepted : Boundary.Accepted host types (Boundary.script.results module field types v) :=
      Boundary.accepted_results module field types v
    rw [hresults] at haccepted
    exact ⟨hresults, haccepted⟩

/-- A module that exports the function it imports, which makes a 64-bit integer of a 32-bit one. -/
def relayBytes : ByteArray :=
  ⟨#[0x00, 0x61, 0x73, 0x6d, 0x01, 0x00, 0x00, 0x00,
     0x01, 0x06, 0x01, 0x60, 0x01, 0x7f, 0x01, 0x7e,
     0x02, 0x07, 0x01, 0x01, 0x68, 0x01, 0x66, 0x00, 0x00,
     0x07, 0x05, 0x01, 0x01, 0x67, 0x00, 0x00]⟩

/-- A host that gives back what it is given, and counts how often it is called. -/
def echoHost :
    Host Nat := fun _ args => .world (· + 1) fun _ => .finish (.ok (args.headD .undefined))

/-- The integer that a call gave, and the calls of the host by then. -/
def integerAndCalls? : EStateM.Result Failure (Store Nat) HostValue → Option (Int × Nat)
  | .ok (.bigint n) s => some (n, s.world)
  | _ => none

/-- Two and a half reaches the host as two and comes back as a 64-bit two; a string reaches
nobody. -/
theorem values_cross_boundary_relay :
    ∃ out, transpile relayBytes {} = .ok out ∧
      let M := out.machine echoHost 10
      let imports : HostValue := .record [("h", .record [("f", .function 0 (.returns .undefined))])]
      let s := HostAction.performAll M 3 [.instantiate imports] { world := 0 }
      s.Sound out.module ∧ 0 < s.instances.size ∧
        integerAndCalls? (M.callExport 3 0 "g" [.number (.finite false 5 (-1))] s) = some (2, 1) ∧
        (∃ args, CoerceAll [.i32] [.number (.finite false 5 (-1))] args ∧
          M.callExport 3 0 "g" [.number (.finite false 5 (-1))] s
            = ((fun cells => HostValue.ofResults (cells.map Cell.toHost)) <$> M.invoke 3 0 0
              (args.map .plain)) s) ∧
        (∃ e, ∀ host', (out.machine host' 10).callExport 3 0 "g" [.string "two"] s =
          .error (.type e) s) ∧
        M.invoke 3 0 0 [.plain (.i32 2)] s = M.strictly 3 0 0 [.plain (.i32 2)] s := by
  let imports : HostValue := .record [("h", .record [("f", .function 0 (.returns .undefined))])]
  have hfacts : ((check relayBytes {}).toOption.map fun c =>
      let M := c.machine echoHost 10
      let s := HostAction.performAll M 3 [.instantiate imports] { world := 0 }
      (s.instances.size, (c.module.exports.find? fun e => e.name == "g"), c.module.functionType? 0,
        integerAndCalls? (M.callExport 3 0 "g" [.number (.finite false 5 (-1))] s)))
      = some (1, some ⟨"g", .function, 0⟩, some ⟨[.i32], [.i64]⟩, some (2, 1)) := by decide +kernel
  cases hcheck : check relayBytes {} with
  | error e =>
    rw [hcheck] at hfacts
    cases hfacts
  | ok c =>
    simp only [hcheck, Except.toOption, Option.map_some, Option.some.injEq, Prod.mk.injEq] at hfacts
    obtain ⟨hsize, hexport, htype, hcall⟩ := hfacts
    obtain ⟨out, hout, rfl⟩ := exists_transpile hcheck
    have hsound :=
      (HostAction.performAll_eq ((accepted_of_transpile hout).bodiesAgree_audited echoHost 10) 3
        [.instantiate imports] (Store.sound_empty out.module 0)).2
    have hplace := Nat.lt_of_lt_of_eq Nat.zero_lt_one hsize.symm
    obtain ⟨hexports, hstrict, -⟩ := values_cross_boundary hout echoHost 10 3 hsound hplace
    have hnumber : AllCoercible [.i32] [.number (.finite false 5 (-1))] :=
      allCoercible_cons.mpr ⟨⟨_, .number _⟩, by rintro i t ⟨⟩⟩
    have hstring : ¬ AllCoercible [.i32] [.string "two"] := by
      intro hall
      obtain ⟨r, hr⟩ := (allCoercible_cons.mp hall).1
      cases hr
    obtain ⟨i, t, -, -, hrefuses⟩ := (hexports "g" 0 _ hexport htype [.string "two"]).2 hstring
    exact ⟨out, hout, hsound, hplace, hcall, (hexports "g" 0 _ hexport htype _).1 hnumber,
      ⟨_, hrefuses⟩, hstrict 0 _ _ htype (.cons ⟨rfl, by decide⟩ .nil)⟩

end WasmScript
