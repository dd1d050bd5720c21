/-
  WasmScript/Proofs/Script/DataSegments.lean
  ==========================================
  **Data segments in scripts** — that a script writes the bytes of its module.

  A segment is one line of the script, in which its bytes stand as a literal of digits.  A line is
  read here as a host reads it: the address is a decimal number, the literal is whatever
  `Lexer.scan` finds, and its digits are decoded by the helper `HostValue.hexBytes`.  So nothing
  in `DataCall` knows how the line was written.  The lines of a script write the segments of its
  module, each at its offset and byte by byte: `dataLines_written`.
-/
import WasmScript.Proofs.Memory.Ranges
import WasmScript.Proofs.Script.Declarations
import WasmScript.Proofs.Text.Hex
import WasmScript.Script.HelperCall

namespace WasmScript

/-! ### Texts of digits in the hands of a host -/

namespace HostValue

theorem hexBytes_string (text : String) :
    (HostValue.string text).hexBytes = (Hex.toBytes? text).elim (.error .hexText) .ok := rfl

theorem hexBytes_ofBytes (bytes : List UInt8) :
    (HostValue.string (Hex.ofBytes bytes)).hexBytes = .ok bytes := by
  rw [hexBytes_string, Hex.toBytes?_ofBytes]
  rfl

theorem hexBytes_eq_ok_iff {text : String} {bytes : List UInt8} :
    (HostValue.string text).hexBytes = .ok bytes ↔ Hex.toBytes? text = some bytes := by
  rw [hexBytes_string]
  cases Hex.toBytes? text with
  | none => exact iff_of_false nofun nofun
  | some found =>
    constructor
    · intro h
      cases h
      rfl
    · intro h
      cases h
      rfl

/-- A text of digits is either decoded or refused with the one message there is. -/
theorem hexBytes_cases (text : String) :
    (text.length % 2 = 0 ∧ (∀ c ∈ text.toList, c ∈ Hex.digits) →
        ∃ bytes, (HostValue.string text).hexBytes = .ok bytes ∧ Hex.ofBytes bytes = text.toLower) ∧
      (¬ (text.length % 2 = 0 ∧ ∀ c ∈ text.toList, c ∈ Hex.digits) →
        (HostValue.string text).hexBytes = .error .hexText) := by
  have hread : (Hex.toBytes? text).isSome ↔ text.length % 2 = 0 ∧ ∀ c ∈ text.toList,
    c ∈ Hex.digits :=
    Hex.isSome_toBytes?_iff
  constructor
  · intro hdigits
    obtain ⟨bytes, hbytes⟩ := Option.isSome_iff_exists.mp (hread.mpr hdigits)
    exact ⟨bytes, hexBytes_eq_ok_iff.mpr hbytes, Hex.ofBytes_of_toBytes? hbytes⟩
  · intro hother
    have hnone : Hex.toBytes? text = none := Option.not_isSome_iff_eq_none.mp fun h =>
      hother (hread.mp h)
    rw [hexBytes_string, hnone]
    rfl

end HostValue

namespace MemoryCall

theorem perform_write_eq {m : LinearMemory} (hm : m.Fits) (address : Nat) (data : ByteArray) :
    perform (.write (.number (.ofInt address)) (.bytes data)) m =
      if address + data.size ≤ m.size then
        .ok .undefined { m with bytes := LinearMemory.splice data address m.bytes }
      else .error (.trap .outOfBounds) m := by
  have haddress : (HostValue.number (.ofInt address)).integer? = some (address : Int) :=
    (Number.Represents.ofInt address).toInteger?
  have hlength : (Number.ofInt data.size).toInteger? = some (data.size : Int) :=
    (Number.Represents.ofInt data.size).toInteger?
  have hplace : toAddress (.number (.ofInt address)) m = .ok address m := by
    unfold toAddress
    rw [haddress]
    rfl
  have hsize : accept (((HostValue.bytes data).get "length").mapError .type) m
      = .ok (.number (.ofInt data.size)) m := rfl
  refine (bind_at_ok hsize).trans
    ((bind_at_ok hplace).trans ((toEnd_bind_eq hm hlength address _).trans ?_))
  have hcast : (address : Int) + data.size ≤ m.size ↔ address + data.size ≤ m.size := by omega
  rw [if_congr hcast rfl rfl]
  split
  · next hfits =>
    exact bind_at_ok (lift_eq_ok ((LinearMemory.write_eq address data m).trans (if_pos hfits)))
  · rfl

end MemoryCall

namespace Script

open Sheet (Adds Extends Includes indented unlines)

/-! ### Lines that write bytes -/

/-- What a line that writes bytes asks for: an address and a text of digits. -/
structure DataCall where
  address : Nat
  text : String
deriving DecidableEq, Repr

namespace DataCall

/-- Reads a line that writes bytes: a number and a literal, each where it has to stand. -/
def ofLine? (line : String) : Option DataCall := do
  let rest ← "memory.initData(".toList.isPrefixOf? (line.toList.dropWhile (· = ' '))
  let address := rest.takeWhile Char.isDigit
  let rest ← ", rt.hexToBytes(".toList.isPrefixOf? (rest.dropWhile Char.isDigit)
  let literal ← "));".toList.isSuffixOf? rest
  match Lexer.scan .code (Units.ofString (String.ofList literal)) with
  | some [text] => some ⟨Nat.ofDigitChars 10 address 0, Units.toText text⟩
  | _ => none

/-- Decodes the text and writes the bytes. -/
def perform (c : DataCall) : MemoryCall.Act HostValue := do
  let bytes ← MemoryCall.accept ((HostValue.string c.text).hexBytes.mapError .type)
  MemoryCall.perform (.write (.number (.ofInt c.address)) (.bytes ⟨bytes.toArray⟩))

theorem toChars_map_toNat {cs : List Char} (h : ∀ c ∈ cs, c.toNat < 0x80) :
    Units.toChars (cs.map Char.toNat) = cs := by
  have hplain {c : Char} (hc : c.toNat < 0x80) : Units.isHighSurrogate c.toNat = false ∧
      Units.isLowSurrogate c.toNat = false := by
    simp only [Units.isHighSurrogate, Units.isLowSurrogate, Bool.and_eq_false_iff,
      decide_eq_false_iff_not]
    omega
  have hsingle {c : Char} (hc : c.toNat < 0x80) : Units.single c.toNat = c := by
    rw [Units.single, (hplain hc).1, (hplain hc).2]
    exact Char.ofNat_toNat c
  induction cs with
  | nil => rfl
  | cons c cs ih =>
    obtain ⟨hc, hcs⟩ := List.forall_mem_cons.mp h
    cases cs with
    | nil => rw [List.map_cons, List.map_nil, Units.toChars, hsingle hc]
    | cons d cs =>
      rw [List.map_cons, List.map_cons, Units.toChars, (hplain hc).1, Bool.false_and,
        if_neg Bool.false_ne_true, hsingle hc, ← List.map_cons, ih hcs]

/-- A text of digits is had back from its units. -/
theorem toText_ofBytes (bytes : List UInt8) :
    Units.toText (Units.ofString (Hex.ofBytes bytes)) = Hex.ofBytes bytes := by
  have hdigit : ∀ c ∈ Hex.digits, c.toNat < 0x80 := by
    have hall : Hex.digits.all (·.toNat < 0x80) := by decide
    simpa only [List.all_eq_true, decide_eq_true_eq] using hall
  have hsmall : ∀ c ∈ Hex.charsOfBytes bytes, c.toNat < 0x80 :=
    fun c hc => hdigit c ((Hex.arePairs_iff.mp (Hex.arePairs_charsOfBytes bytes)).2 c hc)
  have hunits : Units.ofString (Hex.ofBytes bytes) = (Hex.charsOfBytes bytes).map Char.toNat := by
    rw [Units.ofString, Hex.ofBytes, String.toList_ofList]
    exact Quoted.flatMap_ofChar_of_small fun c hc => (hsmall c hc).trans (by decide)
  rw [hunits, Units.toText, Hex.ofBytes, toChars_map_toNat hsmall]

/-- The address of a line ends where its digits do. -/
theorem span_address (n : Nat) (rest : List Char) :
    (Nat.toDigits 10 n ++ (", rt.hexToBytes(".toList ++ rest)).takeWhile Char.isDigit =
      Nat.toDigits 10 n ∧
      (Nat.toDigits 10 n ++ (", rt.hexToBytes(".toList ++ rest)).dropWhile Char.isDigit
        = ", rt.hexToBytes(".toList ++ rest := by
  have hdigit : ∀ c ∈ Nat.toDigits 10 n, c.isDigit = true :=
    fun c hc => Nat.isDigit_of_mem_toDigits (by decide) (Nat.le_refl 10) hc
  have hcomma : ", rt.hexToBytes(".toList = ',' :: " rt.hexToBytes(".toList := by decide
  rw [List.takeWhile_append_of_pos hdigit, List.dropWhile_append_of_pos hdigit, hcomma,
    List.cons_append, List.takeWhile_cons_of_neg (by decide),
      List.dropWhile_cons_of_neg (by decide), List.append_nil]
  exact ⟨rfl, rfl⟩

/-- The parts of a line behind its margin. -/
theorem spelled_dataLine (d : DataSegment) (depth : Nat) :
    (Sheet.indented depth (Program.dataLine d)).toList.dropWhile (· = ' ')
      = "memory.initData(".toList ++ (Nat.toDigits 10 d.offset ++ (", rt.hexToBytes(".toList
        ++ ((Quoted.encode (Hex.ofBytes d.bytes)).toList ++ "));".toList))) := by
  have hpieces (a b c e f : String) {digits : List Char} (h : b.toList = digits) :
      (a ++ b ++ c ++ e ++ f).toList =
        a.toList ++ (digits ++ (c.toList ++ (e.toList ++ f.toList))) := by
    rw [String.toList_append, String.toList_append, String.toList_append, String.toList_append, h,
      List.append_assoc, List.append_assoc, List.append_assoc]
  have hline : (Program.dataLine d).toList = "memory.initData(".toList ++ (Nat.toDigits 10 d.offset
      ++ (", rt.hexToBytes(".toList ++
        ((Quoted.encode (Hex.ofBytes d.bytes)).toList ++ "));".toList))) :=
    hpieces _ _ _ _ _ Nat.toList_repr
  have hfirst : "memory.initData(".toList = 'm' :: "emory.initData(".toList := by decide
  have hne : Program.dataLine d ≠ "" := by
    intro h
    rw [h, hfirst] at hline
    cases hline
  have hmargin : ∀ c ∈ (Sheet.margin depth).toList, decide (c = ' ') = true := by
    intro c hc
    rw [Sheet.margin, String.toList_ofList] at hc
    exact decide_eq_true (List.eq_of_mem_replicate hc)
  rw [Sheet.indented, if_neg hne, String.toList_append, List.dropWhile_append_of_pos hmargin,
    hline, hfirst, List.cons_append, List.dropWhile_cons_of_neg (by decide)]

theorem ofLine?_dataLine (d : DataSegment) (depth : Nat) :
    ofLine? (Sheet.indented depth (Program.dataLine d)) = some ⟨d.offset, Hex.ofBytes d.bytes⟩ := by
  have hliteral : Lexer.scan .code (Units.ofString (Quoted.encode (Hex.ofBytes d.bytes)))
      = some [Units.ofString (Hex.ofBytes d.bytes)] := by
    have hreads := Quoted.tokens_quoted _ (ofString_lt (Hex.ofBytes d.bytes)) []
    rw [List.append_nil, ← Quoted.ofString_encode] at hreads
    rw [Lexer.scan, hreads]
    rfl
  obtain ⟨haddress, hrest⟩ :=
    span_address d.offset ((Quoted.encode (Hex.ofBytes d.bytes)).toList ++ "));".toList)
  rw [ofLine?, spelled_dataLine]
  simp only [Option.bind_eq_bind]
  rw [List.isPrefixOf?_eq_some_iff_append_eq.mpr rfl, Option.bind_some, haddress, hrest,
    List.isPrefixOf?_eq_some_iff_append_eq.mpr rfl, Option.bind_some,
    List.isSuffixOf?_eq_some_iff_append_eq.mpr rfl, Option.bind_some,
      String.ofList_toList, hliteral]
  dsimp only
  rw [Nat.ofDigitChars_ten_toDigits, toText_ofBytes]

/-! ### Bytes that are written -/

/-- A call leaves the bytes of a segment at its offset and all other bytes as they are, or traps. -/
structure Writes (c : DataCall) (d : DataSegment) : Prop where
  inside : ∀ m : LinearMemory, m.Fits → d.offset + d.bytes.length ≤ m.size →
    c.perform m =
      .ok .undefined { m with bytes := ⟨(overwrite m.contents d.offset d.bytes).toArray⟩ }
  outside : ∀ m : LinearMemory, m.Fits → m.size < d.offset + d.bytes.length →
    c.perform m = .error (.trap .outOfBounds) m

theorem perform_eq {m : LinearMemory} (hm : m.Fits) (address : Nat) (bytes : List UInt8) :
    perform ⟨address, Hex.ofBytes bytes⟩ m =
      if address + bytes.length ≤ m.size then
        .ok .undefined { m with bytes := ⟨(overwrite m.contents address bytes).toArray⟩ }
      else .error (.trap .outOfBounds) m := by
  have hdecode :
      MemoryCall.accept ((HostValue.string (Hex.ofBytes bytes)).hexBytes.mapError Failure.type) m
      = .ok bytes m := by
    rw [HostValue.hexBytes_ofBytes]
    rfl
  have hlist : (LinearMemory.splice ⟨bytes.toArray⟩ address m.bytes).data.toList
      = overwrite m.contents address bytes := LinearMemory.toList_splice
  have hrow : LinearMemory.splice ⟨bytes.toArray⟩ address m.bytes =
      ⟨(overwrite m.contents address bytes).toArray⟩ :=
    congrArg ByteArray.mk (Array.toList_inj.mp hlist)
  refine (bind_at_ok hdecode).trans
    ((MemoryCall.perform_write_eq hm address ⟨bytes.toArray⟩).trans ?_)
  rw [hrow]
  rfl

theorem writes (d : DataSegment) : Writes ⟨d.offset, Hex.ofBytes d.bytes⟩ d where
  inside _ hm h := (perform_eq hm d.offset d.bytes).trans (if_pos h)
  outside _ hm h := (perform_eq hm d.offset d.bytes).trans (if_neg (Nat.not_le_of_lt h))

end DataCall

/-! ### Scripts -/

namespace Program

variable (p : Program)

theorem includes_writeStart :
    Includes p.writeStart fun depth => p.data.map fun d => indented depth (dataLine d) := by
  have hdata : Includes (fun s => s.separate.each p.data fun d => Sheet.line (dataLine d))
      fun depth => p.data.map fun d => indented depth (dataLine d) :=
    (Adds.each_line _ _).includes.after .separate
  intro s
  unfold writeStart
  split
  · next hnothing =>
    have hempty : p.data = [] := List.isEmpty_iff.mp hnothing.1
    exact ⟨[], [], by rw [hempty]; rfl⟩
  · cases p.start with
    | none => exact hdata s
    | some index => exact hdata.before (.line _) s

theorem includes_writeBody (memory : Option String) :
    Includes (p.writeBody memory) fun depth => p.data.map fun d => indented depth (dataLine d) := by
  have hahead :
      Extends fun s => (((s.each p.imports fun b => Sheet.line (importLine b)).each memory.toList
      Sheet.line).each p.globals.zipIdx fun entry => Sheet.line (globalLine entry.1 entry.2)).each
          p.functions
        fun f s => f.write s.separate :=
    (((Extends.each _ fun _ => .line _).comp (.each _ fun _ => .line _)).comp
        (.each _ fun _ => .line _)).comp
      (.each _ fun f => Extends.separate.comp f.extends_write)
  have hbehind :
      Extends fun s => ((s.separate.line "const exports = Object.create(null);").each p.members
      fun member => Sheet.line (memberLine member)).line "return Object.freeze(exports);" :=
    ((Extends.separate.comp (.line _)).comp (.each _ fun _ => .line _)).comp (.line _)
  exact (p.includes_writeStart.after hahead).before hbehind

theorem data_of_ofModule {m : Module} {functions : List IR.Function} {options : Options}
    {p : Program} (h : ofModule m functions options = .ok p) : p.data = m.data := by
  unfold ofModule at h
  cases hfunctions : functionsOf (functions.mergeSort fun f g => f.index ≤ g.index) with
  | error e =>
    rw [hfunctions] at h
    cases h
  | ok fs =>
    rw [hfunctions] at h
    cases h
    rfl

/-- The lines of its data stand in a script one after another. -/
theorem exists_dataLines :
    ∃ front back,
      p.text = unlines (front ++ p.data.map (fun d => indented 1 (dataLine d)) ++ back) := by
  have hbody (header : String) := (p.includes_writeBody (p.memory.map memoryLine)).block header
  obtain ⟨front, back, hlines⟩ : ∃ front back, p.write .blank
      = Sheet.blank.extend (front ++ p.data.map (fun d => indented 1 (dataLine d)) ++ back) := by
    unfold write writeWith writeAround
    cases p.options.format with
    | esm => exact (hbody _).after (((Extends.line _).comp (.line _)).comp (.line _)) .blank
    | factory =>
      exact ((hbody _).after (((Extends.line _).comp (.line _)).comp (.line _))).before
        ((Extends.line _).comp (.line _)) .blank
  exact ⟨front, back, by rw [text, hlines, Sheet.text_extend_blank]⟩

end Program

end Script

open Script

/-- What is printed for bytes is decoded to them, nothing but digits in pairs is decoded, and the
lines of a script leave the bytes of its module in a memory. -/
theorem data_written :
    (∀ bytes, (HostValue.string (Hex.ofBytes bytes)).hexBytes = .ok bytes) ∧
      (∀ text : String,
        (text.length % 2 = 0 ∧ (∀ c ∈ text.toList, c ∈ Hex.digits) →
          ∃ bytes, (HostValue.string text).hexBytes = .ok bytes ∧ Hex.ofBytes bytes =
            text.toLower) ∧
        (¬ (text.length % 2 = 0 ∧ ∀ c ∈ text.toList, c ∈ Hex.digits) →
          (HostValue.string text).hexBytes = .error .hexText)) ∧
      ∀ (m : Module) (functions : List IR.Function) (options : Script.Options) (code : String),
        generate m functions options = .ok code →
          ∃ front lines back, code = Sheet.unlines (front ++ lines ++ back) ∧
            List.Forall₂ (fun line d => ∃ c, DataCall.ofLine? line = some c ∧ c.Writes d) lines
              m.data := by
  refine ⟨HostValue.hexBytes_ofBytes, HostValue.hexBytes_cases,
    fun m functions options code h => ?_⟩
  rw [generate] at h
  cases hprogram : Program.ofModule m functions options with
  | error e =>
    rw [hprogram] at h
    cases h
  | ok p =>
    rw [hprogram] at h
    cases h
    -- Each segment of the module has one line, in the order of the module.
    have hdata := Program.data_of_ofModule hprogram
    obtain ⟨front, back, hcode⟩ := p.exists_dataLines
    refine ⟨front, _, back, hcode, ?_⟩
    rw [hdata, List.forall₂_map_left_iff, List.forall₂_same]
    exact fun d _ => ⟨_, DataCall.ofLine?_dataLine d 1, DataCall.writes d⟩

/-- The script of a module with two bytes of data. -/
theorem data_written_sample :
    ∃ functions code, IR.buildModule Module.sample = .ok ⟨functions, []⟩ ∧
      generate Module.sample functions {} = .ok code ∧
      ∃ front line back c, code = Sheet.unlines (front ++ [line] ++ back) ∧
        DataCall.ofLine? line = some c ∧
        c.Writes ⟨8, [0xab, 0xcd]⟩ := by
  have hfacts : (check Module.sampleBytes {}).toOption.map (fun c => (c.module, c.options))
      = some (Module.sample, ⟨.esm, 256, "@herkos-ts/runtime"⟩) := by decide +kernel
  cases hcheck : check Module.sampleBytes {} with
  | error e =>
    rw [hcheck] at hfacts
    cases hfacts
  | ok found =>
    obtain ⟨m, functions, options⟩ := found
    rw [hcheck] at hfacts
    cases hfacts
    obtain ⟨-, hbuild, -⟩ := built_of_check hcheck
    obtain ⟨code, hcode⟩ := (accepted_of_check hcheck).exists_generate
    obtain ⟨front, lines, back, hlines, hwrites⟩ := data_written.2.2 _ _ _ _ hcode
    obtain ⟨line, rest, ⟨c, hline, hc⟩, hrest, rfl⟩ := List.forall₂_cons_right_iff.mp hwrites
    obtain rfl := List.forall₂_nil_right_iff.mp hrest
    exact ⟨functions, code, hbuild, hcode, front, line, back, c, hlines, hline, hc⟩

end WasmScript
