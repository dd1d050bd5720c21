/-
  WasmScript/Number/Hexadecimal.lean
  ==================================
  **Numbers in base sixteen** — how a host writes any number with hexadecimal digits.

  The digits of a double end where its mantissa ends, so the text is exact below 2^53, a
  fraction included.  Above, the digits that the mantissa does not reach are zeros, and a
  digit that it reaches only in part is one of them.
-/
import WasmScript.Number.Arithmetic
import WasmScript.Text.Hex

namespace WasmScript.Number

open WasmScript.Bits (twoPow)

/-- The digits of `m / 2 ^ k` after the point, without zeros at their end. -/
def hexFraction (m k : Nat) : List Char :=
  let count := (k + 3) / 4
  let digits := Nat.toDigits 16 ((m % twoPow k) <<< (4 * count - k))
  let padded := List.replicate (count - digits.length) '0' ++ digits
  (padded.reverse.dropWhile (· == '0')).reverse

def hexText : Number → String
  | .finite negative m e =>
    let (m, e) := normalize m e
    let skipped := (e.toNat + 3) / 4
    let whole := Hex.ofNat (scaled m (e - 4 * skipped)) ++ zeros skipped
    let fraction := hexFraction m (-e).toNat
    (if negative ∧ m ≠ 0 then "-" else "") ++ (if m = 0 then "0" else whole)
      ++ (if fraction.isEmpty then "" else "." ++ String.ofList fraction)
  | other => other.text

end WasmScript.Number
