/-
  WasmScript/Number/Decimal.lean
  ==============================
  **Shortest decimal text** — the fewest digits that read back as the same double.

  The reals that round to a double form an interval around it.  For one digit, two, and so
  on, `shortest?` tests the two neighbours of the double on the grid of decimals with that
  many digits; the first grid with a neighbour in the interval wins, and of two neighbours
  the nearer, or the even one if they are equally near.  All of it is exact arithmetic on naturals.

  `Notation` states the decisions of the format: between 10^-7 and 10^21 a number is
  written positionally, outside of it with an exponent that carries its sign.
-/
import WasmScript.Number.Basic

namespace WasmScript.Number

open WasmScript.Bits (twoPow)

def tenPow (k : Nat) : Nat := Nat.pow 10 k

/-- A positive decimal `digits · 10 ^ exponent`. -/
structure Decimal where
  digits : Nat
  exponent : Int
deriving DecidableEq, Repr

/-- The interval of reals that round to `m · 2 ^ e`, in quarters of `2 ^ e`: the lower end,
the value, the upper end, and whether the ends belong to it. -/
structure Interval where
  low : Nat
  value : Nat
  high : Nat
  closed : Bool

/-- The interval of a double with mantissa `m`.  Below a power of two the doubles lie twice as
dense, unless they are the smallest ones. -/
def interval (m : Nat) (smallest : Bool) : Interval :=
  { low := if m = twoPow 52 ∧ ¬ smallest then 4 * m - 1 else 4 * m - 2
    value := 4 * m
    high := 4 * m + 2
    closed := m % 2 = 0 }

/-- Whether a grid point `n`, scaled like the interval's ends by `unit` and `scale`, lies in it. -/
def Interval.contains (i : Interval) (scale unit n : Nat) : Bool :=
  if i.closed then i.low * scale ≤ n * unit ∧ n * unit ≤ i.high * scale
  else i.low * scale < n * unit ∧ n * unit < i.high * scale

/-- The point of the grid `10 ^ p` that lies in the interval of `m · 2 ^ e` and is nearest to
the value; of two that are equally near, the even one. -/
def onGrid? (i : Interval) (e p : Int) : Option Nat :=
  -- a quarter of 2^e against a step of 10^p, both made whole
  let scale := twoPow (e - 2).toNat * tenPow (-p).toNat
  let unit := twoPow (2 - e).toNat * tenPow p.toNat
  let below := i.value * scale / unit
  let above := below + 1
  let fromBelow := i.value * scale - below * unit
  let toAbove := above * unit - i.value * scale
  match i.contains scale unit below, i.contains scale unit above with
  | true, true =>
    some (if toAbove < fromBelow ∨ toAbove = fromBelow ∧ below % 2 = 1 then above else below)
  | true, false => some below
  | false, true => some above
  | false, false => none

def digitCount (n : Nat) : Nat := (Nat.toDigits 10 n).length

/-- The position of the leading digit of `m · 2 ^ e`: the `k` with `10 ^ k ≤ m · 2 ^ e`. -/
def leading (m : Nat) (e : Int) : Int :=
  if 0 ≤ e then digitCount (m <<< e.toNat) - 1
  else
    let whole := m >>> (-e).toNat
    if whole ≠ 0 then digitCount whole - 1
    else
      -- m / 2^k = m · 5^k / 10^k
      digitCount (m * Nat.pow 5 (-e).toNat) - 1 + e

/-- Grids of one digit, two, and so on below the leading digit. -/
def search (i : Interval) (e : Int) (top : Int) : Nat → Nat → Option Decimal
  | 0, _ => none
  | fuel + 1, below =>
    let p := top - below
    match onGrid? i e p with
    | some 0 | none => search i e top fuel (below + 1)
    | some n => some ⟨n, p⟩

/-- Brings a mantissa to fifty-three bits where the exponent allows it. -/
def normalize (m : Nat) (e : Int) : Nat × Int :=
  let lift := min (53 - (bitLength m : Int)) (e + 1074)
  if 0 ≤ lift then (m <<< lift.toNat, e - lift) else (m, e)

/-- The shortest decimal that reads back as the double `m · 2 ^ e`. -/
def shortest? (m : Nat) (e : Int) : Option Decimal :=
  let (m, e) := normalize m e
  search (interval m (e == -1074)) e (leading m e + 1) 19 0

def stripZeros (fuel : Nat) (d : Decimal) : Decimal :=
  match fuel with
  | 0 => d
  | fuel + 1 =>
    if d.digits ≠ 0 ∧ d.digits % 10 = 0 then stripZeros fuel ⟨d.digits / 10, d.exponent + 1⟩ else d

/-- The shortest decimal of a double without zeros at its end. -/
def toDecimal? (m : Nat) (e : Int) : Option Decimal :=
  (shortest? m e).map (stripZeros 400)

/-! ### Text -/

structure Notation where
  /-- The greatest position of the point that is still written positionally. -/
  maxPoint : Int
  /-- The position of the point from which on leading zeros are written. -/
  minPoint : Int

/-- Numbers from 10^-6 up to 10^21 are written positionally. -/
def Notation.standard : Notation := ⟨21, -5⟩

def zeros (n : Nat) : String := String.ofList (List.replicate n '0')

def Decimal.text (style : Notation) (d : Decimal) : String :=
  let digits := Nat.toDigits 10 d.digits
  let count : Int := digits.length
  let point := count + d.exponent
  if count ≤ point ∧ point ≤ style.maxPoint then
    String.ofList digits ++ zeros (point - count).toNat
  else if 0 < point ∧ point ≤ style.maxPoint then
    String.ofList (digits.take point.toNat) ++ "." ++ String.ofList (digits.drop point.toNat)
  else if style.minPoint ≤ point ∧ point ≤ 0 then
    "0." ++ zeros (-point).toNat ++ String.ofList digits
  else
    let power := point - 1
    let shown := (if power < 0 then "e-" else "e+") ++ toString power.natAbs
    match digits with
    | [] => shown
    | [d] => String.ofList [d] ++ shown
    | d :: rest => String.ofList [d] ++ "." ++ String.ofList rest ++ shown

/-- The text of a number as hosts write it; a zero has no sign. -/
def text : Number → String
  | .nan => "NaN"
  | .infinite negative => if negative then "-Infinity" else "Infinity"
  | .finite negative m e =>
    if m = 0 then "0"
    else
      let magnitude := (toDecimal? m e).elim "" (Decimal.text .standard)
      if negative then "-" ++ magnitude else magnitude

end WasmScript.Number
