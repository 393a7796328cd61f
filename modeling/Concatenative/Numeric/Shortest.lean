import Concatenative.Numeric.Binary64

/-!
# The shortest decimal that reads back

A positive finite float stands for every real of its rounding interval: the reals nearer to it
than to either neighbour. `Interval.shortest` picks, from the decimals inside that interval, one
with the fewest significant digits, and of two such the nearer to the float, the larger on a
tie. All arithmetic is on natural numbers, with every quantity scaled to a common denominator.

The search tries grids of `1, 2, …` significant digits below the float's leading digit. On each
grid only the float's two neighbours are tested: if any point of a grid lies in the interval, one
of those two does, since the interval contains the float.
-/

namespace Concatenative

/-- A rounding interval in units of `2 ^ exp`: the float is `mant`, the interval runs from
`mant - minus` to `mant + plus`, and `inclusive` says whether its ends belong to it. -/
structure Interval where
  mant : Nat
  minus : Nat
  plus : Nat
  exp : Int
  inclusive : Bool
  deriving DecidableEq, Repr

/-- A decimal `digits · 10 ^ exponent`. -/
structure Decimal where
  digits : Nat
  exponent : Int
  deriving DecidableEq, Repr

namespace Binary64

/-- The rounding interval of a positive finite word. A subnormal significand is taken with one
more bit, which makes its interval closed; a normal word with a zero fraction has a neighbour
below at half the spacing, so its interval is narrower below. Otherwise the ends belong to the
interval when the significand is even. -/
def interval (w : Binary64) : Interval :=
  if w.exponent = 0 then ⟨2 * w.fraction, 1, 1, -1075, true⟩
  else if w.fraction = 0 then ⟨Nat.pow 2 54, 1, 2, (w.exponent : Int) - 1077, true⟩
  else ⟨2 * (Nat.pow 2 52 + w.fraction), 1, 1, (w.exponent : Int) - 1076, w.fraction % 2 == 0⟩

end Binary64

namespace Decimal

/-- The same decimal with trailing zero digits moved into the exponent. -/
def normalize (d : Decimal) : Decimal :=
  go d.digits.log2.succ d
where
  go : Nat → Decimal → Decimal
    | 0, d => d
    | fuel + 1, d =>
      if d.digits ≠ 0 ∧ d.digits % 10 = 0 then go fuel ⟨d.digits / 10, d.exponent + 1⟩
      else d

end Decimal

/-- The number of decimal digits of `n` (one for zero). -/
def decimalLength (n : Nat) : Nat :=
  (Nat.toDigits 10 n).length

namespace Interval

/-- The float as a fraction `numerator / denominator`, with the interval's ends over the same
denominator. -/
def numerator (i : Interval) : Nat := i.mant * Nat.pow 2 i.exp.toNat
def lowNumerator (i : Interval) : Nat := (i.mant - i.minus) * Nat.pow 2 i.exp.toNat
def highNumerator (i : Interval) : Nat := (i.mant + i.plus) * Nat.pow 2 i.exp.toNat
def denominator (i : Interval) : Nat := Nat.pow 2 (-i.exp).toNat

/-- The least `k` with `value < 10 ^ k`: the place just above the leading digit. -/
def order (i : Interval) : Int :=
  let k : Int := (decimalLength i.numerator : Int) - decimalLength i.denominator
  if i.numerator * Nat.pow 10 (-k).toNat < i.denominator * Nat.pow 10 k.toNat then k else k + 1

/-- The candidate on the grid `10 ^ j` for the float, if one lies in the interval: the float's
lower neighbour `t · 10 ^ j` or upper neighbour `(t + 1) · 10 ^ j`, the nearer if both do, the
upper on a tie. -/
def onGrid (i : Interval) (j : Int) : Option Decimal :=
  let num := i.numerator * Nat.pow 10 (-j).toNat
  let low := i.lowNumerator * Nat.pow 10 (-j).toNat
  let high := i.highNumerator * Nat.pow 10 (-j).toNat
  let den := i.denominator * Nat.pow 10 j.toNat
  let above (c : Nat) : Bool := if i.inclusive then low ≤ c * den else low < c * den
  let below (c : Nat) : Bool := if i.inclusive then c * den ≤ high else c * den < high
  let t := num / den
  let lowOk := above t && below t
  let highOk := above (t + 1) && below (t + 1)
  if lowOk && highOk then
    if (2 * t + 1) * den ≤ 2 * num then some ⟨t + 1, j⟩ else some ⟨t, j⟩
  else if lowOk then some ⟨t, j⟩
  else if highOk then some ⟨t + 1, j⟩
  else none

/-- Tries the grids with `n, n + 1, …` significant digits, at most `fuel` of them; seventeen
digits always suffice for a binary64 interval. -/
def search (i : Interval) (k : Int) : Nat → Nat → Decimal
  | 0, n =>
    ⟨i.numerator * Nat.pow 10 (n - k).toNat / (i.denominator * Nat.pow 10 (k - n).toNat), k - n⟩
  | fuel + 1, n =>
    match i.onGrid (k - n) with
    | some d => d
    | none => search i k fuel (n + 1)

/-- The decimal with the fewest significant digits inside the interval, the nearest to the float
among those, trailing zeros moved into the exponent. -/
def shortest (i : Interval) : Decimal :=
  (i.search i.order 17 1).normalize

end Interval

end Concatenative
