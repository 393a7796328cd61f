import Concatenative.Numeric.Binary64

/-!
# Decimal literals

A number literal is an optional sign, digits with an optional point, and an optional exponent
(`-12.5e3`, `.5`, `+7`). `Literal.read` takes such text apart into a sign and the exact value
`significand · 10 ^ exponent`, and `Literal.value` rounds that value to the nearest float,
ties to even, through `Float.ofScientific`. Magnitudes far outside the range of floats are
settled before rounding: from `10 ^ 310` up they are infinite, below `10 ^ -325` they are zero.
-/

namespace Concatenative

/-- A decimal literal: a sign and the exact value `significand · 10 ^ exponent`. -/
structure Literal where
  negative : Bool
  significand : Nat
  exponent : Int
  deriving DecidableEq, Repr

namespace Literal

/-- The value of a run of decimal digits; other characters count as zero. -/
def digitValue (ds : List Char) : Nat :=
  ds.foldl (fun acc c => acc * 10 + (c.toNat - '0'.toNat) % 10) 0

/-- Splits literal text into sign, digits before and after the point, and exponent. Text that
is not a literal still reads as some literal: characters out of place are ignored. -/
def read (cs : List Char) : Literal :=
  let (negative, cs) := match cs with
    | '-' :: r => (true, r)
    | '+' :: r => (false, r)
    | r => (false, r)
  let whole := cs.takeWhile Char.isDigit
  let cs := cs.dropWhile Char.isDigit
  let (frac, cs) := match cs with
    | '.' :: r => (r.takeWhile Char.isDigit, r.dropWhile Char.isDigit)
    | r => ([], r)
  let scale : Int := match cs with
    | c :: r =>
      if c = 'e' ∨ c = 'E' then
        match r with
        | '-' :: ds => -(digitValue ds : Int)
        | '+' :: ds => digitValue ds
        | ds => digitValue ds
      else 0
    | [] => 0
  ⟨negative, digitValue (whole ++ frac), scale - frac.length⟩

/-- The number nearest to the literal's value, ties to even; the sign applies last, so `-0` is
negative zero. -/
def value (l : Literal) : Binary64 :=
  let digits : Int := (Nat.toDigits 10 l.significand).length
  let magnitude : Binary64 :=
    if l.significand = 0 then Binary64.ofNat 0
    else if 310 ≤ l.exponent + digits then Binary64.infinity
    else if l.exponent + digits ≤ -325 then Binary64.ofNat 0
    else Binary64.ofFloat
      (Float.ofScientific l.significand (decide (l.exponent < 0)) l.exponent.natAbs)
  if l.negative then magnitude.neg else magnitude

end Literal

end Concatenative
