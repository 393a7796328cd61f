import Concatenative.Numeric.Shortest

/-!
# Numbers written positionally

A float is written with the shortest decimal that reads back (`Interval.shortest`), laid out
positionally: never an exponent, a point only when there are fractional digits, and leading
zeros after the point for small magnitudes (`1e-7` is `0.0000001`, `1e21` is
`1000000000000000000000`).

What is left to decide is recorded in a `Spelling`: the words for NaN and infinity, and whether
negative zero keeps its sign. Two spellings are in use: `Spelling.value` for the language's own
text of a number, and `Spelling.message` for numbers quoted inside error messages.
-/

namespace Concatenative

namespace Decimal

/-- The digits of a decimal laid out around its point: `0.000ddd`, `dd.ddd` or `ddd000`. -/
def positional (d : Decimal) : String :=
  let ds := Nat.toDigits 10 d.digits
  let point : Int := d.exponent + ds.length
  if point ≤ 0 then
    String.ofList ('0' :: '.' :: (List.replicate (-point).toNat '0' ++ ds))
  else if point < ds.length then
    String.ofList (ds.take point.toNat ++ '.' :: ds.drop point.toNat)
  else
    String.ofList (ds ++ List.replicate (point.toNat - ds.length) '0')

end Decimal

/-- The spellings a number printer has to choose: the text of NaN, the text of an infinity
(a minus sign is put before a negative one), and whether negative zero is written `-0`. -/
structure Spelling where
  nan : String
  infinity : String
  signedZero : Bool
  deriving DecidableEq, Repr

namespace Spelling

/-- A number as the language shows it: `NaN`, `Infinity`, `-Infinity`, and `0` for both zeros. -/
def value : Spelling := ⟨"NaN", "Infinity", false⟩

/-- A number inside a message: `NaN`, `inf`, `-inf`, and `-0` for negative zero. -/
def message : Spelling := ⟨"NaN", "inf", true⟩

/-- Writes a number: a sign, then the spelling of a special value or the shortest positional
decimal of the magnitude. -/
def render (s : Spelling) (w : Binary64) : String :=
  if w.isNaN then s.nan
  else
    let sign := if w.negative && (!w.isZero || s.signedZero) then "-" else ""
    if !w.isFinite then sign ++ s.infinity
    else if w.isZero then sign ++ "0"
    else sign ++ w.interval.shortest.positional

end Spelling

end Concatenative
