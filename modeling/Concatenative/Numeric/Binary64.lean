/-!
# Binary64 numbers

The language's numbers are IEEE binary64 words, kept as their bit pattern so that the sign and
payload of a NaN are part of the value. A word has a sign, an 11-bit biased exponent and a
52-bit fraction; a finite word has the exact magnitude `significand · 2 ^ scale`.

Arithmetic works on the exact values: a sum, product or quotient of finite words is a
rational number, and `Binary64.roundRatio` gives the word nearest to it, ties to even, with
infinity beyond the largest finite magnitude. NaNs are settled by one rule: a NaN operand is
returned quieted, the left one first, and an invalid operation (`0 / 0`, `∞ - ∞`, …) gives
`Binary64.defaultNaN`, the negative quiet NaN with an empty payload. Only `Binary64.pow` goes
through `Float`, the system's `pow`.

On the exact reading this module also defines the operations that are exact in the reals:

* `Binary64.truncate`, the integer part toward zero, and `Binary64.floor`;
* `Binary64.isIntegral`;
* `Binary64.rem`, the remainder of the quotient truncated toward zero, which carries the sign of
  the dividend and is always representable, so it involves no rounding;
* `Binary64.word32`, the integer part reduced modulo `2 ^ 32`, read as a signed word by
  `Binary64.signed32`;
* `Binary64.abs` and `Binary64.signum`, which only look at the sign bit.
-/

namespace Concatenative

/-- A binary64 number, as its bit pattern. -/
structure Binary64 where
  bits : UInt64
  deriving DecidableEq, Repr, Inhabited

namespace Binary64

/-- The sign bit. -/
def negative (x : Binary64) : Bool :=
  decide (Nat.pow 2 63 ≤ x.bits.toNat)

/-- The biased exponent, `0` to `2047`. -/
def exponent (x : Binary64) : Nat :=
  x.bits.toNat / Nat.pow 2 52 % Nat.pow 2 11

/-- The fraction, below `2 ^ 52`. -/
def fraction (x : Binary64) : Nat :=
  x.bits.toNat % Nat.pow 2 52

/-- The word with these fields. -/
def ofFields (negative : Bool) (exponent fraction : Nat) : Binary64 :=
  ⟨UInt64.ofNat ((if negative then Nat.pow 2 63 else 0)
    + exponent % Nat.pow 2 11 * Nat.pow 2 52 + fraction % Nat.pow 2 52)⟩

/-- The float with this bit pattern. -/
def toFloat (x : Binary64) : Float :=
  Float.ofBits x.bits

/-- The word of a float that is not a NaN. -/
def ofFloat (f : Float) : Binary64 :=
  ⟨f.toBits⟩

/-- Neither an infinity nor a NaN: the exponent field is not all ones. -/
def isFinite (x : Binary64) : Bool :=
  x.exponent != 2047

/-- The exponent field is all ones and the fraction is not zero. -/
def isNaN (x : Binary64) : Bool :=
  x.exponent == 2047 && x.fraction != 0

/-- Either zero, of either sign. -/
def isZero (x : Binary64) : Bool :=
  x.exponent == 0 && x.fraction == 0

/-- The NaN an invalid operation produces: negative, quiet, with an empty payload. -/
def defaultNaN : Binary64 :=
  ⟨0xfff8000000000000⟩

/-- Positive infinity. -/
def infinity : Binary64 :=
  ⟨0x7ff0000000000000⟩

/-- The same NaN with its quiet bit set. -/
def quiet (x : Binary64) : Binary64 :=
  ⟨x.bits ||| 0x0008000000000000⟩

/-- Float equality: NaN equals nothing, the two zeros are equal. -/
def beq (x y : Binary64) : Bool :=
  !x.isNaN && !y.isNaN && (x.bits == y.bits || (x.isZero && y.isZero))

/-- The integer significand: the fraction, with the hidden bit of a normal word. -/
def significand (x : Binary64) : Nat :=
  if x.exponent = 0 then x.fraction else Nat.pow 2 52 + x.fraction

/-- The power of two that scales the significand to the magnitude. -/
def scale (x : Binary64) : Int :=
  if x.exponent = 0 then -1074 else (x.exponent : Int) - 1075

/-- `m · 2 ^ q` rounded toward zero to a natural number. -/
def scaleDown (m : Nat) (q : Int) : Nat :=
  if 0 ≤ q then m * Nat.pow 2 q.toNat else m / Nat.pow 2 (-q).toNat

/-- The magnitude of a finite word rounded toward zero. -/
def magnitudeFloor (x : Binary64) : Nat :=
  scaleDown x.significand x.scale

/-- A finite word with no fractional part. -/
def isIntegral (x : Binary64) : Bool :=
  decide (0 ≤ x.scale) || x.significand % Nat.pow 2 (-x.scale).toNat == 0

/-- The integer part of a finite word, toward zero. -/
def truncate (x : Binary64) : Int :=
  if x.negative then -(x.magnitudeFloor : Int) else x.magnitudeFloor

/-- The word `± m · 2 ^ q`, for `m < 2 ^ 53` and `-1074 ≤ q` whenever that value is
representable: the significand is shifted up until its top bit is the hidden bit, or until the
exponent reaches the subnormal range. -/
def ofExact (negative : Bool) (m : Nat) (q : Int) : Binary64 :=
  if m = 0 then ofFields negative 0 0
  else
    let shift := min (52 - Nat.log2 m) (q + 1074).toNat
    let m' := m * Nat.pow 2 shift
    let q' := q - shift
    if m' < Nat.pow 2 52 then ofFields negative 0 m'
    else ofFields negative (q' + 1075).toNat (m' - Nat.pow 2 52)

-- ---------------------------------------------------------------------------
-- Rounding
-- ---------------------------------------------------------------------------

/-- `⌊log₂ (num / den)⌋`, for positive `num` and `den`. Below one it is `-j` for the least `j`
with `num · 2 ^ j ≥ den`. -/
def ratioLog (num den : Nat) : Int :=
  if den ≤ num then (Nat.log2 (num / den) : Int)
  else -((Nat.log2 ((den - 1) / num) : Int) + 1)

/-- `num / den` rounded to a natural number, ties to even. -/
def roundHalfEven (num den : Nat) : Nat :=
  let q := num / den
  let r := num % den
  if den < 2 * r || (2 * r == den && q % 2 == 1) then q + 1 else q

/-- The word `± m · 2 ^ t` for `m < 2 ^ 53` and `-1074 ≤ t`, where `m` has its top bit at bit 52
unless `t = -1074`; infinity when the exponent is past the largest. -/
def assemble (negative : Bool) (m : Nat) (t : Int) : Binary64 :=
  if m < Nat.pow 2 52 then ofFields negative 0 m
  else if t + 1075 < 2047 then ofFields negative (t + 1075).toNat (m - Nat.pow 2 52)
  else ofFields negative 2047 0

/-- The word nearest to `± num / den` (`den > 0`), ties to even: the quotient is scaled to 53
significant bits, or to the subnormal quantum `2 ^ -1074`, and rounded there; a significand
carried to `2 ^ 53` moves up one binade, and past the largest finite magnitude the result is an
infinity. Zero keeps the sign it is given. -/
def roundRatio (negative : Bool) (num den : Nat) : Binary64 :=
  if num = 0 then ofFields negative 0 0
  else
    let t := max (ratioLog num den - 52) (-1074)
    let m := roundHalfEven (num * Nat.pow 2 (-t).toNat) (den * Nat.pow 2 t.toNat)
    if m = Nat.pow 2 53 then assemble negative (Nat.pow 2 52) (t + 1)
    else assemble negative m t

/-- The word nearest to `± m · 2 ^ e`. -/
def roundScaled (negative : Bool) (m : Nat) (e : Int) : Binary64 :=
  roundRatio negative (m * Nat.pow 2 e.toNat) (Nat.pow 2 (-e).toNat)

/-- The word of a natural number, rounded to nearest, ties to even. -/
def ofNat (n : Nat) : Binary64 :=
  roundRatio false n 1

-- ---------------------------------------------------------------------------
-- Arithmetic
-- ---------------------------------------------------------------------------

/-- The negated word: the sign bit flipped. -/
def neg (x : Binary64) : Binary64 :=
  ⟨x.bits ^^^ 0x8000000000000000⟩

/-- The sum of two finite words, rounded. An exact zero is negative only when both operands
are. -/
def addFinite (x y : Binary64) : Binary64 :=
  let e := min x.scale y.scale
  let mx : Int := x.significand * Nat.pow 2 (x.scale - e).toNat
  let my : Int := y.significand * Nat.pow 2 (y.scale - e).toNat
  let s := (if x.negative then -mx else mx) + (if y.negative then -my else my)
  if s = 0 then ofFields (x.negative && y.negative) 0 0
  else roundScaled (decide (s < 0)) s.natAbs e

/-- The sum, rounded. Infinities of opposite signs make the default NaN. -/
def add (x y : Binary64) : Binary64 :=
  if x.isNaN then x.quiet
  else if y.isNaN then y.quiet
  else if !x.isFinite then
    if !y.isFinite && x.negative != y.negative then defaultNaN else x
  else if !y.isFinite then y
  else addFinite x y

/-- The difference, rounded: the sum with the negated right operand, once NaNs are settled. -/
def sub (x y : Binary64) : Binary64 :=
  if x.isNaN then x.quiet
  else if y.isNaN then y.quiet
  else add x y.neg

/-- The product, rounded. An infinity times a zero is the default NaN. -/
def mul (x y : Binary64) : Binary64 :=
  if x.isNaN then x.quiet
  else if y.isNaN then y.quiet
  else
    let s := x.negative != y.negative
    if !x.isFinite || !y.isFinite then
      if x.isZero || y.isZero then defaultNaN else ofFields s 2047 0
    else roundScaled s (x.significand * y.significand) (x.scale + y.scale)

/-- The quotient, rounded. `0 / 0` and `∞ / ∞` are the default NaN; a finite non-zero word over
zero is an infinity. -/
def div (x y : Binary64) : Binary64 :=
  if x.isNaN then x.quiet
  else if y.isNaN then y.quiet
  else
    let s := x.negative != y.negative
    if !x.isFinite then
      if !y.isFinite then defaultNaN else ofFields s 2047 0
    else if !y.isFinite then ofFields s 0 0
    else if y.isZero then
      if x.isZero then defaultNaN else ofFields s 2047 0
    else
      roundRatio s (x.significand * Nat.pow 2 (x.scale - y.scale).toNat)
        (y.significand * Nat.pow 2 (y.scale - x.scale).toNat)

/-- The place of a word that is not NaN in the order of the reals, both zeros at `0`: the
magnitude's bit pattern, negated for a negative word. -/
def orderKey (x : Binary64) : Int :=
  let magnitude : Int := x.exponent * Nat.pow 2 52 + x.fraction
  if x.negative then -magnitude else magnitude

/-- `x < y` as floats; false when either is NaN. -/
def lt (x y : Binary64) : Bool :=
  !x.isNaN && !y.isNaN && decide (x.orderKey < y.orderKey)

/-- The remainder of `x` by `y` after a quotient truncated toward zero: exact, with the sign of
`x`. A NaN operand gives that NaN quieted; an infinite `x` or a zero `y` give the default NaN;
an infinite `y` or a zero `x` give `x`. -/
def rem (x y : Binary64) : Binary64 :=
  if x.isNaN then x.quiet
  else if y.isNaN then y.quiet
  else if !x.isFinite || y.isZero then defaultNaN
  else if !y.isFinite || x.isZero then x
  else
    let q := min x.scale y.scale
    let num := x.significand * Nat.pow 2 (x.scale - q).toNat
    let den := y.significand * Nat.pow 2 (y.scale - q).toNat
    ofExact x.negative (num % den) q

/-- A finite word that is an odd integer. -/
def isOddIntegral (x : Binary64) : Bool :=
  x.isFinite && x.isIntegral && x.magnitudeFloor % 2 == 1

/-- `x` raised to `y` by the system's `pow` (`Float.pow`), which is `1` for a zero exponent or a
base of one even when the other operand is NaN. A NaN base with a finite non-zero exponent comes
out as its square, so it loses its sign when the exponent is an odd integer, as `(-x) ^ y`
would. -/
def pow (x y : Binary64) : Binary64 :=
  let r := Float.pow x.toFloat y.toFloat
  if !r.isNaN then ofFloat r
  else if x.isNaN then
    if x.negative && y.isFinite && !y.isZero && y.isOddIntegral then x.quiet.neg else x.quiet
  else if y.isNaN then y.quiet
  else defaultNaN

/-- The largest integral word not above `x`; NaN, infinities and integral values are kept. -/
def floor (x : Binary64) : Binary64 :=
  if !x.isFinite || x.isIntegral then x
  else if x.negative then neg (ofNat (x.magnitudeFloor + 1))
  else ofNat x.magnitudeFloor

/-- `x` with its sign bit cleared. -/
def abs (x : Binary64) : Binary64 :=
  ofFields false x.exponent x.fraction

/-- NaN for NaN, otherwise `1` carrying the sign bit of `x` (so `-0` gives `-1`). -/
def signum (x : Binary64) : Binary64 :=
  if x.isNaN then x else ofFields x.negative 1023 0

/-- The integer part of a finite word reduced modulo `2 ^ 32`; NaN and infinities give `0`. -/
def word32 (x : Binary64) : Nat :=
  if x.isFinite then (x.truncate % (Nat.pow 2 32 : Int)).toNat else 0

/-- A residue modulo `2 ^ 32` read as a two's-complement signed word. -/
def signed32 (u : Nat) : Int :=
  if u < Nat.pow 2 31 then u else (u : Int) - (Nat.pow 2 32 : Int)

/-- The word of an integer whose magnitude is below `2 ^ 53`, exactly. -/
def ofInt (i : Int) : Binary64 :=
  if i < 0 then ofExact true i.natAbs 0 else ofExact false i.natAbs 0

end Binary64

end Concatenative
