import Concatenative.Numeric.Notation

/-!
# Values

A value is a number (a binary64 float), a boolean or a string. This module gives the language's
text of a value, its truth, and the equality the language uses: numbers compare as floats, so
NaN differs from itself and the two zeros are equal.
-/

namespace Concatenative

/-- A value of the language. -/
inductive Value where
  | number (x : Binary64)
  | boolean (b : Bool)
  | string (s : String)
  deriving Inhabited

namespace Value

/-- Numbers other than zero and NaN, `true`, and nonempty strings are true. -/
def truthy : Value → Bool
  | number x => !x.isZero && !x.isNaN
  | boolean b => b
  | string s => !s.isEmpty

/-- The name of the value's type. -/
def typeName : Value → String
  | number _ => "number"
  | boolean _ => "boolean"
  | string _ => "string"

/-- The value as plain text: numbers in the language's spelling, `true`/`false`, a string as
itself. -/
def text : Value → String
  | number x => Spelling.value.render x
  | boolean b => if b then "true" else "false"
  | string s => s

/-- Equality as the language compares values: same type and equal contents, numbers by float
equality. -/
def equals : Value → Value → Bool
  | number x, number y => x.beq y
  | boolean a, boolean b => a == b
  | string s, string t => s == t
  | _, _ => false

instance : BEq Value := ⟨equals⟩

/-- The number a value holds, if it is one. -/
def number? : Value → Option Binary64
  | number x => some x
  | _ => none

end Value

end Concatenative
