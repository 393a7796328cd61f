import Concatenative.Machine.Operator
import Concatenative.Error

/-!
# Operators of two operands

`Binary.apply` computes the value of an arithmetic, comparison or logic operator from its two
operand tokens, in push order.

* Arithmetic is on floats. `+` joins the texts instead when either operand is a string; `%` is
  the remainder of the quotient truncated toward zero, with the sign of the dividend; `xor`
  works on both operands' integer parts as 32-bit two's-complement words. An operand that is
  not a number is a type mismatch at that operand, the left one checked first.
* `==` compares values (numbers as floats). The orderings compare numbers as floats (NaN is
  unordered), strings character by character and booleans with false first; values of different
  types are a type mismatch at the right operand.
* `and` gives the left value when it is false, else the right; `or` the left value when it is
  true, else the right.
-/

namespace Concatenative

namespace Binary

/-- The number a token holds, or a type mismatch at the token. -/
def operand (t : Token) : Except Error Binary64 :=
  match t.value with
  | .number x => .ok x
  | v => .error ⟨.notANumber v.typeName t.serialize, t.span⟩

/-- The numbers two tokens hold, the left one checked first. -/
def operands (a b : Token) : Except Error (Binary64 × Binary64) := do
  let x ← operand a
  let y ← operand b
  pure (x, y)

/-- The order of two numbers as floats, none when either is NaN. -/
def numberOrder (x y : Binary64) : Option Ordering :=
  if x.lt y then some .lt else if y.lt x then some .gt else if x.beq y then some .eq else none

/-- The order of two values of one type; values of two types are a type mismatch at `b`. -/
def order (a b : Token) : Except Error (Option Ordering) :=
  match a.value, b.value with
  | .number x, .number y => .ok (numberOrder x y)
  | .string s, .string t => .ok (some (compare s t))
  | .boolean p, .boolean q => .ok (some (compare p q))
  | u, v => .error ⟨.incomparable u.typeName a.serialize v.typeName b.serialize, b.span⟩

/-- `x xor y` on the integer parts as 32-bit two's-complement words. -/
def xorWords (x y : Binary64) : Binary64 :=
  Binary64.ofInt (Binary64.signed32 (Binary64.word32 x ^^^ Binary64.word32 y))

/-- The value of the operator on two operands, in push order. -/
def apply (op : Binary) (a b : Token) : Except Error Value :=
  match op with
  | sum =>
    match a.value, b.value with
    | .string _, _ | _, .string _ => .ok (.string (a.text ++ b.text))
    | _, _ => do let (x, y) ← operands a b; pure (.number (x.add y))
  | difference => do let (x, y) ← operands a b; pure (.number (x.sub y))
  | product => do let (x, y) ← operands a b; pure (.number (x.mul y))
  | quotient => do let (x, y) ← operands a b; pure (.number (x.div y))
  | power => do let (x, y) ← operands a b; pure (.number (x.pow y))
  | remainder => do let (x, y) ← operands a b; pure (.number (x.rem y))
  | xor => do let (x, y) ← operands a b; pure (.number (xorWords x y))
  | equal => .ok (.boolean (a.value == b.value))
  | less => do pure (.boolean ((← order a b) == some .lt))
  | greater => do pure (.boolean ((← order a b) == some .gt))
  | atLeast => do
    let o ← order a b
    pure (.boolean (o == some .gt || o == some .eq))
  | atMost => do
    let o ← order a b
    pure (.boolean (o == some .lt || o == some .eq))
  | and => .ok (if a.truthy then b.value else a.value)
  | or => .ok (if a.truthy then a.value else b.value)

end Binary

end Concatenative
