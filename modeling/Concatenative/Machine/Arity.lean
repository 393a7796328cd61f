/-!
# Arities

An operator either takes a fixed number of operands from the stack before it runs, or takes
none and reads the stack itself (`none` in programs).
-/

namespace Concatenative

/-- How many operands an operator takes before it runs. -/
inductive Arity where
  | fixed (n : Nat)
  | variadic
  deriving DecidableEq, Repr, Inhabited

namespace Arity

/-- The arity as programs write it: the number, or `none`. -/
def text : Arity → String
  | fixed n => toString n
  | variadic => "none"

end Arity

end Concatenative
