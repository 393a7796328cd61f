import Concatenative.Syntax.Token
import Concatenative.Machine.Arity

/-!
# Errors

An error is a cause (`Fault`) and the span it is attributed to. Each cause belongs to one of
nine error codes (`Fault.code`) and has one message (`Fault.message`); an error is shown as
`code at start..stop: message`. Errors raised while evaluating nested or edited text are
moved onto the user's program with `Error.relocate`.

Beside the nine codes of the language there is `recursionLimit`, for an evaluation nested
deeper than the machine allows, and `panic`, for a request the machine does not survive: an
operand buffer larger than it can allocate. A panic ends the whole request; it is no error the
language reports.
-/

namespace Concatenative

/-- The kind of an error. -/
inductive ErrorCode where
  | unmatchedParentheses
  | unrecognizedInput
  | notAnOperator
  | stackUnderflow
  | missingArguments
  | arityMismatch
  | contractViolation
  | typeMismatch
  | internalError
  | recursionLimit
  | panic
  deriving DecidableEq, Repr, Inhabited

namespace ErrorCode

/-- The name of an error code. -/
def text : ErrorCode → String
  | unmatchedParentheses => "unmatched parentheses"
  | unrecognizedInput => "unrecognized input"
  | notAnOperator => "not an operator"
  | stackUnderflow => "stack underflow"
  | missingArguments => "missing arguments"
  | arityMismatch => "arity mismatch"
  | contractViolation => "contract violation"
  | typeMismatch => "type mismatch"
  | internalError => "internal error"
  | recursionLimit => "recursion limit"
  | panic => "panic"

end ErrorCode

/-- Why an evaluation failed. Operators are named by their serialized caller token, values
shown through `Token.serialize`. -/
inductive Fault where
  /-- An opening parenthesis has no matching close. -/
  | unmatchedParentheses
  /-- No rule matches here; `preview` is the text from here, at most 32 characters. -/
  | unrecognizedInput (preview : String)
  /-- A word used as an operator is not in the table. -/
  | notAnOperator (name : String)
  /-- Fewer items than the operator's arity were on the stack; `last` is the deepest one. -/
  | underflow (operator : String) (wanted present : Nat) (last : Option String)
  /-- An operator needed one more item and the stack was empty. -/
  | exhausted (operator : String) (last : Option String)
  /-- A combinator found no operator name on the stack. -/
  | missingArguments (operator : String) (names : List String) (present : Nat)
  /-- A combinator's operator does not take the number of operands the combinator supplies. -/
  | arityMismatch (combinator : String) (wanted : Nat) (name : String) (arity : Arity)
  /-- A combinator's operator left more than one value. -/
  | tooManyResults (combinator name : String)
  /-- A combinator's operator left no value. -/
  | noResult (combinator name : String)
  /-- `range` was given an infinite or NaN start or end. -/
  | rangeNotFinite
  /-- `range` was given a zero, infinite or NaN step. -/
  | rangeBadStep
  /-- `range` would push more than `2 ^ 24` values. -/
  | rangeTooLong (steps : Binary64)
  /-- An arithmetic operand is not a number. -/
  | notANumber (typeName shown : String)
  /-- A `range` operand (`start`, `end` or `step`) is not a number. -/
  | rangeOperand (which : String)
  /-- Values of different types were compared. -/
  | incomparable (leftType leftShown rightType rightShown : String)
  /-- An arity operand is neither a non-negative integer nor `none`. -/
  | invalidArity (shown : String)
  /-- A local reached execution without being renamed. -/
  | unreplacedLocal (name : String)
  /-- An operator was handed a number of operands it does not read. -/
  | operandCount (operator : String) (given reads : Nat)
  /-- Evaluations were nested more than `depth` deep. -/
  | tooDeep (depth : Nat)
  /-- An operator's operands would need a buffer larger than the machine can allocate. -/
  | capacityOverflow
  deriving Inhabited

/-- The largest number of values one `range` may push. -/
def rangeLimit : Nat := Nat.pow 2 24

namespace Fault

/-- The code of each cause. -/
def code : Fault → ErrorCode
  | unmatchedParentheses => .unmatchedParentheses
  | unrecognizedInput _ => .unrecognizedInput
  | notAnOperator _ => .notAnOperator
  | underflow .. | exhausted .. => .stackUnderflow
  | missingArguments .. => .missingArguments
  | arityMismatch .. => .arityMismatch
  | tooManyResults .. | noResult .. | rangeNotFinite | rangeBadStep | rangeTooLong _ =>
    .contractViolation
  | notANumber .. | rangeOperand _ | incomparable .. | invalidArity _ => .typeMismatch
  | unreplacedLocal _ | operandCount .. => .internalError
  | tooDeep _ => .recursionLimit
  | capacityOverflow => .panic

/-- `word` when `n` is one, `words` otherwise. -/
def plural (n : Nat) (one many : String) : String :=
  if n = 1 then one else many

/-- The line that names the last item taken from the stack, if any. -/
def lastLine : Option String → String
  | some s => "\nLast item was: " ++ s
  | none => ""

/-- The message of each cause. -/
def message : Fault → String
  | unmatchedParentheses => "Unmatched parentheses"
  | unrecognizedInput preview => "Unrecognized grammar starting here: " ++ preview
  | notAnOperator name => "\"" ++ name ++ "\" is not an operator"
  | underflow op wanted present last =>
    "\"" ++ op ++ "\" expected " ++ toString wanted ++ " " ++ plural wanted "item" "items"
      ++ " on the stack, but only " ++ toString present ++ " " ++ plural present "was" "were"
      ++ " present." ++ lastLine last
  | exhausted op last =>
    "\"" ++ op ++ "\" expected another item on the stack, but it was empty." ++ lastLine last
  | missingArguments op names present =>
    "\"" ++ op ++ "\" expected at least " ++ toString names.length
      ++ " items on the stack, but only " ++ toString present
      ++ " items were present.\nIt expects arguments "
      ++ ", ".intercalate (names.map fun n => "\"" ++ n ++ "\"") ++ "."
  | arityMismatch combinator wanted name arity =>
    "A " ++ combinator ++ " operator must accept " ++ toString wanted ++ " "
      ++ plural wanted "operand" "operands" ++ "; \"" ++ name ++ "\" requires " ++ arity.text
  | tooManyResults combinator name =>
    combinator.capitalize ++ " operator \"" ++ name ++ "\" left too many values on the stack."
  | noResult combinator name =>
    combinator.capitalize ++ " operator \"" ++ name ++ "\" didn't leave a value on the stack."
  | rangeNotFinite => "range operator expects finite values for start and end"
  | rangeBadStep => "range operator expects a non-zero finite step"
  | rangeTooLong steps =>
    "range operator would produce " ++ Spelling.message.render steps ++ " values, the limit is "
      ++ toString rangeLimit
  | notANumber typeName shown => "expected a number but found " ++ typeName ++ " " ++ shown
  | rangeOperand which => "range operator expects numerical value for " ++ which
  | incomparable lt ls rt rs => "cannot compare " ++ lt ++ " " ++ ls ++ " with " ++ rt ++ " " ++ rs
  | invalidArity shown =>
    "Invalid arity value " ++ shown ++ "\nMust be a non-negative integer or \"none\"."
  | unreplacedLocal name => "Internal error: unreplaced local " ++ name
  | operandCount op given reads =>
    "\"" ++ op ++ "\" was given " ++ toString given ++ " operands but reads " ++ toString reads
  | tooDeep depth => "evaluations nested more than " ++ toString depth ++ " deep"
  | capacityOverflow => "capacity overflow"

end Fault

/-- An error: its cause and the span of the program it is attributed to. -/
structure Error where
  fault : Fault
  span : Option Span := none
  deriving Inhabited

namespace Error

/-- The error's code. -/
def code (e : Error) : ErrorCode :=
  e.fault.code

/-- The error's message. -/
def message (e : Error) : String :=
  e.fault.message

/-- Maps the span through `locate`; an error that has no span keeps none. -/
def relocate (e : Error) (locate : Span → Option Span) : Error :=
  { e with span := e.span.bind locate }

/-- `code`, then ` at start..stop` when there is a span, then `: message` when there is one. -/
def display (e : Error) : String :=
  let place := match e.span with
    | some s => " at " ++ toString s.start ++ ".." ++ toString s.stop
    | none => ""
  let msg := e.message
  e.code.text ++ place ++ (if msg.isEmpty then "" else ": " ++ msg)

/-- The display inside `Error { … }`. -/
def debug (e : Error) : String :=
  "Error \x7b " ++ e.display ++ " \x7d"

end Error

end Concatenative
