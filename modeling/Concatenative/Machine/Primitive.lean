import Concatenative.Machine.State
import Concatenative.Machine.Arithmetic

/-!
# Primitive operators

`Primitive.act` is what each built-in that runs no code does with its operands, given in push
order, and what it yields to be pushed:

* arithmetic, comparison and logic yield one value (`Binary.apply`), `not` the negated truth;
* `print` adds the operand's text to the output;
* `dup`, `swap`, `over` and `pick` rearrange their operands;
* `pop` drops the top item if there is one, `clear` drops all, `pack` replaces all by one string
  of their serialized texts joined by spaces;
* `range` yields the progression from a start toward an end in steps of the step's magnitude;
* `define-op`, `alias-op` and `del-op` change the operator table, `store`, `load` and `delete`
  the registers.

A primitive fails only by a fault of its operands, before it changes anything.
-/

namespace Concatenative

namespace Arity

/-- The number of operands taken before the operator runs. -/
def count : Arity → Nat
  | fixed n => n
  | variadic => 0

end Arity

/-- The largest arity an operator can have: the largest 64-bit word. -/
def arityBound : Nat := Nat.pow 2 64 - 1

/-- The arity an operand stands for: a non-negative integral number (capped at `arityBound`), or
the string `none`. -/
def parseArity (t : Token) : Except Error Arity :=
  match t.value with
  | .number x =>
    if (!x.negative || x.isZero) && x.isFinite && x.isIntegral then
      .ok (.fixed (min x.magnitudeFloor arityBound))
    else .error ⟨.invalidArity t.serialize, t.span⟩
  | .string "none" => .ok .variadic
  | _ => .error ⟨.invalidArity t.serialize, t.span⟩

/-- `count` numbers from `start` on, each `step` after the one before, added as floats. -/
def progression (start step : Binary64) (count : Nat) : List Binary64 :=
  (go count start #[]).toList
where
  go : Nat → Binary64 → Array Binary64 → Array Binary64
    | 0, _, acc => acc
    | n + 1, x, acc => go n (x.add step) (acc.push x)

namespace Range

/-- The number a `range` operand holds; `which` names the operand in the error. -/
def operand (t : Token) (which : String) : Except Error Binary64 :=
  match t.value with
  | .number x => .ok x
  | _ => .error ⟨.rangeOperand which, t.span⟩

/-- The values of `start end step range`: from `start` toward `end`, by the magnitude of `step`,
as many as whole steps fit between them. Start and end must be finite, the step finite and not
zero, and at most `rangeLimit` values may come out. -/
def values (caller start stop step : Token) : Except Error (List Binary64) := do
  let first ← operand start "start"
  let last ← operand stop "end"
  let stride := (← operand step "step").abs
  if !first.isFinite || !last.isFinite then
    throw ⟨.rangeNotFinite, caller.span⟩
  if stride.isZero || !stride.isFinite then
    throw ⟨.rangeBadStep, step.span⟩
  let steps := ((last.sub first).abs.div stride).floor
  if (Binary64.ofNat rangeLimit).lt steps then
    throw ⟨.rangeTooLong steps, step.span⟩
  let direction := (last.sub first).signum
  pure (progression first (direction.mul stride) steps.magnitudeFloor)

end Range

namespace Primitive

/-- Runs an operator that needs no evaluation on its operands, in push order, and returns what
it yields. -/
def act (p : Primitive) (caller : Token) (operands : List Token) : Exec (List Token) :=
  match p, operands with
  | noop, [] => pure []
  | binary op, [a, b] =>
    match op.apply a b with
    | .ok v => pure [Token.symbol v]
    | .error e => throw e
  | not, [a] => pure [Token.symbol (.boolean !a.truthy)]
  | print, [a] => do
    Exec.print a.text
    pure []
  | dup, [a] => pure [a, a]
  | swap, [a, b] => pure [b, a]
  | copySecond, [a, b] => pure [a, b, a]
  | pick, [a, b, c] => pure [a, b, c, a]
  | pop, _ => do
    let _ ← Exec.pop?
    pure []
  | clear, _ => do
    let _ ← Exec.drain
    pure []
  | range, [start, stop, step] =>
    match Range.values caller start stop step with
    | .ok xs => pure (xs.map fun x => Token.symbol (.number x))
    | .error e => throw e
  | defineOp, [name, arity, code] =>
    match parseArity arity with
    | .ok a => do
      modify fun m => { m with ops := m.ops.insert name.text ⟨a, .defined code⟩ }
      pure []
    | .error e => throw e
  | aliasOp, [old, new] => do
    match (← get).ops.get? old.text with
    | some op =>
      modify fun m => { m with ops := m.ops.insert new.text op }
      pure []
    | none => Exec.fail (.notAnOperator old.text) old.span
  | delOp, [name] => do
    modify fun m => { m with ops := m.ops.erase name.text }
    pure []
  | store, [val, name] => do
    modify fun m => { m with memory := m.memory.insert name.text val }
    pure []
  | load, [name] => do
    pure ((← get).memory.get? name.text).toList
  | delete, [name] => do
    modify fun m => { m with memory := m.memory.erase name.text }
    pure []
  | pack, _ => do
    let all ← Exec.drain
    pure [Token.symbol (.string (" ".intercalate (all.map Token.serialize)))]
  | p, given => Exec.fail (.operandCount caller.serialize given.length p.arity.count) caller.span

end Primitive

end Concatenative
