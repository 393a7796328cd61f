import Concatenative.Machine.Evaluation

/-!
# Sessions and runs

A session keeps one machine across programs entered one after another: the stack, the
registers, the operator table and the evaluation counter carry over, also past a program that
failed, which leaves the state as the failing operator found it. `run` evaluates one program on
a fresh machine and reports what it left behind.
-/

namespace Concatenative

namespace Machine

/-- Evaluates a program on the machine: the top of the stack or the error, and the machine
afterwards. -/
def enter (m : Machine) (source : String) : Except Error (Option Token) × Machine :=
  (Machine.evaluate source).run.run m

/-- The lines printed so far, and the machine with none. -/
def takeOutput (m : Machine) : List String × Machine :=
  (m.output.toList, { m with output := #[] })

end Machine

/-- Everything a finished program leaves behind. -/
structure Outcome where
  /-- The value on top of the stack, if any. -/
  value : Option Value
  /-- The stack, bottom first. -/
  stack : List Token
  /-- The registers, by name. -/
  memory : List (String × Token)
  /-- The lines written by `print`. -/
  output : List String

/-- Runs a program on a fresh machine. -/
def run (source : String) : Except Error Outcome :=
  match ({} : Machine).enter source with
  | (.ok top, m) =>
    .ok ⟨top.map (·.value), m.stack.toList, m.memory.entries, m.output.toList⟩
  | (.error e, _) => .error e

end Concatenative
