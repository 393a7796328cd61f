import Concatenative.Machine.Stack
import Concatenative.Machine.Operator
import Concatenative.Error

/-!
# The machine

A machine holds the operand stack, the live operator table, the registers, the lines printed so
far and the counter that numbers evaluations for renaming. Evaluation runs in `Exec`: it may
fail with an `Error`, and the machine's state is kept either way, so a failing operator leaves
the state as it found it at the failure.

Each operation has an equation for what running it on a machine gives (`Exec.run_push`, ...), and
`Exec.run_bind_of_ok` and `Exec.run_bind_of_error` run a sequence whose first step is known.
-/

namespace Concatenative

/-- The state of an evaluation. -/
structure Machine where
  stack : Stack Token := {}
  ops : Table := Table.standard
  memory : Directory Token := {}
  output : Array String := #[]
  uid : Nat := 0
  deriving Inhabited

/-- A computation on a machine that may fail; the state survives a failure. -/
abbrev Exec := ExceptT Error (StateM Machine)

namespace Exec

/-- Fails with `fault` at `span`. -/
def fail {α : Type} (fault : Fault) (span : Option Span) : Exec α :=
  throw ⟨fault, span⟩

/-- Puts a token on the stack. -/
def push (t : Token) : Exec Unit :=
  modify fun m => { m with stack := m.stack.push t }

/-- Puts tokens on the stack in order. -/
def pushAll (ts : List Token) : Exec Unit :=
  modify fun m => { m with stack := m.stack.pushAll ts }

/-- Takes the top token off the stack, if there is one. -/
def pop? : Exec (Option Token) := do
  let m ← get
  match m.stack.pop? with
  | some (t, rest) =>
    set { m with stack := rest }
    pure (some t)
  | none => pure none

/-- Takes every token off the stack, bottom first. -/
def drain : Exec (List Token) := do
  let m ← get
  set { m with stack := ({} : Stack Token) }
  pure m.stack.toList

/-- Adds a line to the output. -/
def print (line : String) : Exec Unit :=
  modify fun m => { m with output := m.output.push line }

/-- The next evaluation number, counted up. -/
def takeUid : Exec Nat := do
  let m ← get
  set { m with uid := m.uid + 1 }
  pure m.uid

/-- The operator under `name` in the live table. -/
def lookup? (name : String) : Exec (Option Operator) := do
  pure ((← get).ops.get? name)

-- ---------------------------------------------------------------------------
-- Running computations
-- ---------------------------------------------------------------------------

variable {α β : Type}

theorem run_bind_of_ok {x : Exec α} {f : α → Exec β} {m m' : Machine} {a : α}
    (h : x.run.run m = (.ok a, m')) : (x >>= f).run.run m = (f a).run.run m' := by
  simp only [ExceptT.run_bind, StateT.run_bind, h]
  rfl

theorem run_bind_of_error {x : Exec α} {f : α → Exec β} {m m' : Machine} {e : Error}
    (h : x.run.run m = (.error e, m')) : (x >>= f).run.run m = (.error e, m') := by
  simp only [ExceptT.run_bind, StateT.run_bind, h]
  rfl

theorem run_get_bind (f : Machine → Exec β) (m : Machine) :
    ((get : Exec Machine) >>= f).run.run m = (f m).run.run m :=
  rfl

@[simp] theorem run_pure (a : α) (m : Machine) : (pure a : Exec α).run.run m = (.ok a, m) :=
  rfl

@[simp] theorem run_throw (e : Error) (m : Machine) :
    (throw e : Exec α).run.run m = (.error e, m) :=
  rfl

@[simp] theorem run_fail (fault : Fault) (span : Option Span) (m : Machine) :
    (fail fault span : Exec α).run.run m = (.error ⟨fault, span⟩, m) :=
  rfl

@[simp] theorem run_modify (g : Machine → Machine) (m : Machine) :
    (modify g : Exec Unit).run.run m = (.ok (), g m) :=
  rfl

@[simp] theorem run_push (t : Token) (m : Machine) :
    (push t).run.run m = (.ok (), { m with stack := m.stack.push t }) :=
  rfl

@[simp] theorem run_pushAll (ts : List Token) (m : Machine) :
    (pushAll ts).run.run m = (.ok (), { m with stack := m.stack.pushAll ts }) :=
  rfl

@[simp] theorem run_drain (m : Machine) :
    drain.run.run m = (.ok m.stack.toList, { m with stack := ({} : Stack Token) }) :=
  rfl

@[simp] theorem run_print (line : String) (m : Machine) :
    (print line).run.run m = (.ok (), { m with output := m.output.push line }) :=
  rfl

@[simp] theorem run_takeUid (m : Machine) :
    takeUid.run.run m = (.ok m.uid, { m with uid := m.uid + 1 }) :=
  rfl

@[simp] theorem run_lookup? (name : String) (m : Machine) :
    (lookup? name).run.run m = (.ok (m.ops.get? name), m) :=
  rfl

end Exec

end Concatenative
