import Concatenative.Machine.Primitive
import Concatenative.Syntax.Substitution

/-!
# Evaluation

A text is evaluated token by token as it is scanned, against the live operator table: a symbol
is pushed, an operator token is looked up and invoked. Before that, the evaluation takes the
next number from the machine's counter and renames every local used at the top level of its
text, `@x` becoming `@x@n`, also inside the text's quoted code (`hygiene`). Locals that appear
only inside quoted code belong to that code and are renamed when it runs.

Invoking an operator of fixed arity first takes its operands off the stack; too few is a stack
underflow, which leaves the stack empty, and an arity too large for the buffer that holds the
operands is a panic, which leaves the stack as it was. A built-in then acts on the operands and its results
are pushed; defined code gets its operands back on the stack and is evaluated.

Spans of scanned tokens are mapped back onto the user's program through the text's `Origin`;
quoted code remembers where its text sits, so that errors inside it point into the program.

Evaluation nests (`eval`, `if`, the combinators, defined operators); each invocation may nest
`depthLimit` levels less deep than its caller, which bounds every evaluation.
-/

namespace Concatenative

/-- How deep invocations may nest. -/
def depthLimit : Nat := 1000000

/-- The bytes a token takes in memory. -/
def tokenBytes : Nat := 64

/-- The most operands one invocation may take. The operands are gathered in a buffer sized for
the whole arity before the first is taken off the stack, and no buffer may exceed `2 ^ 63 - 8`
bytes (the largest signed 64-bit word, less a token's alignment of eight): a larger arity is a
panic, whatever the stack holds. -/
def operandLimit : Nat := (Nat.pow 2 63 - 8) / tokenBytes

/-- Every built-in takes at most three operands, far within `operandLimit`. -/
theorem Builtin.arity_count_le_operandLimit (b : Builtin) : b.arity.count ≤ operandLimit := by
  have h3 : b.arity.count ≤ 3 := by
    cases b with
    | primitive p => cases p <;> simp [Builtin.arity, Primitive.arity, Arity.count]
    | control c => cases c <;> simp [Builtin.arity, Control.arity, Arity.count]
  exact Nat.le_trans h3 (by decide)

namespace Token

/-- Where the text of a token evaluated as code came from: the origin of quoted code, the token's
own span for any other scanned token, and nowhere for a token made by an operator. -/
def textOrigin (t : Token) : Origin :=
  match t.origin, t.span with
  | some o, _ => o
  | none, some s => .anchored s
  | none, none => .detached

end Token

namespace Evaluation

/-- Renames the locals used at the top level of `text` to `name@uid`, in quoted code too, and
records the edits. Errors are those of scanning the text's top level, moved through `origin`;
a text without top-level locals is left as it is. -/
def hygiene (ops : Table) (text : String) (uid : Nat) (origin : Origin) :
    Except Error (String × Edits) :=
  let vocab := ops.contains
  match Scan.tokens Rule.standard vocab text with
  | (_, some e) => .error (e.relocate origin.locate)
  | (toks, none) =>
    let locals := (toks.filter (·.kind == .localName)).map Token.text
    if locals.isEmpty then .ok (text, {})
    else
      let rename (t : Token) : Option String :=
        if t.kind == .localName && locals.contains t.text then some (t.text ++ "@" ++ toString uid)
        else none
      match (Substitution.run Rule.standard vocab rename true text).2 with
      | .error e => .error (e.relocate origin.locate)
      | .ok r => .ok r

/-- A token scanned from a renamed text, placed in the user's program: its span mapped back, and
for quoted code the origin of its text. -/
def place (edits : Edits) (origin : Origin) (t : Token) : Token :=
  let located := t.span.bind (Origin.within 0 edits origin).locate
  if t.isCode then
    { t with span := located, origin := t.span.map fun s => .within s.start edits origin }
  else { t with span := located }

/-- Takes an operator's operands off the stack, in push order. With fewer items than the arity
all of them are dropped and the error names the deepest as the last one taken. An arity beyond
`operandLimit` panics before anything is taken. -/
def collect (arity : Arity) (caller : Token) : Exec (List Token) := do
  match arity with
  | .variadic => pure []
  | .fixed n =>
    if operandLimit < n then Exec.fail .capacityOverflow caller.span
    else
      let m ← get
      match m.stack.popN? n with
      | some (operands, rest) =>
        set { m with stack := rest }
        pure operands
      | none =>
        let items := m.stack.toList
        set { m with stack := ({} : Stack Token) }
        Exec.fail (.underflow caller.serialize n items.length (items.head?.map Token.serialize))
          caller.span

/-- The operator a combinator applies, named by the top item, and a token naming it where the
name was written. -/
def target (caller : Token) (combinator : String) (wanted : Nat) : Exec (Operator × Token) := do
  match ← Exec.pop? with
  | none =>
    Exec.fail (.missingArguments caller.serialize ["op"] (← get).stack.size) caller.span
  | some name =>
    let named := (Token.operator name.text).placed name.span
    match ← Exec.lookup? name.text with
    | none => Exec.fail (.notAnOperator name.text) named.span
    | some op =>
      if op.arity = .fixed wanted then pure (op, named)
      else Exec.fail (.arityMismatch combinator wanted name.text op.arity) named.span

/-!
## Evaluation in any computation

The evaluation functions are written once, for any computation `M` that can run the machine's own
steps (`lift`) and take the next evaluation number (`number`). Evaluation proper runs on the
machine itself and takes the number from the machine's counter (`Exec.takeUid`); the same
functions run in a computation that also keeps a record beside the machine.
-/

namespace Lifted

variable {M : Type → Type} [Monad M] (lift : {α : Type} → Exec α → M α) (number : M Nat)

set_option linter.unusedVariables false in
mutual

/-- Invokes an operator on behalf of `caller`: operands first, then the behaviour, then its
results. -/
def invoke (fuel : Nat) (op : Operator) (caller : Token) : M Unit :=
  match fuel with
  | 0 => lift (Exec.fail (.tooDeep depthLimit) caller.span)
  | fuel + 1 => do
    let operands ← lift (collect op.arity caller)
    match op.behaviour with
    | .native (.primitive p) => lift (Exec.pushAll (← lift (p.act caller operands)))
    | .native (.control c) => lift (Exec.pushAll (← control fuel c caller operands))
    | .defined code =>
      lift (Exec.pushAll operands)
      let _ ← evaluateToken fuel code
termination_by (fuel, 0, 0)

/-- The built-ins that run code. `if` runs its condition, takes the value it left and runs one
branch; `eval` runs its operand; the combinators apply the operator named on top of the stack
to the items below it. -/
def control (fuel : Nat) (c : Control) (caller : Token) (operands : List Token) :
    M (List Token) :=
  match c, operands with
  | .ifElse, [cond, yes, no] => do
    let _ ← evaluateToken fuel cond
    match ← lift Exec.pop? with
    | none => lift (Exec.fail (.exhausted caller.serialize (some cond.serialize)) caller.span)
    | some v =>
      let _ ← evaluateToken fuel (if v.truthy then yes else no)
      pure []
  | .eval, [code] => do
    let _ ← evaluateToken fuel code
    pure []
  | .reduce, _ => do
    let (op, name) ← lift (target caller "reduce" 2)
    match ← lift Exec.drain with
    | [] => pure []
    | first :: rest => pure [← fold fuel op name first rest]
  | .map, _ => do
    let (op, name) ← lift (target caller "map" 1)
    mapAll fuel op name (← lift Exec.drain)
  | .filter, _ => do
    let (op, name) ← lift (target caller "filter" 1)
    filterAll fuel op name (← lift Exec.drain)
  | c, given =>
    lift (Exec.fail (.operandCount caller.serialize given.length c.arity.count) caller.span)
termination_by (fuel, 4, 0)

/-- Evaluates the text of a token (`Token.source`) from where it came from. -/
def evaluateToken (fuel : Nat) (t : Token) : M (Option Token) :=
  evaluateIn fuel t.source t.textOrigin
termination_by (fuel, 3, 0)

/-- Evaluates a text that came from `origin` and returns the top of the stack afterwards. -/
def evaluateIn (fuel : Nat) (text : String) (origin : Origin) : M (Option Token) := do
  let uid ← number
  match hygiene (← lift get).ops text uid origin with
  | .error e => lift (throw e)
  | .ok (renamed, edits) =>
    runFrom fuel edits origin (Cursor.start renamed)
    pure (← lift get).stack.peek?
termination_by (fuel, 2, 0)

/-- Scans and runs the rest of a renamed text, token by token. -/
def runFrom (fuel : Nat) (edits : Edits) (origin : Origin) (c : Cursor) : M Unit := do
  match h : Scan.next Rule.standard (← lift get).ops.contains c with
  | .ok none => pure ()
  | .error e => lift (throw (e.relocate (Origin.within 0 edits origin).locate))
  | .ok (some (t, c')) =>
    have : c'.rest.length < c.rest.length := Scan.next_rest_length h
    execute fuel (place edits origin t)
    runFrom fuel edits origin c'
termination_by (fuel, 1, c.rest.length)

/-- Runs one token: a symbol is pushed, an operator invoked; a local cannot run. -/
def execute (fuel : Nat) (t : Token) : M Unit :=
  match t.kind with
  | .symbol => lift (Exec.push t)
  | .operator => do
    match ← lift (Exec.lookup? t.text) with
    | some op => invoke fuel op t
    | none => lift (Exec.fail (.notAnOperator t.text) t.span)
  | .localName => lift (Exec.fail (.unreplacedLocal t.text) t.span)
termination_by (fuel, 0, 1)

/-- Invokes a combinator's operator on a stack holding only its operands and takes back its
single result. -/
def apply (fuel : Nat) (op : Operator) (name : Token) (combinator : String) : M Token := do
  invoke fuel op name
  match ← lift Exec.drain with
  | [r] => pure r
  | [] => lift (Exec.fail (.noResult combinator name.text) name.span)
  | _ => lift (Exec.fail (.tooManyResults combinator name.text) name.span)
termination_by (fuel, 0, 2)

/-- `reduce`: folds the items from the left, the accumulator and the next item as operands. -/
def fold (fuel : Nat) (op : Operator) (name : Token) (acc : Token) : List Token → M Token
  | [] => pure acc
  | x :: xs => do
    lift (Exec.push acc)
    lift (Exec.push x)
    let acc ← apply fuel op name "reduce"
    fold fuel op name acc xs
termination_by xs => (fuel, 1, xs.length)

/-- `map`: the operator's result for each item, in order. -/
def mapAll (fuel : Nat) (op : Operator) (name : Token) : List Token → M (List Token)
  | [] => pure []
  | x :: xs => do
    lift (Exec.push x)
    let r ← apply fuel op name "map"
    let rs ← mapAll fuel op name xs
    pure (r :: rs)
termination_by xs => (fuel, 1, xs.length)

/-- `filter`: the items for which the operator's result is true, in order. -/
def filterAll (fuel : Nat) (op : Operator) (name : Token) : List Token → M (List Token)
  | [] => pure []
  | x :: xs => do
    lift (Exec.push x)
    let r ← apply fuel op name "filter"
    let rs ← filterAll fuel op name xs
    pure (if r.truthy then x :: rs else rs)
termination_by xs => (fuel, 1, xs.length)

end

end Lifted

/-! Evaluation proper runs on the machine itself and numbers evaluations by its counter. -/

/-- Invokes an operator on behalf of `caller`: operands first, then the behaviour, then its
results. -/
@[reducible] def invoke (fuel : Nat) (op : Operator) (caller : Token) : Exec Unit :=
  Lifted.invoke (fun x => x) Exec.takeUid fuel op caller

/-- The built-ins that run code: `if`, `eval` and the combinators. -/
@[reducible] def control (fuel : Nat) (c : Control) (caller : Token) (operands : List Token) :
    Exec (List Token) :=
  Lifted.control (fun x => x) Exec.takeUid fuel c caller operands

/-- Evaluates the text of a token (`Token.source`) from where it came from. -/
@[reducible] def evaluateToken (fuel : Nat) (t : Token) : Exec (Option Token) :=
  Lifted.evaluateToken (fun x => x) Exec.takeUid fuel t

/-- Evaluates a text that came from `origin` and returns the top of the stack afterwards. -/
@[reducible] def evaluateIn (fuel : Nat) (text : String) (origin : Origin) : Exec (Option Token) :=
  Lifted.evaluateIn (fun x => x) Exec.takeUid fuel text origin

/-- Scans and runs the rest of a renamed text, token by token. -/
@[reducible] def runFrom (fuel : Nat) (edits : Edits) (origin : Origin) (c : Cursor) : Exec Unit :=
  Lifted.runFrom (fun x => x) Exec.takeUid fuel edits origin c

/-- Runs one token: a symbol is pushed, an operator invoked; a local cannot run. -/
@[reducible] def execute (fuel : Nat) (t : Token) : Exec Unit :=
  Lifted.execute (fun x => x) Exec.takeUid fuel t

/-- Invokes a combinator's operator and takes back its single result. -/
@[reducible] def apply (fuel : Nat) (op : Operator) (name : Token) (combinator : String) :
    Exec Token :=
  Lifted.apply (fun x => x) Exec.takeUid fuel op name combinator

/-- `reduce`: folds the items from the left. -/
@[reducible] def fold (fuel : Nat) (op : Operator) (name : Token) (acc : Token)
    (xs : List Token) : Exec Token :=
  Lifted.fold (fun x => x) Exec.takeUid fuel op name acc xs

/-- `map`: the operator's result for each item, in order. -/
@[reducible] def mapAll (fuel : Nat) (op : Operator) (name : Token) (xs : List Token) :
    Exec (List Token) :=
  Lifted.mapAll (fun x => x) Exec.takeUid fuel op name xs

/-- `filter`: the items for which the operator's result is true, in order. -/
@[reducible] def filterAll (fuel : Nat) (op : Operator) (name : Token) (xs : List Token) :
    Exec (List Token) :=
  Lifted.filterAll (fun x => x) Exec.takeUid fuel op name xs

end Evaluation

namespace Machine

/-- Evaluates program text on the machine and returns the top of the stack afterwards. -/
def evaluate (text : String) : Exec (Option Token) :=
  Evaluation.evaluateIn depthLimit text .source

end Machine

end Concatenative
