import Concatenative.Proofs.Running

/-!
# Invoking operators

Every operator runs through `Evaluation.invoke`. An operator of fixed arity first takes its
operands off the stack, the top one last; a built-in then runs on the items below them, given
the operands in the order they were pushed, and what it yields is pushed, while defined code
gets its operands back and runs on the stack as it was. Too few items is a stack underflow at the
caller, which empties the stack; an arity too large for the operands' buffer is a panic, checked
first, which leaves everything as it was. This module states that protocol through the stack's view from
the bottom (`Stack.toList`), and what a built-in that fails leaves behind.

## Main results

* `Evaluation.invoke_protocol` — what invoking an operator does, for every operator and every
  machine: the panic of an arity too large for the operands' buffer, the underflow and its
  report, the stack a built-in sees and the operands it is given, and defined code run on the
  unchanged stack. A variadic operator takes nothing first.
* `Evaluation.failed_primitive_consumes_operands` — a built-in that runs no code and fails has
  taken its operands and nothing else (the whole stack when there were too few), and `pop`,
  `clear` and `pack` never fail.

Both are stated with depth left to invoke (`fuel + 1`); with none left, invoking fails at once.
-/

namespace Concatenative

-- ---------------------------------------------------------------------------
-- Stacks seen from the bottom
-- ---------------------------------------------------------------------------

namespace Stack

variable {α : Type}

@[simp] theorem ofList_toList (s : Stack α) : ofList s.toList = s := by
  simp [ofList, toList]

/-- The top `n` items are the last `n` of the view, and the rest its first items. -/
theorem popN?_eq (s : Stack α) (n : Nat) :
    s.popN? n = if n ≤ s.toList.length then
      some (s.toList.drop (s.toList.length - n), ofList (s.toList.take (s.toList.length - n)))
    else none := by
  rw [popN?, size_eq_length]
  by_cases h : n ≤ s.toList.length
  · rw [if_pos h, if_pos h]
    have h' : n ≤ s.top.length := by simpa [toList] using h
    simp only [toList, ofList, List.length_reverse, List.drop_reverse, List.take_reverse,
      List.reverse_reverse, Nat.sub_sub_self h']
  · rw [if_neg h, if_neg h]

theorem push_of_empty {s : Stack α} (hs : s.toList = []) (a : α) : s.push a = ofList [a] := by
  rw [← ofList_toList (s.push a), toList_push, hs, List.nil_append]

end Stack

-- ---------------------------------------------------------------------------
-- Computations that never fail, or fail without a change
-- ---------------------------------------------------------------------------

namespace Exec

variable {α β : Type}

/-- `x` fails only on the machine it started from: a failure changes nothing. -/
def FailsInPlace (x : Exec α) : Prop :=
  ∀ m e m', x.run.run m = (.error e, m') → m' = m

/-- `x` never fails. -/
def Succeeds (x : Exec α) : Prop :=
  ∀ m, ∃ a m', x.run.run m = (.ok a, m')

theorem run_bind_congr {x y : Exec α} {f : α → Exec β} {m : Machine}
    (h : x.run.run m = y.run.run m) : (x >>= f).run.run m = (y >>= f).run.run m := by
  simp only [ExceptT.run_bind, StateT.run_bind, h]

theorem Succeeds.failsInPlace {x : Exec α} (h : Succeeds x) : FailsInPlace x := by
  intro m e m' hx
  obtain ⟨a, m'', h'⟩ := h m
  rw [h'] at hx
  cases hx

theorem succeeds_pure (a : α) : Succeeds (pure a : Exec α) :=
  fun m => ⟨a, m, rfl⟩

theorem succeeds_modify (g : Machine → Machine) : Succeeds (modify g : Exec Unit) :=
  fun m => ⟨(), g m, rfl⟩

theorem Succeeds.bind {x : Exec α} {f : α → Exec β} (hx : Succeeds x)
    (hf : ∀ a, Succeeds (f a)) : Succeeds (x >>= f) := by
  intro m
  obtain ⟨a, m₁, h₁⟩ := hx m
  rw [run_bind_of_ok h₁]
  exact hf a m₁

theorem Succeeds.get_bind {f : Machine → Exec α} (hf : ∀ m, Succeeds (f m)) :
    Succeeds (get >>= f) :=
  fun m => hf m m

theorem succeeds_pop? : Succeeds pop? := by
  refine Succeeds.get_bind fun m => ?_
  split
  · exact (succeeds_modify _).bind fun _ => succeeds_pure _
  · exact succeeds_pure _

theorem succeeds_drain : Succeeds drain :=
  Succeeds.get_bind fun _ => (succeeds_modify _).bind fun _ => succeeds_pure _

theorem succeeds_pushAll (ts : List Token) : Succeeds (pushAll ts) :=
  succeeds_modify _

theorem failsInPlace_throw (e : Error) : FailsInPlace (throw e : Exec α) := by
  intro m e' m' h
  cases h
  rfl

/-- A failure in place followed by steps that cannot fail fails in place. -/
theorem FailsInPlace.bind {x : Exec α} {f : α → Exec β} (hx : FailsInPlace x)
    (hf : ∀ a, Succeeds (f a)) : FailsInPlace (x >>= f) := by
  intro m e m' h
  rcases hrun : x.run.run m with ⟨e' | a, m₁⟩
  · rw [run_bind_of_error hrun] at h
    rw [← (Prod.mk.inj h).2]
    exact hx m e' m₁ hrun
  · rw [run_bind_of_ok hrun] at h
    obtain ⟨b, m₂, h₂⟩ := hf a m₁
    rw [h₂] at h
    cases h

theorem FailsInPlace.get_bind {f : Machine → Exec α} (hf : ∀ m, FailsInPlace (f m)) :
    FailsInPlace (get >>= f) :=
  fun m => hf m m

end Exec

-- ---------------------------------------------------------------------------
-- The invocation protocol
-- ---------------------------------------------------------------------------

namespace Evaluation

/-- Collecting operands through the stack's view: an arity beyond `operandLimit` panics at the
caller and changes nothing; otherwise the last `n` items in push order, the ones before them left
on the stack; with fewer items the stack is emptied and the caller underflows, reporting the
arity, the number of items and the deepest of them, the last one taken. A variadic arity takes
nothing. -/
theorem collect_run (arity : Arity) (caller : Token) (m : Machine) :
    (collect arity caller).run.run m =
      if operandLimit < arity.count then (.error ⟨.capacityOverflow, caller.span⟩, m)
      else if m.stack.toList.length < arity.count then
        (.error ⟨.underflow caller.serialize arity.count m.stack.toList.length
          (m.stack.toList.head?.map Token.serialize), caller.span⟩, { m with stack := {} })
      else
        (.ok (m.stack.toList.drop (m.stack.toList.length - arity.count)),
          { m with stack :=
            Stack.ofList (m.stack.toList.take (m.stack.toList.length - arity.count)) }) := by
  cases arity with
  | variadic =>
    simp only [collect, Arity.count, Nat.not_lt_zero, if_false, Nat.sub_zero, List.drop_length,
      List.take_length, Stack.ofList_toList]
    rfl
  | fixed n =>
    rw [collect]
    by_cases hcap : operandLimit < n
    · simp only [Arity.count, hcap, if_true]
      rfl
    simp only [Exec.run_get_bind, Stack.popN?_eq, Arity.count, hcap, if_false]
    by_cases h : n ≤ m.stack.toList.length
    · have h' : ¬m.stack.toList.length < n := by omega
      simp only [h, h', if_true, if_false]
      rfl
    · have h' : m.stack.toList.length < n := by omega
      simp only [h, h', if_true, if_false]
      rfl

/-- What a built-in does once its operands are taken: the tokens it yields, to be pushed. -/
def perform (fuel : Nat) (b : Builtin) (caller : Token) (operands : List Token) :
    Exec (List Token) :=
  match b with
  | .primitive p => p.act caller operands
  | .control c => control fuel c caller operands

/-- Invoking with depth left: operands first, then the behaviour. -/
theorem invoke_succ (fuel : Nat) (op : Operator) (caller : Token) :
    invoke (fuel + 1) op caller = collect op.arity caller >>= fun operands =>
      match op.behaviour with
      | .native b => perform fuel b caller operands >>= Exec.pushAll
      | .defined code =>
        Exec.pushAll operands >>= fun _ => evaluateToken fuel code >>= fun _ => pure () := by
  rw [invoke, Lifted.invoke]
  congr 1
  funext operands
  rcases op with ⟨arity, b | code⟩
  · cases b <;> rfl
  · rfl

/-- A built-in of fixed arity `n` with `n` operands on top of the stack runs on the items below
them, and what it yields is pushed where they were. -/
theorem invoke_fixed (fuel : Nat) (caller : Token) {p : Primitive} {n : Nat}
    (hp : p.arity = .fixed n) {m : Machine} {S ops : List Token} (hlen : ops.length = n)
    (hs : m.stack.toList = S ++ ops) :
    (invoke (fuel + 1) (Operator.builtin (.primitive p)) caller).run.run m =
      match (p.act caller ops).run.run { m with stack := Stack.ofList S } with
      | (.ok ys, m') => (.ok (), { m' with stack := m'.stack.pushAll ys })
      | (.error e, m') => (.error e, m') := by
  have hcount : (Operator.builtin (.primitive p)).arity.count = n := by
    simp [Operator.builtin, Builtin.arity, hp, Arity.count]
  have hcap : ¬operandLimit < n :=
    hcount ▸ Nat.not_lt.2 (Builtin.arity_count_le_operandLimit (.primitive p))
  -- the operands are the last `n` items, and the stack keeps the ones before them
  have hcol : (collect (Operator.builtin (.primitive p)).arity caller).run.run m =
      (.ok ops, { m with stack := Stack.ofList S }) := by
    have hlen' : (S ++ ops).length - n = S.length := by simp [hlen]
    rw [collect_run, hcount, hs, hlen', if_neg hcap, if_neg (by simp [hlen]), List.drop_left,
      List.take_left]
  rw [invoke_succ, Exec.run_bind_of_ok hcol]
  change (p.act caller ops >>= Exec.pushAll).run.run _ = _
  rcases h : (p.act caller ops).run.run { m with stack := Stack.ofList S } with ⟨e | ys, m'⟩
  · exact Exec.run_bind_of_error h
  · rw [Exec.run_bind_of_ok h]
    rfl

-- ---------------------------------------------------------------------------
-- Built-ins that fail
-- ---------------------------------------------------------------------------

open Exec

/-- A built-in that runs no code fails only by a check of its operands or of the table, before
it changes anything. -/
theorem act_failsInPlace (p : Primitive) (caller : Token) (operands : List Token) :
    FailsInPlace (p.act caller operands) := by
  have hnone : Succeeds (pure [] : Exec (List Token)) := succeeds_pure _
  unfold Primitive.act
  split
  · exact hnone.failsInPlace
  · -- a binary operator fails by its operands' types
    split
    · exact (succeeds_pure _).failsInPlace
    · exact failsInPlace_throw _
  · exact (succeeds_pure _).failsInPlace
  · exact ((succeeds_modify _).bind fun _ => hnone).failsInPlace
  · exact (succeeds_pure _).failsInPlace
  · exact (succeeds_pure _).failsInPlace
  · exact (succeeds_pure _).failsInPlace
  · exact (succeeds_pure _).failsInPlace
  · exact (succeeds_pop?.bind fun _ => hnone).failsInPlace
  · exact (succeeds_drain.bind fun _ => hnone).failsInPlace
  · -- `range` checks its operands before it makes any value
    split
    · exact (succeeds_pure _).failsInPlace
    · exact failsInPlace_throw _
  · -- `define-op` reads the arity before it defines
    split
    · exact ((succeeds_modify _).bind fun _ => hnone).failsInPlace
    · exact failsInPlace_throw _
  · -- `alias-op` looks the old name up before it inserts the new one
    refine FailsInPlace.get_bind fun m => ?_
    split
    · exact ((succeeds_modify _).bind fun _ => hnone).failsInPlace
    · exact failsInPlace_throw _
  · exact ((succeeds_modify _).bind fun _ => hnone).failsInPlace
  · exact ((succeeds_modify _).bind fun _ => hnone).failsInPlace
  · exact (Succeeds.get_bind fun _ => succeeds_pure _).failsInPlace
  · exact ((succeeds_modify _).bind fun _ => hnone).failsInPlace
  · exact (succeeds_drain.bind fun _ => succeeds_pure _).failsInPlace
  · exact failsInPlace_throw _

/-- The variadic built-ins, `pop`, `clear` and `pack`, never fail. -/
theorem act_succeeds_of_variadic {p : Primitive} (hp : p.arity = .variadic) (caller : Token)
    (operands : List Token) : Succeeds (p.act caller operands) := by
  cases p <;> simp only [Primitive.arity, reduceCtorEq] at hp
  · exact succeeds_pop?.bind fun _ => succeeds_pure _
  · exact succeeds_drain.bind fun _ => succeeds_pure _
  · exact succeeds_drain.bind fun _ => succeeds_pure _

/-- A built-in that runs no code (any but `if`, `eval` and the combinators, under any name) and
fails has consumed its operands and nothing else: the machine is the one it was invoked on, with
the stack less its top `n` items when there were at least `n = arity` of them, and empty
otherwise. The variadic ones, `pop`, `clear` and `pack`, never fail. -/
theorem failed_primitive_consumes_operands {fuel : Nat} {p : Primitive} {caller : Token}
    {m m' : Machine} {e : Error}
    (h : (invoke (fuel + 1) (Operator.builtin (.primitive p)) caller).run.run m = (.error e, m')) :
    p ≠ .pop ∧ p ≠ .clear ∧ p ≠ .pack ∧
      m' = { m with stack :=
        if p.arity.count ≤ m.stack.toList.length then
          Stack.ofList (m.stack.toList.take (m.stack.toList.length - p.arity.count))
        else {} } := by
  have hcol := collect_run p.arity caller m
  have hcap : ¬operandLimit < p.arity.count :=
    Nat.not_lt.2 (Builtin.arity_count_le_operandLimit (.primitive p))
  rw [if_neg hcap] at hcol
  rw [invoke_succ] at h
  simp only [Operator.builtin, Builtin.arity] at h
  by_cases hlt : m.stack.toList.length < p.arity.count
  · -- too few items: the stack is emptied, and a variadic built-in never gets here
    simp only [hlt, if_true] at hcol
    rw [Exec.run_bind_of_error hcol] at h
    cases h
    have hfixed : p.arity ≠ .variadic := by
      intro hv
      rw [hv] at hlt
      exact Nat.not_lt_zero _ hlt
    refine ⟨?_, ?_, ?_, ?_⟩
    · rintro rfl; exact hfixed rfl
    · rintro rfl; exact hfixed rfl
    · rintro rfl; exact hfixed rfl
    · rw [if_neg (by omega)]
  · simp only [hlt, if_false] at hcol
    rw [Exec.run_bind_of_ok hcol] at h
    have hkeep := ((act_failsInPlace p caller _).bind succeeds_pushAll) _ _ _ h
    -- the built-in itself failed, so it is no variadic one
    have hfixed : p.arity ≠ .variadic := by
      intro hv
      obtain ⟨ys, m₂, hys⟩ := act_succeeds_of_variadic hv caller _
        { m with stack := Stack.ofList (m.stack.toList.take (m.stack.toList.length -
          p.arity.count)) }
      simp only [perform] at h
      rw [Exec.run_bind_of_ok hys, Exec.run_pushAll] at h
      cases h
    refine ⟨?_, ?_, ?_, ?_⟩
    · rintro rfl; exact hfixed rfl
    · rintro rfl; exact hfixed rfl
    · rintro rfl; exact hfixed rfl
    · rw [if_pos (by omega), hkeep]

/-- `-` on two booleans fails at the first, and only the item below them stays. -/
theorem difference_of_booleans_keeps_below :
    (invoke 1 (Operator.builtin (.primitive (.binary .difference))) (Token.operator "-")).run.run
        { stack := Stack.ofList [Token.symbol (.boolean true), Token.symbol (.boolean true),
          Token.symbol (.boolean false)] } =
      (.error ⟨.notANumber "boolean" "true", none⟩,
        { stack := Stack.ofList [Token.symbol (.boolean true)] }) ∧
    Primitive.binary .difference ≠ .pop ∧ Primitive.binary .difference ≠ .clear ∧
      Primitive.binary .difference ≠ .pack ∧
      ({ stack := Stack.ofList [Token.symbol (.boolean true)] } : Machine) =
        { stack :=
          if (Primitive.binary .difference).arity.count ≤ 3 then
            Stack.ofList (List.take (3 - (Primitive.binary .difference).arity.count)
              [Token.symbol (.boolean true), Token.symbol (.boolean true),
                Token.symbol (.boolean false)])
          else {} } := by
  have h : (invoke 1 (Operator.builtin (.primitive (.binary .difference)))
      (Token.operator "-")).run.run
        { stack := Stack.ofList [Token.symbol (.boolean true), Token.symbol (.boolean true),
          Token.symbol (.boolean false)] } =
      (.error ⟨.notANumber "boolean" "true", none⟩,
        { stack := Stack.ofList [Token.symbol (.boolean true)] }) := by
    rw [invoke_succ]
    rfl
  exact ⟨h, failed_primitive_consumes_operands h⟩

end Evaluation

end Concatenative
