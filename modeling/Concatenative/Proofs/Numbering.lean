import Concatenative.Proofs.Running

/-!
# Numbering evaluations

Every evaluation takes the next number from the machine's counter (`Exec.takeUid`) and renames
the locals of its text under it, `@x` becoming `@x@n`. Locals of two evaluations stay apart as
long as no two evaluations take the same number. The counter is part of the machine, so it is
threaded through nested evaluations (`eval`, `if`, the combinators, defined operators) and kept
past failures like the rest of the state; nothing but taking a number changes it.

To speak of the numbers evaluations take, `Numbered` runs the evaluation functions themselves
(`Evaluation.Lifted`) with a log beside the machine, taking each number as the counter gives it
and writing it down, so the log lists the number of every evaluation in the order they started,
nested and failing ones included. `Numbered.Numbers y x m` says that `y`, run from `m`
with any log, ends as `x` does and adds to the log exactly the numbers from the counter on `m`
up to the counter `x` leaves. Sequencing keeps it (`Numbers.bind`), the operations that leave the
counter alone (`Exec.KeepsCount`) have it with nothing logged, and each evaluation function has
it by induction on the depth left, as in `Evaluation.Invariant.preserves_invoke`.

## Main results

* `Numbered.numbers_invoke` and `Numbered.numbers_evaluate` — invoking an operator or evaluating
  a program, numbered, ends as it does unnumbered, and logs one number per evaluation: those from
  the counter it finds up to the counter it leaves, in order.
* `Numbered.session_numbers_evaluations_apart` — across a session of programs entered on a fresh
  machine, the evaluations took the numbers `0, 1, 2, …` in order: no two took the same number,
  the counter is the number of evaluations so far, and the names `name@n` that two evaluations
  rename locals to are never the same.
-/

namespace Concatenative

-- ---------------------------------------------------------------------------
-- Computations that leave the counter alone
-- ---------------------------------------------------------------------------

namespace Exec

variable {α β : Type}

/-- `x` leaves the evaluation counter as it finds it, whether it succeeds or fails. -/
def KeepsCount (x : Exec α) : Prop :=
  ∀ m, (x.run.run m).2.uid = m.uid

theorem KeepsCount.bind {x : Exec α} {f : α → Exec β} (hx : KeepsCount x)
    (hf : ∀ a, KeepsCount (f a)) : KeepsCount (x >>= f) := by
  intro m
  have hm := hx m
  rcases h : x.run.run m with ⟨e | a, m'⟩ <;> rw [h] at hm
  · rw [run_bind_of_error h]
    exact hm
  · rw [run_bind_of_ok h, hf a m']
    exact hm

theorem keepsCount_pure (a : α) : KeepsCount (pure a : Exec α) :=
  fun _ => rfl

/-- A computation that reads the machine first keeps the counter if what it goes on with keeps
the counter of the machine it read. -/
theorem keepsCount_get_bind {f : Machine → Exec α} (hf : ∀ m, ((f m).run.run m).2.uid = m.uid) :
    KeepsCount (get >>= f) :=
  hf

theorem keepsCount_pop? : KeepsCount pop? :=
  keepsCount_get_bind fun _ => by
    split <;> rfl

end Exec

namespace Evaluation

theorem keepsCount_collect (arity : Arity) (caller : Token) :
    Exec.KeepsCount (collect arity caller) := by
  cases arity with
  | variadic => exact Exec.keepsCount_pure _
  | fixed n =>
    rw [collect]
    split
    · exact fun _ => rfl
    refine Exec.keepsCount_get_bind fun m => ?_
    split <;> rfl

theorem keepsCount_target (caller : Token) (combinator : String) (wanted : Nat) :
    Exec.KeepsCount (target caller combinator wanted) := by
  refine Exec.keepsCount_pop?.bind fun r => ?_
  rcases r with _ | name
  · exact Exec.keepsCount_get_bind fun _ => rfl
  · -- the name is looked up, then its arity checked
    refine Exec.keepsCount_get_bind fun _ => ?_
    split
    · rfl
    · split <;> rfl

end Evaluation

/-- A built-in that runs no code changes the stack, the table, the registers or the output, and
never the counter. -/
theorem Primitive.keepsCount_act (p : Primitive) (caller : Token) (operands : List Token) :
    Exec.KeepsCount (p.act caller operands) := by
  intro m
  unfold Primitive.act
  split
  -- a binary operator, `range` and `define-op` first read their operands
  case h_2 | h_11 | h_12 => split <;> rfl
  case h_9 => exact (Exec.keepsCount_pop?.bind fun _ => Exec.keepsCount_pure _) m
  -- `alias-op` first looks the old name up
  case h_13 =>
    rw [Exec.run_get_bind]
    split <;> rfl
  all_goals rfl

-- ---------------------------------------------------------------------------
-- Evaluation with a log of the numbers taken
-- ---------------------------------------------------------------------------

/-- Evaluation with a log of the numbers evaluations take, kept beside the machine and, like the
machine, past failures. -/
abbrev Numbered := ExceptT Error (StateM (Machine × List Nat))

namespace Numbered

variable {α β : Type}

/-- A computation on the machine alone; the log stays as it is. -/
def lift (x : Exec α) : Numbered α :=
  ExceptT.mk fun s => ((x.run.run s.1).1, (x.run.run s.1).2, s.2)

/-- The next evaluation number, counted up as `Exec.takeUid` does, and written down. -/
def takeUid : Numbered Nat := do
  let (m, log) ← get
  set ({ m with uid := m.uid + 1 }, log ++ [m.uid])
  pure m.uid

/-- `Machine.evaluate`, numbered. -/
def evaluate (text : String) : Numbered (Option Token) :=
  Evaluation.Lifted.evaluateIn lift takeUid depthLimit text .source

/-- `Machine.enter`, numbered: the machine and the log after the program. -/
def enter (s : Machine × List Nat) (source : String) : Machine × List Nat :=
  ((evaluate source).run.run s).2

/-- A session, numbered: programs entered one after another on a fresh machine with an empty
log. -/
def session (sources : List String) : Machine × List Nat :=
  sources.foldl enter ({}, [])

-- ---------------------------------------------------------------------------
-- Numbered runs beside runs
-- ---------------------------------------------------------------------------

@[simp] theorem run_lift (x : Exec α) (m : Machine) (log : List Nat) :
    (lift x).run.run (m, log) = ((x.run.run m).1, (x.run.run m).2, log) :=
  rfl

theorem run_bind_of_ok {y : Numbered α} {g : α → Numbered β} {s s' : Machine × List Nat} {a : α}
    (h : y.run.run s = (.ok a, s')) : (y >>= g).run.run s = (g a).run.run s' := by
  simp only [ExceptT.run_bind, StateT.run_bind, h]
  rfl

theorem run_bind_of_error {y : Numbered α} {g : α → Numbered β} {s s' : Machine × List Nat}
    {e : Error} (h : y.run.run s = (.error e, s')) : (y >>= g).run.run s = (.error e, s') := by
  simp only [ExceptT.run_bind, StateT.run_bind, h]
  rfl

/-- `y` numbers `x` from `m`: run from `m` with any log, `y` ends as `x` does, and the counter
`x` leaves is `k` above the one on `m`, for a `k` such that `y` adds to the log the `k` numbers
from the counter on `m` on. -/
def Numbers (y : Numbered α) (x : Exec α) (m : Machine) : Prop :=
  ∃ k, (x.run.run m).2.uid = m.uid + k ∧
    ∀ log, y.run.run (m, log) = ((x.run.run m).1, (x.run.run m).2, log ++ List.range' m.uid k)

/-- The sequencing rule: the numbers of the first steps, then those of the rest, which starts on
the machine the first steps leave. -/
theorem Numbers.bind {y : Numbered α} {x : Exec α} {g : α → Numbered β} {f : α → Exec β}
    {m : Machine} (hx : Numbers y x m)
    (hf : ∀ a m', x.run.run m = (.ok a, m') → Numbers (g a) (f a) m') :
    Numbers (y >>= g) (x >>= f) m := by
  obtain ⟨k, hk, hy⟩ := hx
  rcases hrun : x.run.run m with ⟨e | a, m₁⟩ <;> rw [hrun] at hk hy
  · -- a failure ends both runs, with the numbers taken up to it
    rw [Numbers, Exec.run_bind_of_error hrun]
    exact ⟨k, hk, fun log => run_bind_of_error (hy log)⟩
  · obtain ⟨l, hl, hg⟩ := hf a m₁ hrun
    rw [Numbers, Exec.run_bind_of_ok hrun]
    refine ⟨k + l, by rw [hl, hk, Nat.add_assoc], fun log => ?_⟩
    rw [run_bind_of_ok (hy log), hg, List.append_assoc, hk, List.range'_append_1]

theorem Numbers.congr {y : Numbered α} {x x' : Exec α} {m : Machine}
    (h : x.run.run m = x'.run.run m) (h' : Numbers y x' m) : Numbers y x m := by
  rw [Numbers, h]
  exact h'

theorem Numbers.get_bind {g : Machine → Numbered α} {f : Machine → Exec α} {m : Machine}
    (h : Numbers (g m) (f m) m) : Numbers (lift get >>= g) (get >>= f) m :=
  h

theorem Numbers.lift_get_bind {g : Machine → Numbered α} {x : Exec α} {m : Machine}
    (h : Numbers (g m) x m) : Numbers (lift get >>= g) x m :=
  h

/-- What leaves the counter alone logs nothing. -/
theorem numbers_lift {x : Exec α} (h : Exec.KeepsCount x) (m : Machine) : Numbers (lift x) x m :=
  ⟨0, h m, fun log => by rw [run_lift, List.range'_zero, List.append_nil]⟩

theorem numbers_pure (a : α) (m : Machine) : Numbers (pure a) (pure a) m :=
  ⟨0, rfl, fun log => by rw [List.range'_zero, List.append_nil]; rfl⟩

theorem numbers_takeUid (m : Machine) : Numbers takeUid Exec.takeUid m :=
  ⟨1, rfl, fun _ => rfl⟩

-- ---------------------------------------------------------------------------
-- Each evaluation function, numbered
-- ---------------------------------------------------------------------------

section Lifted

open Evaluation

-- Pushing, draining, looking up and failing leave the counter alone by definition (`fun _ => rfl`).
section Depth

variable {k : Nat}
  (hinv : ∀ op caller m, Numbers (Lifted.invoke lift takeUid k op caller) (invoke k op caller) m)
include hinv

theorem numbers_execute (t : Token) (m : Machine) :
    Numbers (Lifted.execute lift takeUid k t) (execute k t) m := by
  rw [execute, Lifted.execute, Lifted.execute]
  cases t.kind with
  | symbol => exact numbers_lift (fun _ => rfl) m
  | operator =>
    refine (numbers_lift (fun _ => rfl) m).bind fun r m' _ => ?_
    cases r with
    | none => exact numbers_lift (fun _ => rfl) m'
    | some op => exact hinv op t m'
  | localName => exact numbers_lift (fun _ => rfl) m

/-- The rest of a text, token by token, by induction on what is left of it. -/
theorem numbers_runFrom (E : Edits) (o : Origin) (c : Cursor) (m : Machine) :
    Numbers (Lifted.runFrom lift takeUid k E o c) (runFrom k E o c) m := by
  rw [Lifted.runFrom]
  refine Numbers.lift_get_bind ?_
  split
  · rename_i hn
    exact Numbers.congr (Evaluation.runFrom_of_next_none hn) (numbers_pure () m)
  · rename_i e hn
    exact Numbers.congr (Evaluation.runFrom_of_next_error hn) (numbers_lift (fun _ => rfl) m)
  · rename_i t c' hn
    have : c'.rest.length < c.rest.length := Scan.next_rest_length hn
    exact Numbers.congr (Evaluation.runFrom_step hn)
      ((numbers_execute hinv _ m).bind fun _ m' _ => numbers_runFrom E o c' m')
termination_by c.rest.length

/-- An evaluation writes down its own number first, then those of the evaluations it runs. -/
theorem numbers_evaluateIn (T : String) (o : Origin) (m : Machine) :
    Numbers (Lifted.evaluateIn lift takeUid k T o) (evaluateIn k T o) m := by
  rw [evaluateIn, Lifted.evaluateIn, Lifted.evaluateIn]
  refine (numbers_takeUid m).bind fun u m₁ _ => Numbers.get_bind ?_
  cases Evaluation.hygiene m₁.ops T u o with
  | error e => exact numbers_lift (fun _ => rfl) m₁
  | ok r =>
    exact (numbers_runFrom hinv r.2 o _ m₁).bind fun _ m₂ _ =>
      Numbers.get_bind (numbers_pure _ m₂)

theorem numbers_evaluateToken (t : Token) (m : Machine) :
    Numbers (Lifted.evaluateToken lift takeUid k t) (evaluateToken k t) m := by
  rw [evaluateToken, Lifted.evaluateToken, Lifted.evaluateToken]
  exact numbers_evaluateIn hinv _ _ m

theorem numbers_apply (op : Operator) (name : Token) (combinator : String) (m : Machine) :
    Numbers (Lifted.apply lift takeUid k op name combinator) (apply k op name combinator) m := by
  rw [apply, Lifted.apply, Lifted.apply]
  refine (hinv op name m).bind fun _ m₁ _ => (numbers_lift (fun _ => rfl) m₁).bind
    fun rs m₂ _ => ?_
  rcases rs with _ | ⟨r, _ | ⟨r₂, rest⟩⟩
  · exact numbers_lift (fun _ => rfl) m₂
  · exact numbers_pure r m₂
  · exact numbers_lift (fun _ => rfl) m₂

theorem numbers_fold (op : Operator) (name : Token) :
    ∀ (acc : Token) (xs : List Token) (m : Machine),
      Numbers (Lifted.fold lift takeUid k op name acc xs) (fold k op name acc xs) m
  | acc, [], m => by
    rw [fold, Lifted.fold, Lifted.fold]
    exact numbers_pure acc m
  | acc, x :: xs, m => by
    rw [fold, Lifted.fold, Lifted.fold]
    exact (numbers_lift (fun _ => rfl) m).bind fun _ m₁ _ =>
      (numbers_lift (fun _ => rfl) m₁).bind fun _ m₂ _ =>
        (numbers_apply hinv op name _ m₂).bind fun r m₃ _ => numbers_fold op name r xs m₃

theorem numbers_mapAll (op : Operator) (name : Token) :
    ∀ (xs : List Token) (m : Machine),
      Numbers (Lifted.mapAll lift takeUid k op name xs) (mapAll k op name xs) m
  | [], m => by
    rw [mapAll, Lifted.mapAll, Lifted.mapAll]
    exact numbers_pure _ m
  | x :: xs, m => by
    rw [mapAll, Lifted.mapAll, Lifted.mapAll]
    exact (numbers_lift (fun _ => rfl) m).bind fun _ m₁ _ =>
      (numbers_apply hinv op name _ m₁).bind fun _ m₂ _ =>
        (numbers_mapAll op name xs m₂).bind fun _ m₃ _ => numbers_pure _ m₃

theorem numbers_filterAll (op : Operator) (name : Token) :
    ∀ (xs : List Token) (m : Machine),
      Numbers (Lifted.filterAll lift takeUid k op name xs) (filterAll k op name xs) m
  | [], m => by
    rw [filterAll, Lifted.filterAll, Lifted.filterAll]
    exact numbers_pure _ m
  | x :: xs, m => by
    rw [filterAll, Lifted.filterAll, Lifted.filterAll]
    exact (numbers_lift (fun _ => rfl) m).bind fun _ m₁ _ =>
      (numbers_apply hinv op name _ m₁).bind fun _ m₂ _ =>
        (numbers_filterAll op name xs m₂).bind fun _ m₃ _ => numbers_pure _ m₃

/-- The built-ins that run code, on any operands: those their arity does not collect reach the
fallback on both sides. -/
theorem numbers_control (c : Control) (caller : Token) (operands : List Token) (m : Machine) :
    Numbers (Lifted.control lift takeUid k c caller operands)
      (Evaluation.control k c caller operands) m := by
  cases c with
  | ifElse =>
    rcases operands with _ | ⟨cond, _ | ⟨yes, _ | ⟨no, _ | ⟨_, _⟩⟩⟩⟩
    case cons.cons.cons.nil =>
      rw [Evaluation.control, Lifted.control, Lifted.control]
      refine (numbers_evaluateToken hinv cond m).bind fun _ m₁ _ =>
        (numbers_lift Exec.keepsCount_pop? m₁).bind fun r m₂ _ => ?_
      cases r with
      | none => exact numbers_lift (fun _ => rfl) m₂
      | some v =>
        exact (numbers_evaluateToken hinv _ m₂).bind fun _ m₃ _ => numbers_pure _ m₃
    -- any other number of operands reaches the fallback on both sides
    all_goals
      simp only [Evaluation.control, Lifted.control]
      exact numbers_lift (fun _ => rfl) m
  | eval =>
    rcases operands with _ | ⟨code, _ | ⟨_, _⟩⟩
    case cons.nil =>
      rw [Evaluation.control, Lifted.control, Lifted.control]
      exact (numbers_evaluateToken hinv code m).bind fun _ m₁ _ => numbers_pure _ m₁
    all_goals
      simp only [Evaluation.control, Lifted.control]
      exact numbers_lift (fun _ => rfl) m
  | reduce =>
    rw [Evaluation.control, Lifted.control, Lifted.control]
    refine (numbers_lift (Evaluation.keepsCount_target _ _ _) m).bind fun r m₁ _ =>
      (numbers_lift (fun _ => rfl) m₁).bind fun items m₂ _ => ?_
    cases items with
    | nil => exact numbers_pure _ m₂
    | cons first rest =>
      exact (numbers_fold hinv r.1 r.2 first rest m₂).bind fun _ m₃ _ => numbers_pure _ m₃
  | map =>
    rw [Evaluation.control, Lifted.control, Lifted.control]
    exact (numbers_lift (Evaluation.keepsCount_target _ _ _) m).bind fun r m₁ _ =>
      (numbers_lift (fun _ => rfl) m₁).bind fun items m₂ _ => numbers_mapAll hinv r.1 r.2 items m₂
  | filter =>
    rw [Evaluation.control, Lifted.control, Lifted.control]
    exact (numbers_lift (Evaluation.keepsCount_target _ _ _) m).bind fun r m₁ _ =>
      (numbers_lift (fun _ => rfl) m₁).bind fun items m₂ _ =>
        numbers_filterAll hinv r.1 r.2 items m₂

end Depth

/-- One level deeper, given what invoking does on the levels below. -/
theorem numbers_invoke_succ {k : Nat}
    (hinv : ∀ op caller m, Numbers (Lifted.invoke lift takeUid k op caller) (invoke k op caller) m)
    (op : Operator) (caller : Token) (m : Machine) :
    Numbers (Lifted.invoke lift takeUid (k + 1) op caller) (invoke (k + 1) op caller) m := by
  rw [invoke, Lifted.invoke, Lifted.invoke]
  refine (numbers_lift (Evaluation.keepsCount_collect _ _) m).bind fun operands m₁ _ => ?_
  rcases op with ⟨arity, (p | c) | code⟩
  · exact (numbers_lift (Primitive.keepsCount_act p caller operands) m₁).bind fun _ m₂ _ =>
      numbers_lift (fun _ => rfl) m₂
  · exact (numbers_control hinv c caller operands m₁).bind fun _ m₂ _ =>
      numbers_lift (fun _ => rfl) m₂
  · exact (numbers_lift (fun _ => rfl) m₁).bind fun _ m₂ _ =>
      (numbers_evaluateToken hinv code m₂).bind fun _ m₃ _ => numbers_pure () m₃

/-- Invoking an operator, numbered, ends as invoking it does and logs the numbers from the
counter it finds up to the counter it leaves: by induction on the depth left. -/
theorem numbers_invoke :
    ∀ (k : Nat) (op : Operator) (caller : Token) (m : Machine),
      Numbers (Lifted.invoke lift takeUid k op caller) (invoke k op caller) m
  | 0, _, caller, m => by
    rw [invoke, Lifted.invoke, Lifted.invoke]
    exact numbers_lift (fun _ => rfl) m
  | k + 1, op, caller, m => numbers_invoke_succ (numbers_invoke k) op caller m

/-- Evaluating a program, numbered, ends as evaluating it does, failures included, and logs the
numbers from the counter it finds up to the counter it leaves, in order. -/
theorem numbers_evaluate (text : String) (m : Machine) :
    Numbers (evaluate text) (Machine.evaluate text) m :=
  numbers_evaluateIn (numbers_invoke depthLimit) text .source m

end Lifted

-- ---------------------------------------------------------------------------
-- Sessions
-- ---------------------------------------------------------------------------

theorem numbers_enter (m : Machine) (log : List Nat) (source : String) :
    ∃ k, (m.enter source).2.uid = m.uid + k ∧
      enter (m, log) source = ((m.enter source).2, log ++ List.range' m.uid k) := by
  obtain ⟨k, hk, hrun⟩ := numbers_evaluate source m
  exact ⟨k, hk, by rw [enter, hrun]; rfl⟩

/-- Programs entered one after another on a machine whose log lists the numbers below its
counter leave a machine whose log does too. -/
theorem foldl_enter (sources : List String) (m : Machine) :
    sources.foldl enter (m, List.range m.uid) =
      (sources.foldl (fun m source => (m.enter source).2) m,
        List.range (sources.foldl (fun m source => (m.enter source).2) m).uid) := by
  induction sources generalizing m with
  | nil => rfl
  | cons source rest ih =>
    obtain ⟨k, hk, hrun⟩ := numbers_enter m (List.range m.uid) source
    -- the numbers taken so far, then those the program takes
    have hlog : List.range m.uid ++ List.range' m.uid k = List.range (m.enter source).2.uid := by
      have h := @List.range'_append_1 0 m.uid k
      rw [Nat.zero_add] at h
      rw [List.range_eq_range', h, hk, ← List.range_eq_range']
    rw [List.foldl_cons, List.foldl_cons, hrun, hlog, ih]

/-- The number in a renamed name is what follows its last `@`, for digits hold no `@`. -/
theorem digits_after_last_at (a : String) (u : Nat) :
    ((a ++ "@" ++ toString u).toList.reverse.takeWhile (· != '@')).reverse =
      Nat.toDigits 10 u := by
  have hdigits : ∀ c ∈ (Nat.toDigits 10 u).reverse, (c != '@') = true := by
    intro c hc
    have hd := Nat.isDigit_of_mem_toDigits (by decide) (by decide) (List.mem_reverse.mp hc)
    rw [bne_iff_ne]
    rintro rfl
    exact absurd hd (by decide)
  simp only [String.toList_append, Nat.toString_eq_ofList_toDigits, String.toList_ofList,
    List.reverse_append]
  rw [List.takeWhile_append_of_pos hdigits]
  simp

/-- Names renamed under different numbers differ, whatever the names before the suffix. -/
theorem renamed_ne_of_ne {u v : Nat} (h : u ≠ v) (a b : String) :
    a ++ "@" ++ toString u ≠ b ++ "@" ++ toString v := by
  intro heq
  have hdigits : Nat.toDigits 10 u = Nat.toDigits 10 v := by
    rw [← digits_after_last_at a u, ← digits_after_last_at b v, heq]
  apply h
  calc
    u = Nat.ofDigitChars 10 (Nat.toDigits 10 u) 0 := Nat.ofDigitChars_ten_toDigits.symm
    _ = Nat.ofDigitChars 10 (Nat.toDigits 10 v) 0 := by rw [hdigits]
    _ = v := Nat.ofDigitChars_ten_toDigits

/-- Locals of different evaluations never share a name. In a session of any programs entered
one after another on a fresh machine, failing ones included, the numbered session ends on the
machine the session ends on, and its log, the numbers every evaluation took at any depth in the
order they started, is `0, 1, …` up to the counter: no two evaluations took the same number, and
the counter is the number of evaluations made. Hygiene renames a local `name` of an evaluation
with number `n` to `name ++ "@" ++ toString n`, so two evaluations never rename locals, and so
never reach registers through them, under the same name. -/
theorem session_numbers_evaluations_apart (sources : List String) :
    (session sources).1 = sources.foldl (fun (m : Machine) source => (m.enter source).2) {} ∧
      (session sources).2 = List.range (session sources).1.uid ∧
      (session sources).2.length = (session sources).1.uid ∧ (session sources).2.Nodup ∧
      (session sources).2.Pairwise fun u v =>
        ∀ a b : String, a ++ "@" ++ toString u ≠ b ++ "@" ++ toString v := by
  -- the fresh machine's counter is 0 and the log starts empty
  have hs : session sources = (sources.foldl (fun (m : Machine) source => (m.enter source).2) {},
      List.range (sources.foldl (fun (m : Machine) source => (m.enter source).2) {}).uid) :=
    foldl_enter sources {}
  rw [hs]
  exact ⟨rfl, rfl, List.length_range, List.nodup_range,
    List.nodup_range.imp fun huv => renamed_ne_of_ne huv⟩

end Numbered

end Concatenative
