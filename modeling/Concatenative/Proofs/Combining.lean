import Concatenative.Proofs.Invoking

/-!
# Combinators as list operations

`map`, `filter` and `reduce` apply an operator, named by the item on top of the stack, to the
items below it. The operator is looked up once, before anything else, and must take as many
operands as the combinator supplies. Each application then runs it on a stack that holds its
operands and nothing else, and must leave exactly one value; the applications run one after
another, each seeing what the earlier ones did to the registers, the table and the output.

`Evaluation.applyOn` is one application as the combinators promise it: the stack replaced by the
operands, the operator invoked, its one value taken off. Over it the combinators are the list
operations of the monad of evaluation: `map` is `List.mapM`, `filter` keeps the items whose
values are true, and `reduce` is `List.foldlM` from the first item.

## Main results

* `Evaluation.combinators_fold_applications` — for every stack of items under a name that the
  table resolves: `map`, `filter` and `reduce` leave exactly what the list operations over the
  applications give, fail as the first failing application fails, and with an operator of any
  other arity fail before any item is taken.
-/

namespace Concatenative

namespace Stack

variable {α : Type}

theorem pushAll_of_empty {s : Stack α} (hs : s.toList = []) (xs : List α) :
    s.pushAll xs = ofList xs := by
  rw [← ofList_toList (s.pushAll xs), toList_pushAll, hs, List.nil_append]

theorem pop?_ofList_append (xs : List α) (a : α) : (ofList (xs ++ [a])).pop? = some (a, ofList xs) := by
  simp [ofList, pop?]

end Stack

namespace Exec

variable {α β : Type}

theorem run_map (f : α → β) (x : Exec α) (m : Machine) :
    (f <$> x).run.run m = ((x.run.run m).1.map f, (x.run.run m).2) := by
  simp only [ExceptT.run_map, StateT.run_map]
  rfl

/-- Two sequences whose first steps run alike, and whose rests run alike after every success of
the first steps, run alike. -/
theorem run_bind_congr_ok {x y : Exec α} {f g : α → Exec β} {m n : Machine}
    (hxy : x.run.run m = y.run.run n)
    (hfg : ∀ a m', y.run.run n = (.ok a, m') → (f a).run.run m' = (g a).run.run m') :
    (x >>= f).run.run m = (y >>= g).run.run n := by
  rcases hy : y.run.run n with ⟨e | a, m'⟩
  · rw [run_bind_of_error (hxy.trans hy), run_bind_of_error hy]
  · rw [run_bind_of_ok (hxy.trans hy), run_bind_of_ok hy]
    exact hfg a m' hy

theorem ok_of_run_bind {x : Exec α} {f : α → Exec β} {m m' : Machine} {b : β}
    (h : (x >>= f).run.run m = (.ok b, m')) :
    ∃ a m₁, x.run.run m = (.ok a, m₁) ∧ (f a).run.run m₁ = (.ok b, m') := by
  rcases hx : x.run.run m with ⟨e | a, m₁⟩
  · rw [run_bind_of_error hx] at h
    cases h
  · rw [run_bind_of_ok hx] at h
    exact ⟨a, m₁, rfl, h⟩

end Exec

namespace Evaluation

-- ---------------------------------------------------------------------------
-- One application
-- ---------------------------------------------------------------------------

/-- One application of a combinator's operator, as the combinators promise it: `op` is invoked
on behalf of `name` on a stack holding only `args`, and the one value it leaves is taken off;
leaving none or several is a contract violation of `combinator`, at the name. -/
def applyOn (fuel : Nat) (op : Operator) (name : Token) (combinator : String)
    (args : List Token) : Exec Token := do
  modify fun m => { m with stack := Stack.ofList args }
  invoke fuel op name
  match ← Exec.drain with
  | [r] => pure r
  | [] => Exec.fail (.noResult combinator name.text) name.span
  | _ => Exec.fail (.tooManyResults combinator name.text) name.span

/-- The items of `xs` whose values in `rs` are true, in order. -/
def kept (xs rs : List Token) : List Token :=
  ((xs.zip rs).filter fun p => p.2.truthy).map Prod.fst

/-- How a combinator ends: the values it yields are then the whole stack. -/
def leaving : Except Error (List Token) × Machine → Except Error Unit × Machine
  | (.ok ys, m) => (.ok (), { m with stack := Stack.ofList ys })
  | (.error e, m) => (.error e, m)

variable {fuel : Nat} {op : Operator} {name : Token} {combinator : String}

/-- Applying to the operands on a stack that holds them alone is the application on them. -/
theorem apply_eq_applyOn (m : Machine) (args : List Token) :
    (apply fuel op name combinator).run.run { m with stack := Stack.ofList args } =
      (applyOn fuel op name combinator args).run.run m := by
  rw [applyOn, Exec.run_bind_of_ok (Exec.run_modify _ m)]
  -- the two matches on the values left are the same steps, whether or not they share a name
  unfold apply Lifted.apply
  rfl

/-- An application that gives its value leaves the stack empty. -/
theorem applyOn_ok_stack {args : List Token} {m m' : Machine} {r : Token}
    (h : (applyOn fuel op name combinator args).run.run m = (.ok r, m')) :
    m'.stack.toList = [] := by
  rw [applyOn, Exec.run_bind_of_ok (Exec.run_modify _ m)] at h
  obtain ⟨_, m₁, -, h⟩ := Exec.ok_of_run_bind h
  rw [Exec.run_bind_of_ok (Exec.run_drain m₁)] at h
  split at h
  · cases h
    rfl
  · cases h
  · cases h

-- ---------------------------------------------------------------------------
-- The loops of the combinators
-- ---------------------------------------------------------------------------

/-- From an empty stack, `map`'s loop is `List.mapM` of the application to each item: each item
is pushed on the stack its predecessor's application emptied. -/
theorem mapAll_run (xs : List Token) : ∀ m : Machine, m.stack.toList = [] →
    (mapAll fuel op name xs).run.run m =
      (xs.mapM fun x => applyOn fuel op name "map" [x]).run.run m := by
  induction xs with
  | nil =>
    intro m _
    rw [mapAll, Lifted.mapAll, List.mapM_nil]
  | cons x xs ih =>
    intro m hm
    rw [mapAll, Lifted.mapAll, List.mapM_cons, Exec.run_bind_of_ok (Exec.run_push x m),
      Stack.push_of_empty hm]
    exact Exec.run_bind_congr_ok (apply_eq_applyOn m [x]) fun r m₁ happ =>
      Exec.run_bind_congr (ih m₁ (applyOn_ok_stack happ))

/-- From an empty stack, `filter`'s loop runs the same applications as `map`'s and keeps the
items whose values are true. -/
theorem filterAll_run (xs : List Token) : ∀ m : Machine, m.stack.toList = [] →
    (filterAll fuel op name xs).run.run m =
      (kept xs <$> xs.mapM fun x => applyOn fuel op name "filter" [x]).run.run m := by
  induction xs with
  | nil =>
    intro m _
    rw [filterAll, Lifted.filterAll, List.mapM_nil]
    rfl
  | cons x xs ih =>
    intro m hm
    rw [filterAll, Lifted.filterAll, List.mapM_cons, Exec.run_bind_of_ok (Exec.run_push x m),
      Stack.push_of_empty hm, map_bind]
    refine Exec.run_bind_congr_ok (apply_eq_applyOn m [x]) fun r m₁ happ => ?_
    rw [Exec.run_bind_congr (ih m₁ (applyOn_ok_stack happ)), map_eq_pure_bind, bind_assoc, map_bind]
    -- the verdict on `x` decides whether it heads the items kept from the rest
    have hkept : ∀ rs, kept (x :: xs) (r :: rs) = if r.truthy then x :: kept xs rs
        else kept xs rs := by
      intro rs
      by_cases hr : r.truthy = true <;> simp [kept, hr]
    simp only [map_pure, pure_bind, hkept]

/-- From an empty stack, `reduce`'s loop is `List.foldlM` of the application to the accumulator
and the next item. -/
theorem fold_run (acc : Token) (xs : List Token) : ∀ m : Machine, m.stack.toList = [] →
    (fold fuel op name acc xs).run.run m =
      (xs.foldlM (fun a y => applyOn fuel op name "reduce" [a, y]) acc).run.run m := by
  induction xs generalizing acc with
  | nil =>
    intro m _
    rw [fold, Lifted.fold, List.foldlM_nil]
  | cons x xs ih =>
    intro m hm
    rw [fold, Lifted.fold, List.foldlM_cons, Exec.run_bind_of_ok (Exec.run_push acc m),
      Stack.push_of_empty hm, Exec.run_bind_of_ok (Exec.run_push x _)]
    -- the two pushes leave the stack holding the accumulator and the item
    exact Exec.run_bind_congr_ok (apply_eq_applyOn m [acc, x]) fun r m₁ happ =>
      ih r m₁ (applyOn_ok_stack happ)

/-- Applications in a row that succeed leave the stack empty, when it was empty to begin with. -/
theorem mapM_applyOn_stack :
    ∀ (xs : List Token) (m : Machine) (rs : List Token) (m' : Machine), m.stack.toList = [] →
      (xs.mapM fun x => applyOn fuel op name combinator [x]).run.run m = (.ok rs, m') →
      m'.stack.toList = []
  | [], m, rs, m', hm, h => by
    rw [List.mapM_nil, Exec.run_pure] at h
    cases h
    exact hm
  | x :: xs, m, rs, m', _, h => by
    rw [List.mapM_cons] at h
    obtain ⟨r, m₁, h₁, h⟩ := Exec.ok_of_run_bind h
    obtain ⟨rs', m₂, h₂, h⟩ := Exec.ok_of_run_bind h
    rw [Exec.run_pure] at h
    cases h
    exact mapM_applyOn_stack xs m₁ rs' _ (applyOn_ok_stack h₁) h₂

theorem foldlM_applyOn_stack :
    ∀ (xs : List Token) (acc : Token) (m : Machine) (r : Token) (m' : Machine),
      m.stack.toList = [] →
      (xs.foldlM (fun a y => applyOn fuel op name combinator [a, y]) acc).run.run m =
        (.ok r, m') → m'.stack.toList = []
  | [], acc, m, r, m', hm, h => by
    rw [List.foldlM_nil, Exec.run_pure] at h
    cases h
    exact hm
  | x :: xs, acc, m, r, m', _, h => by
    rw [List.foldlM_cons] at h
    obtain ⟨acc', m₁, h₁, h⟩ := Exec.ok_of_run_bind h
    exact foldlM_applyOn_stack xs acc' m₁ r m' (applyOn_ok_stack h₁) h

-- ---------------------------------------------------------------------------
-- Invoking a combinator
-- ---------------------------------------------------------------------------

/-- The operator a combinator applies: the name on top of the stack is taken off and looked up,
and its arity checked, before any item below is touched. -/
theorem target_run (caller name : Token) (combinator : String) (wanted : Nat) (xs : List Token)
    (m : Machine) (hop : m.ops.get? name.text = some op) :
    (target caller combinator wanted).run.run { m with stack := Stack.ofList (xs ++ [name]) } =
      if op.arity = .fixed wanted then
        (.ok (op, (Token.operator name.text).placed name.span), { m with stack := Stack.ofList xs })
      else
        (.error ⟨.arityMismatch combinator wanted name.text op.arity, name.span⟩,
          { m with stack := Stack.ofList xs }) := by
  have hpop : Exec.pop?.run.run { m with stack := Stack.ofList (xs ++ [name]) } =
      (.ok (some name), { m with stack := Stack.ofList xs }) := by
    simp only [Exec.pop?, Exec.run_get_bind, Stack.pop?_ofList_append]
    rfl
  rw [target, Exec.run_bind_of_ok hpop, Exec.run_bind_of_ok (Exec.run_lookup? _ _)]
  dsimp only
  rw [hop]
  dsimp only
  by_cases harity : op.arity = .fixed wanted
  · simp only [harity, if_true]
    rfl
  · simp only [harity, if_false]
    rfl

/-- A combinator invoked on items under a name: an operator of the wrong arity fails with the
items in place; otherwise the items are taken off and the combinator's loop runs on the emptied
stack, and what it yields is pushed. -/
theorem invoke_combinator {c : Control} {caller : Token} (combinator : String) (wanted : Nat)
    (body : Operator → Token → List Token → Exec (List Token)) (hvar : c.arity = .variadic)
    (hctl : control fuel c caller [] =
      target caller combinator wanted >>= fun r => Exec.drain >>= body r.1 r.2)
    (xs : List Token) (m : Machine) (hop : m.ops.get? name.text = some op) :
    (invoke (fuel + 1) (Operator.builtin (.control c)) caller).run.run
        { m with stack := Stack.ofList (xs ++ [name]) } =
      if op.arity = .fixed wanted then
        (body op ((Token.operator name.text).placed name.span) xs >>= Exec.pushAll).run.run
          { m with stack := {} }
      else
        (.error ⟨.arityMismatch combinator wanted name.text op.arity, name.span⟩,
          { m with stack := Stack.ofList xs }) := by
  have htarget := target_run caller name combinator wanted xs m hop
  have hcol : (collect (Operator.builtin (.control c)).arity caller).run.run
      { m with stack := Stack.ofList (xs ++ [name]) } =
        (.ok [], { m with stack := Stack.ofList (xs ++ [name]) }) := by
    simp only [Operator.builtin, Builtin.arity, hvar]
    rfl
  rw [invoke_succ, Exec.run_bind_of_ok hcol]
  change (control fuel c caller [] >>= Exec.pushAll).run.run _ = _
  rw [hctl, bind_assoc]
  split
  · rename_i harity
    rw [if_pos harity] at htarget
    rw [Exec.run_bind_of_ok htarget, bind_assoc, Exec.run_bind_of_ok (Exec.run_drain _),
      Stack.toList_ofList]
  · rename_i harity
    rw [if_neg harity] at htarget
    exact Exec.run_bind_of_error htarget

/-- Pushing what a loop yields, when the loop leaves the stack empty as it succeeds. -/
theorem run_bind_pushAll {x : Exec (List Token)} {m : Machine}
    (hx : ∀ ys m', x.run.run m = (.ok ys, m') → m'.stack.toList = []) :
    (x >>= Exec.pushAll).run.run m = leaving (x.run.run m) := by
  rcases h : x.run.run m with ⟨e | ys, m'⟩
  · exact Exec.run_bind_of_error h
  · rw [Exec.run_bind_of_ok h, Exec.run_pushAll, Stack.pushAll_of_empty (hx ys m' h)]
    rfl

/-- **The combinators are list operations over one application.** Take a machine whose stack is
the items `xs` under a `name` that the table resolves to `op`, and let `named` be the operator
token that names `op` where `name` stands. If `op` takes as many operands as the combinator
supplies, then `map` leaves exactly the values of `List.mapM` of the application to each item,
`filter` leaves exactly the items whose values are true, and `reduce` leaves nothing for no items
and else the value of `List.foldlM` of the application to the accumulator and the next item, from
the first item; the applications run in order from the machine with the items taken off, each on
a stack holding only its operands, so each sees what the earlier ones did to the registers, the
table and the output, and the first that fails (or leaves no value or several) ends the run with
its error. An operator of another arity, `none` included, fails with an arity mismatch at the
name, the items still on the stack. -/
theorem combinators_fold_applications (fuel : Nat) (caller name : Token) (xs : List Token)
    (m : Machine) {op : Operator} (hop : m.ops.get? name.text = some op) :
    let start : Machine := { m with stack := Stack.ofList (xs ++ [name]) }
    let named := (Token.operator name.text).placed name.span
    let mismatch (combinator : String) (wanted : Nat) : Except Error Unit × Machine :=
      (.error ⟨.arityMismatch combinator wanted name.text op.arity, name.span⟩,
        { m with stack := Stack.ofList xs })
    (invoke (fuel + 1) (Operator.builtin (.control .map)) caller).run.run start =
        (if op.arity = .fixed 1 then
          leaving ((xs.mapM fun x => applyOn fuel op named "map" [x]).run.run
            { m with stack := {} })
        else mismatch "map" 1) ∧
      (invoke (fuel + 1) (Operator.builtin (.control .filter)) caller).run.run start =
        (if op.arity = .fixed 1 then
          leaving ((kept xs <$> xs.mapM fun x => applyOn fuel op named "filter" [x]).run.run
            { m with stack := {} })
        else mismatch "filter" 1) ∧
      (invoke (fuel + 1) (Operator.builtin (.control .reduce)) caller).run.run start =
        (if op.arity = .fixed 2 then
          leaving ((match xs with
            | [] => pure []
            | x :: rest => (fun r => [r]) <$>
              rest.foldlM (fun acc y => applyOn fuel op named "reduce" [acc, y]) x).run.run
            { m with stack := {} })
        else mismatch "reduce" 2) := by
  intro start named mismatch
  have hempty : ({ m with stack := {} } : Machine).stack.toList = [] := rfl
  refine ⟨?_, ?_, ?_⟩
  · rw [invoke_combinator "map" 1 (fun op name items => mapAll fuel op name items) rfl
      (by rw [control, Lifted.control]) xs m hop]
    by_cases harity : op.arity = .fixed 1
    · rw [if_pos harity, if_pos harity, Exec.run_bind_congr (mapAll_run xs _ hempty)]
      exact run_bind_pushAll fun ys m' h => mapM_applyOn_stack xs _ ys m' hempty h
    · rw [if_neg harity, if_neg harity]
  · rw [invoke_combinator "filter" 1 (fun op name items => filterAll fuel op name items) rfl
      (by rw [control, Lifted.control]) xs m hop]
    by_cases harity : op.arity = .fixed 1
    · rw [if_pos harity, if_pos harity, Exec.run_bind_congr (filterAll_run xs _ hempty)]
      refine run_bind_pushAll fun ys m' h => ?_
      -- the items kept come after the same applications as `map`'s
      rw [Exec.run_map] at h
      rcases hrun : (xs.mapM fun x => applyOn fuel op named "filter" [x]).run.run
        { m with stack := {} } with ⟨e | rs, m₁⟩
      · rw [hrun] at h
        cases h
      · rw [hrun] at h
        cases h
        exact mapM_applyOn_stack xs _ rs _ hempty hrun
    · rw [if_neg harity, if_neg harity]
  · rw [invoke_combinator "reduce" 2 (fun op name items => match items with
        | [] => pure []
        | first :: rest => do pure [← fold fuel op name first rest]) rfl
      (by unfold control Lifted.control; rfl) xs m hop]
    by_cases harity : op.arity = .fixed 2
    · rw [if_pos harity, if_pos harity]
      cases xs with
      | nil => rfl
      | cons x rest =>
        dsimp only
        rw [map_eq_pure_bind, Exec.run_bind_congr (Exec.run_bind_congr (fold_run x rest _ hempty))]
        refine run_bind_pushAll fun ys m' h => ?_
        obtain ⟨r, m₁, h₁, h⟩ := Exec.ok_of_run_bind h
        rw [Exec.run_pure] at h
        cases h
        exact foldlM_applyOn_stack rest x _ r _ hempty h₁
    · rw [if_neg harity, if_neg harity]

/-- The combinators over `not`, found under its name in a fresh table, on one item. -/
theorem combinators_over_not :
    ({} : Machine).ops.get? (Token.symbol (.string "not")).text =
        some (Operator.builtin (.primitive .not)) ∧
      let m : Machine := {}
      let name := Token.symbol (.string "not")
      let op := Operator.builtin (.primitive .not)
      let xs := [Token.symbol (.boolean true)]
      let start : Machine := { m with stack := Stack.ofList (xs ++ [name]) }
      let named := (Token.operator name.text).placed name.span
      let mismatch (combinator : String) (wanted : Nat) : Except Error Unit × Machine :=
        (.error ⟨.arityMismatch combinator wanted name.text op.arity, name.span⟩,
          { m with stack := Stack.ofList xs })
      (invoke 1 (Operator.builtin (.control .map)) (Token.operator "map")).run.run start =
          (if op.arity = .fixed 1 then
            leaving ((xs.mapM fun x => applyOn 0 op named "map" [x]).run.run
              { m with stack := {} })
          else mismatch "map" 1) ∧
        (invoke 1 (Operator.builtin (.control .filter)) (Token.operator "map")).run.run start =
          (if op.arity = .fixed 1 then
            leaving ((kept xs <$> xs.mapM fun x => applyOn 0 op named "filter" [x]).run.run
              { m with stack := {} })
          else mismatch "filter" 1) ∧
        (invoke 1 (Operator.builtin (.control .reduce)) (Token.operator "map")).run.run start =
          (if op.arity = .fixed 2 then
            leaving ((match xs with
              | [] => pure []
              | x :: rest => (fun r => [r]) <$>
                rest.foldlM (fun acc y => applyOn 0 op named "reduce" [acc, y]) x).run.run
              { m with stack := {} })
          else mismatch "reduce" 2) :=
  have hop : ({} : Machine).ops.get? (Token.symbol (.string "not")).text =
      some (Operator.builtin (.primitive .not)) :=
    Table.standard_get?_of_ofName? (by decide)
  ⟨hop, combinators_fold_applications 0 (Token.operator "map") (Token.symbol (.string "not"))
    [Token.symbol (.boolean true)] {} hop⟩

end Evaluation

end Concatenative
