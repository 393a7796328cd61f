import Concatenative.Proofs.Mirroring
import Concatenative.Proofs.Invoking

/-!
# Quoting and evaluating

`(X) eval` pushes the quoted code `X` and evaluates it, from one byte into the program and one
level deeper (`Evaluation.enter_quoted`). For `X` without `@` and balanced in parentheses this is
running `X` with every span one byte further right (`run_quoted_eval`): the same value, stack,
registers and output, or the same error, unless the one level more runs past the depth limit.
-/

namespace Concatenative

namespace Scan

/-- `(X) eval`, with `X` balanced, under a vocabulary that has `eval`: the quoted code `X`, one
operator token, and then the end. -/
theorem next_quoted_eval {v : Vocabulary} {X : String} (hb : Balanced X.toList)
    (heval : v "eval" = true) :
    next Rule.standard v (Cursor.start ("(" ++ X ++ ") eval")) =
        .ok (some (
          { kind := .symbol, value := .string X, span := some ⟨1, 1 + utf8Length X.toList⟩,
            tags := Tags.quoted },
          ⟨utf8Length X.toList + 2, [' ', 'e', 'v', 'a', 'l']⟩)) ∧
      next Rule.standard v ⟨utf8Length X.toList + 2, [' ', 'e', 'v', 'a', 'l']⟩ =
        .ok (some ((Token.operator "eval").placed
            (some ⟨utf8Length X.toList + 2 + 1, utf8Length X.toList + 2 + 1 + 4⟩),
          ⟨utf8Length X.toList + 2 + 1 + 4, []⟩)) ∧
      next Rule.standard v ⟨utf8Length X.toList + 2 + 1 + 4, []⟩ = .ok none := by
  have hcs : ("(" ++ X ++ ") eval").toList =
      '(' :: (X.toList ++ ')' :: [' ', 'e', 'v', 'a', 'l']) := by
    simp only [String.toList_append]
    rfl
  refine ⟨?_, next_blank_eval heval _, by rw [next, dif_pos rfl]⟩
  rw [Cursor.start, hcs, next_balanced hb, String.ofList_toList]
  simp only [Nat.zero_add]

end Scan

namespace Evaluation

/-- The program `(X) eval` on a fresh machine evaluates `X` one level deeper, from one byte into
the program, on the machine with its counter moved on: pushing the quoted code and taking it
back off leave nothing else behind, and what `X` leaves is what the program leaves. -/
theorem enter_quoted {X : String} (hm : '@' ∉ X.toList) (hb : Balanced X.toList) :
    ({} : Machine).enter ("(" ++ X ++ ") eval") =
      (evaluateIn 999999 X (Origin.source.displace 1)).run.run { uid := 1 } := by
  have heval : Table.standard.get? "eval" = some (Operator.builtin (.control .eval)) :=
    Table.standard_get?_of_ofName? (by decide)
  have hv : Table.standard.contains "eval" = true := by
    rw [Directory.contains_eq_isSome_get?, heval]
    rfl
  obtain ⟨hn₁, hn₂, hn₃⟩ := Scan.next_quoted_eval hb hv
  -- the program has no local, so hygiene leaves it as it is
  have hhyg : hygiene Table.standard ("(" ++ X ++ ") eval") 0 .source =
      .ok ("(" ++ X ++ ") eval", {}) := by
    have hstop : (Scan.tokens Rule.standard Table.standard.contains ("(" ++ X ++ ") eval")).2 =
        none := by
      rw [Scan.tokens, Scan.tokens_go_next hn₁, Scan.tokens_go_next hn₂,
        Scan.tokens_go_none hn₃]
    have hunmarked : '@' ∉ ("(" ++ X ++ ") eval").toList := by
      simp only [String.toList_append, List.mem_append, not_or]
      exact ⟨⟨by decide, hm⟩, by decide⟩
    rw [hygiene_unmarked _ _ _ hunmarked, hstop]
  -- the quoted code, placed, is `X` from one byte into the program
  set q := place {} .source
    { kind := .symbol, value := .string X, span := some ⟨1, 1 + utf8Length X.toList⟩,
      tags := Tags.quoted }
  have hcode : evaluateToken 999999 q = evaluateIn 999999 X (Origin.source.displace 1) := by
    rw [evaluateToken, Lifted.evaluateToken, Token.source_eq_text, place_value]
    rfl
  set caller := place {} .source ((Token.operator "eval").placed
    (some ⟨utf8Length X.toList + 2 + 1, utf8Length X.toList + 2 + 1 + 4⟩))
  have hpushed : (runFrom (999999 + 1) {} .source (Cursor.start ("(" ++ X ++ ") eval"))).run.run
      { uid := 1 } =
      (runFrom (999999 + 1) {} .source ⟨utf8Length X.toList + 2, [' ', 'e', 'v', 'a', 'l']⟩).run.run
        { uid := 1, stack := ({} : Stack Token).push q } :=
    runFrom_of_next_some hn₁ (by rw [execute_symbol _ (by rw [place_kind])]; rfl)
  have hlookup : ({ uid := 1, stack := ({} : Stack Token).push q } : Machine).ops.get? caller.text =
      some (Operator.builtin (.control .eval)) := heval
  show (evaluateIn (999999 + 1) _ .source).run.run {} = _
  rw [evaluateIn_run (m := {}) hhyg, ← hcode]
  show (runFrom (999999 + 1) {} .source (Cursor.start ("(" ++ X ++ ") eval")) >>= _).run.run
    { uid := 1 } = _
  rcases hrun : (evaluateToken 999999 q).run.run { uid := 1 } with ⟨_ | r, a₁⟩
  · -- the code fails, and with it the program
    have hx := invoke_eval_error (m := { uid := 1, stack := ({} : Stack Token).push q }) 999999
      caller q (s := {}) rfl hrun
    rw [← execute_operator (by rw [place_kind]; rfl) hlookup] at hx
    rw [Exec.run_bind_of_error (hpushed.trans (runFrom_of_execute_error hn₂ hx))]
  · -- the code leaves its value on top, and the program ends there
    have hx := invoke_eval (m := { uid := 1, stack := ({} : Stack Token).push q }) 999999
      caller q (s := {}) rfl hrun
    rw [← execute_operator (by rw [place_kind]; rfl) hlookup] at hx
    rw [Exec.run_bind_of_ok ((hpushed.trans (runFrom_of_next_some hn₂ hx)).trans
      (runFrom_of_next_none (Scan.next_vocab_none hn₃ _))), Exec.run_get_bind, Exec.run_pure]
    rw [hcode] at hrun
    rw [evaluateIn_top hrun]

end Evaluation

/-- An outcome with the spans of its stack and registers moved `n` bytes right. -/
def Outcome.displace (n : Nat) (r : Outcome) : Outcome :=
  { r with
    stack := r.stack.map (Token.displace n)
    memory := r.memory.map fun entry => (entry.1, entry.2.displace n) }

open Evaluation in
/-- Quoting a program and evaluating it is running it: for text without `@` and balanced in
parentheses, `(X) eval` ends as `X` does, with the same value, stack, registers and output,
or the same error, every span one byte further right; unless evaluating `X` one level deeper
than the program runs past the depth limit. -/
theorem run_quoted_eval {X : String} (hm : '@' ∉ X.toList) (hb : Balanced X.toList)
    (hdeep : ∀ e, run ("(" ++ X ++ ") eval") = .error e → e.code ≠ .recursionLimit) :
    run ("(" ++ X ++ ") eval") =
      ((run X).map (Outcome.displace 1)).mapError (Error.displace 1) := by
  -- `X` on a fresh machine, and `X` one level deeper and one byte right on another
  have hagree := mirrors_evaluateIn (mirrors_invoke 1 999999) hm .source { uid := 1 } {}
    (Machine.Mirror.fresh 1 1)
  have hinline : ({} : Machine).enter X = (evaluateIn (999999 + 1) X .source).run.run {} := rfl
  unfold run at hdeep ⊢
  rw [enter_quoted hm hb] at hdeep ⊢
  rw [hinline]
  generalize (evaluateIn 999999 X (Origin.source.displace 1)).run.run { uid := 1 } = ra
    at hagree hdeep ⊢
  generalize (evaluateIn (999999 + 1) X .source).run.run {} = rb at hagree ⊢
  -- the two runs end alike, fail alike, or the deeper one runs out of depth
  cases hagree with
  | ok hpost hab =>
    obtain ⟨rfl, -⟩ := hpost
    simp only [Except.map, Except.mapError, Outcome.displace, Except.ok.injEq]
    rw [hab.stack, Stack.toList_map, Directory.entries_of_get?_eq_map hab.memory, hab.output,
      Option.map_map]
    rfl
  | error hab => rfl
  | deep hd => exact absurd hd (hdeep _ rfl)

open Evaluation in
/-- `(1 +) eval` fails as `1 +` does: `+` finds one operand where it takes two, and the
underflow stands at `+` one byte further right. -/
theorem run_quoted_eval_short_sum :
    '@' ∉ "1 +".toList ∧ Balanced "1 +".toList ∧
      (∀ e, run ("(" ++ "1 +" ++ ") eval") = .error e → e.code ≠ .recursionLimit) ∧
      run ("(" ++ "1 +" ++ ") eval") =
        ((run "1 +").map (Outcome.displace 1)).mapError (Error.displace 1) := by
  have hm : '@' ∉ "1 +".toList := by decide
  have hb : Balanced "1 +".toList := by decide
  have hscan : (Scan.tokens Rule.standard Table.standard.contains "1 +").2 = none ∧
      (Scan.tokens Rule.standard Table.standard.contains "1 +").1.map
        (fun t => (t.kind, t.text)) = [(.symbol, "1"), (.operator, "+")] ∧
      topLocals Table.standard.contains "1 +" = [] := by
    decide +kernel
  obtain ⟨hstop, hlex, hloc⟩ := hscan
  obtain ⟨t₁, t₂, c₁, c₂, hn₁, hn₂, -, hk₁, -, hk₂, hx₂⟩ := Scan.next_of_tokens_pair hstop hlex
  have hsum : Table.standard.get? "+" = some (Operator.builtin (.primitive (.binary .sum))) :=
    Table.standard_get?_of_ofName? (by decide)
  -- one level down the quoted text pushes the number, and `+` underflows on it
  have hfail : ∃ e m', (evaluateIn 999999 "1 +" (Origin.source.displace 1)).run.run
      { uid := 1 } = (.error e, m') ∧ e.code = .stackUnderflow := by
    have hk : (place {} (Origin.source.displace 1) t₂).kind = .operator := by
      rw [place_kind, hk₂]
    have hop : Table.standard.get? (place {} (Origin.source.displace 1) t₂).text =
        some (Operator.builtin (.primitive (.binary .sum))) := by
      rw [place_text, hx₂]
      exact hsum
    have hone : (({} : Stack Token).push (place {} (Origin.source.displace 1) t₁)).toList =
        [place {} (Origin.source.displace 1) t₁] := rfl
    have hcol := collect_run (.fixed 2) (place {} (Origin.source.displace 1) t₂)
      { stack := ({} : Stack Token).push (place {} (Origin.source.displace 1) t₁), uid := 2 }
    dsimp only at hcol
    rw [hone, if_neg (by decide), if_pos (by simp [Arity.count])] at hcol
    obtain ⟨e, m', hplus, hcode⟩ : ∃ e m',
        (execute 999999 (place {} (Origin.source.displace 1) t₂)).run.run
          { stack := ({} : Stack Token).push (place {} (Origin.source.displace 1) t₁), uid := 2 } =
          (.error e, m') ∧ e.code = .stackUnderflow := by
      refine ⟨⟨.underflow (place {} (Origin.source.displace 1) t₂).serialize 2 1
        (some (place {} (Origin.source.displace 1) t₁).serialize),
        (place {} (Origin.source.displace 1) t₂).span⟩, { uid := 2 }, ?_, rfl⟩
      rw [execute_operator hk hop]
      show (invoke (999998 + 1) _ _).run.run _ = _
      rw [invoke_succ]
      exact Exec.run_bind_of_error hcol
    have hrest : (runFrom 999999 {} (Origin.source.displace 1) (Cursor.start "1 +")).run.run
        { uid := 2 } = (.error e, m') := by
      rw [runFrom_of_next_some hn₁ (by rw [execute_symbol _ (by rw [place_kind, hk₁])]; rfl)]
      exact runFrom_of_execute_error hn₂ hplus
    refine ⟨e, m', ?_, hcode⟩
    rw [evaluateIn_run (hygiene_of_no_locals hstop hloc)]
    exact Exec.run_bind_of_error hrest
  obtain ⟨e, m', hrun, hcode⟩ := hfail
  have hdeep : ∀ e, run ("(" ++ "1 +" ++ ") eval") = .error e → e.code ≠ .recursionLimit := by
    intro e' he
    unfold run at he
    rw [Evaluation.enter_quoted hm hb, hrun] at he
    cases he
    rw [hcode]
    decide
  exact ⟨hm, hb, hdeep, run_quoted_eval hm hb hdeep⟩

end Concatenative
