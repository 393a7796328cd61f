import Concatenative.Proofs.Rewriting
import Concatenative.Proofs.Renaming

/-!
# Quoted code at every depth, and where hygiene fails

Quoted code is text: the scanner makes one token of a balanced run of parentheses and looks no
further into it. A text whose top level scans cleanly may therefore hold quoted code that would
not scan, such as `"(" )`, where the parenthesis inside the string hides the one that closes the
code and leaves a stray `)` behind. Such code fails only when it runs.

Hygiene breaks this rule. A text without locals at its top level is left as it is, but one with
a local is renamed by a deep substitution, which scans the text of every quoted code at every
depth; if one of those scans fails, so does hygiene, although the code may never run. So
`@x pop ("(" ))` fails while `("(" ))` runs.

`Scan.Quotes vocab T X` says that `X` is the text of quoted code found in `T` at any depth.

## Main results

* `Substitution.walk_fails_iff`, `Substitution.nested_fails_iff` — a deep substitution fails
  exactly when the scan of its text, or of some quoted code nested in it, fails.
* `Evaluation.hygiene_of_no_locals` — a text without locals at its top level is left as it is.
* `hygiene_errors` — hygiene fails with the error of the top level's scan when that scan fails,
  and otherwise exactly when the text has a local at its top level and the scan of some quoted
  code nested in it fails.
-/

namespace Concatenative

namespace Scan

/-- `Quotes vocab T X`: `X` is the text of quoted code in `T`, at any depth: of quoted code among
the tokens of `T`'s scan, or nested in the text of such code. -/
inductive Quotes (vocab : Vocabulary) : String → String → Prop
  | code {T : String} {t : Token} : t ∈ (tokens Rule.standard vocab T).1 → t.isCode = true →
      Quotes vocab T t.text
  | nested {T X : String} {t : Token} : t ∈ (tokens Rule.standard vocab T).1 →
      t.isCode = true → Quotes vocab t.text X → Quotes vocab T X

/-- The quoted code nested in a text is the code among its tokens and what is nested in that. -/
theorem quotes_iff {vocab : Vocabulary} {T X : String} :
    Quotes vocab T X ↔ ∃ t ∈ (tokens Rule.standard vocab T).1, t.isCode = true ∧
      (X = t.text ∨ Quotes vocab t.text X) := by
  constructor
  · intro h
    cases h with
    | code ht hc => exact ⟨_, ht, hc, .inl rfl⟩
    | nested ht hc hX => exact ⟨_, ht, hc, .inr hX⟩
  · rintro ⟨t, ht, hc, rfl | hX⟩
    · exact .code ht hc
    · exact .nested ht hc hX

end Scan

-- ---------------------------------------------------------------------------
-- Where a deep substitution fails
-- ---------------------------------------------------------------------------

namespace Substitution

variable {replace : Token → Option String} {deep : Bool}
  {inner : String → List Token × Except Error (String × Edits)}

/-- The walk over tokens laid out over what is left of the old text fails exactly when the
substitution inside some quoted code it opens fails: kept and replaced tokens never fail. -/
theorem walk_fails_iff :
    ∀ (ts : List Token) (p : Progress), Laid p.rest p.copied ts →
      ((∃ e, (walk replace deep inner ts p).2 = .error e) ↔
        ∃ t ∈ ts, (deep && t.isCode) = true ∧ ∃ e, (inner t.text).2 = .error e)
  | [], p, _ => by simp [walk]
  | t :: ts, p, hlaid => by
    obtain ⟨gap, body, rest, hrest, hspan, -, hscan, hlaid'⟩ := hlaid.uncons
    -- every way on past the token leaves the rest of the old text, laid out after it
    have hnext : ∀ q : Progress, q.rest = rest →
        q.copied = p.copied + utf8Length gap + utf8Length body →
        ((∃ e, (walk replace deep inner ts q).2 = .error e) ↔
          ∃ t ∈ ts, (deep && t.isCode) = true ∧ ∃ e, (inner t.text).2 = .error e) := by
      intro q hq hc
      apply walk_fails_iff ts q
      rw [hq, hc]
      exact hlaid'
    rw [walk, hspan]
    simp only [take_laid hrest, Progress.emit, Progress.record, Progress.recordShifted]
    by_cases hc : (deep && t.isCode) = true
    · -- quoted code: its text is what the walk substitutes inside
      have hcode : t.tags.code = true := by
        simp only [Token.isCode, Bool.and_eq_true] at hc
        exact hc.2
      have htext : t.text = String.ofList body := by
        simp [Token.text, (hscan.code hcode).1, Value.text]
      rw [if_pos hc]
      rcases hres : inner (String.ofList body) with ⟨iseen, _ | ⟨text, ie⟩⟩
      · simp only [Except.error.injEq, exists_eq', true_iff]
        exact ⟨t, List.mem_cons_self .., hc, _, by rw [htext, hres]⟩
      · simp only
        rw [hnext _ (by split <;> rfl) (by split <;> rfl)]
        constructor
        · rintro ⟨t', ht', hc', he⟩
          exact ⟨t', List.mem_cons_of_mem _ ht', hc', he⟩
        · rintro ⟨t', ht', hc', e, he⟩
          rcases List.mem_cons.mp ht' with rfl | ht'
          · rw [htext, hres] at he
            cases he
          · exact ⟨t', ht', hc', e, he⟩
    · -- any other token is kept or replaced, and the walk goes on
      rw [if_neg hc]
      simp only
      rw [hnext _ (by split <;> rfl) (by split <;> rfl)]
      constructor
      · rintro ⟨t', ht', hc', he⟩
        exact ⟨t', List.mem_cons_of_mem _ ht', hc', he⟩
      · rintro ⟨t', ht', hc', he⟩
        rcases List.mem_cons.mp ht' with rfl | ht'
        · exact absurd hc' hc
        · exact ⟨t', ht', hc', he⟩

/-- A deep substitution whose fuel exceeds the length of its text fails exactly when the scan of
the text, or of some quoted code nested in it at any depth, fails. The induction is on the fuel,
which still exceeds the length of quoted code's text one level down. -/
theorem nested_fails_iff (vocab : Vocabulary) (replace : Token → Option String) :
    ∀ (depth : Nat) (text : String), text.length < depth →
      ((∃ e, (nested Rule.standard vocab replace true depth text).2 = .error e) ↔
        (Scan.tokens Rule.standard vocab text).2.isSome ∨
          ∃ X, Scan.Quotes vocab text X ∧ (Scan.tokens Rule.standard vocab X).2.isSome)
  | 0, _, hd => absurd hd (Nat.not_lt_zero _)
  | depth + 1, text, hd => by
    have hlaid := Scan.tokens_laid vocab text
    rcases htoks : Scan.tokens Rule.standard vocab text with ⟨toks, stop⟩
    rw [htoks] at hlaid
    -- the walk fails exactly when some quoted code among the tokens fails, at any depth
    have hwalk : (∃ e, (walk replace true (nested Rule.standard vocab replace true depth) toks
          { rest := text.toList }).2 = .error e) ↔
        ∃ X, Scan.Quotes vocab text X ∧ (Scan.tokens Rule.standard vocab X).2.isSome := by
      rw [walk_fails_iff toks _ hlaid]
      constructor
      · rintro ⟨t, ht, hc, he⟩
        rw [Bool.true_and] at hc
        have hlen := (hlaid.code_text t ht hc).2
        rw [String.length_toList] at hlen
        have ht' : t ∈ (Scan.tokens Rule.standard vocab text).1 := by rw [htoks]; exact ht
        rcases (nested_fails_iff vocab replace depth t.text (by omega)).mp he with hs | ⟨X, hX, hs⟩
        · exact ⟨t.text, .code ht' hc, hs⟩
        · exact ⟨X, .nested ht' hc hX, hs⟩
      · rintro ⟨X, hX, hs⟩
        obtain ⟨t, ht, hc, hX⟩ := Scan.quotes_iff.mp hX
        rw [htoks] at ht
        have hlen := (hlaid.code_text t ht hc).2
        rw [String.length_toList] at hlen
        refine ⟨t, ht, by rw [Bool.true_and]; exact hc,
          (nested_fails_iff vocab replace depth t.text (by omega)).mpr ?_⟩
        rcases hX with rfl | hX
        · exact .inl hs
        · exact .inr ⟨X, hX, hs⟩
    rw [nested, htoks]
    simp only
    rcases hw : walk replace true (nested Rule.standard vocab replace true depth) toks
      { rest := text.toList } with ⟨seen, _ | p⟩
    · -- the walk failed
      have hq := hwalk.mp ⟨_, by rw [hw]⟩
      simp only [Except.error.injEq, exists_eq', true_iff]
      exact .inr hq
    · -- the walk went through: only the scan of the text itself can have failed
      have hq : ¬∃ X, Scan.Quotes vocab text X ∧ (Scan.tokens Rule.standard vocab X).2.isSome := by
        intro hX
        obtain ⟨e, he⟩ := hwalk.mpr hX
        rw [hw] at he
        cases he
      cases stop with
      | some e => simp
      | none => simpa using hq

end Substitution

-- ---------------------------------------------------------------------------
-- Where hygiene fails
-- ---------------------------------------------------------------------------

namespace Evaluation

variable {ops : Table} {T : String} {uid : Nat} {o : Origin}

/-- Hygiene fails with the error of the top level's scan, moved through the origin. -/
theorem hygiene_of_tokens_error {e : Error}
    (h : (Scan.tokens Rule.standard ops.contains T).2 = some e) :
    hygiene ops T uid o = .error (e.relocate o.locate) := by
  rw [hygiene]
  rcases htoks : Scan.tokens Rule.standard ops.contains T with ⟨toks, stop⟩
  rw [htoks] at h
  cases h
  rfl

/-- A text whose top level scans cleanly and holds no local is left as it is. -/
theorem hygiene_of_no_locals (h : (Scan.tokens Rule.standard ops.contains T).2 = none)
    (hnone : topLocals ops.contains T = []) : hygiene ops T uid o = .ok (T, {}) := by
  rw [hygiene]
  rcases htoks : Scan.tokens Rule.standard ops.contains T with ⟨toks, stop⟩
  rw [htoks] at h
  cases h
  have hempty : (toks.filter (·.kind == .localName)).map Token.text = [] := by
    simpa [topLocals, htoks] using hnone
  simp [hempty]

/-- Hygiene of a text with locals at a clean top level fails exactly when the scan of some quoted
code nested in the text fails: renaming the locals opens all of it. -/
theorem hygiene_of_locals (h : (Scan.tokens Rule.standard ops.contains T).2 = none)
    (hlocals : topLocals ops.contains T ≠ []) :
    (∃ e, hygiene ops T uid o = .error e) ↔
      ∃ X, Scan.Quotes ops.contains T X ∧ (Scan.tokens Rule.standard ops.contains X).2.isSome := by
  rw [hygiene]
  rcases htoks : Scan.tokens Rule.standard ops.contains T with ⟨toks, stop⟩
  rw [htoks] at h
  cases h
  have hne : (toks.filter (·.kind == .localName)).map Token.text ≠ [] := by
    simpa [topLocals, htoks] using hlocals
  simp only [List.isEmpty_iff, hne, if_false]
  -- the renaming is a deep substitution, which fails where some nested scan fails
  split
  · rename_i e he
    have hdeep := (Substitution.nested_fails_iff _ _ (T.length + 1) T (Nat.lt_succ_self _)).mp
      ⟨e, he⟩
    rw [htoks] at hdeep
    simpa using hdeep
  · rename_i r hr
    constructor
    · rintro ⟨_, he⟩
      cases he
    · intro hX
      obtain ⟨e, he⟩ := (Substitution.nested_fails_iff _ _ (T.length + 1) T
        (Nat.lt_succ_self _)).mpr (.inr hX)
      rw [Substitution.run] at hr
      rw [hr] at he
      cases he

end Evaluation

/-- Hygiene fails when the scan of the text's top level fails, and then with that scan's error,
moved through the text's origin. Beyond that it fails exactly when the text has a local at its
top level and the scan of some quoted code nested in it, at any depth, fails: renaming the locals
opens quoted code that the scan of the top level never looks into, although that code may never
run. -/
theorem hygiene_errors (ops : Table) (T : String) (uid : Nat) (o : Origin) :
    (∀ e, (Scan.tokens Rule.standard ops.contains T).2 = some e →
        Evaluation.hygiene ops T uid o = .error (e.relocate o.locate)) ∧
      ((∃ e, Evaluation.hygiene ops T uid o = .error e) ↔
        (Scan.tokens Rule.standard ops.contains T).2.isSome ∨
          (topLocals ops.contains T ≠ [] ∧
            ∃ X, Scan.Quotes ops.contains T X ∧ (Scan.tokens Rule.standard ops.contains X).2.isSome)) := by
  refine ⟨fun e he => Evaluation.hygiene_of_tokens_error he, ?_⟩
  rcases hstop : (Scan.tokens Rule.standard ops.contains T).2 with _ | e
  · -- the top level scans cleanly: only quoted code can fail, and only when there are locals
    by_cases hlocals : topLocals ops.contains T = []
    · rw [Evaluation.hygiene_of_no_locals hstop hlocals]
      simp [hlocals]
    · rw [Evaluation.hygiene_of_locals hstop hlocals]
      simp [hlocals]
  · simp [Evaluation.hygiene_of_tokens_error hstop]

/-- The quoted code of `@x pop ("(" ))` holds a string that hides the parenthesis closing the code
and leaves a stray one behind. The top level scans cleanly, but its local makes hygiene scan the
code, and hygiene fails. -/
example :
    (Scan.tokens Rule.standard Table.standard.contains "@x pop (\"(\" ))").2 = none ∧
      (Evaluation.hygiene Table.standard "@x pop (\"(\" ))" 0 .source).toOption = none :=
  ⟨by decide +kernel, by decide +kernel⟩

end Concatenative
