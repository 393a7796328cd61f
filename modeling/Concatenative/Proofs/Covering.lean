import Concatenative.Proofs.Running

/-!
# Where scanning fails

Between them the standard rules match at every character but the two parentheses: a blank is
taken by the blank rule and any other character but a parenthesis by the identifier rule. An
opening parenthesis is never given to the rules, and a closing one that no opening one took
along is matched by none of them. So a scan fails in two places only:

* at a closing parenthesis, as unrecognized input spanning that one byte;
* at an opening parenthesis that the text never closes, counting parentheses alone, as
  unmatched parentheses spanning that byte.

An opening parenthesis that is closed makes quoted code of the text up to the closing one, the
first place where the count of parentheses falls back to zero, and the scan goes on after it.

## Main results

* `Scan.longest_eq_none_iff` — the longest match fails exactly when no rule matches a character.
* `Scan.scan_close`, `Scan.scan_unclosed`, `Scan.scan_plain` — one scan, by the character it
  starts at (with `Scan.scan_closed` for a closed parenthesis).
* `Scan.tokens_go_error_iff` — a scan stops with an error exactly when a scan it reaches fails.
* `Scan.tokens_go_before_error` — the tokens found before an error lie before it.
* `scan_fails_only_at_parentheses` — all of it, for the scan of a whole text.
-/

namespace Concatenative

namespace Scan

-- ---------------------------------------------------------------------------
-- The longest match
-- ---------------------------------------------------------------------------

theorem longest_step_eq_none_iff {cs : List Char} {best : Option (Rule × Nat)} {q : Rule} :
    longest.step cs best q = none ↔
      best = none ∧ ∀ m, q.matchLength cs = some m → (cs.take m).length = 0 := by
  unfold longest.step
  cases hm : q.matchLength cs with
  | none => simp
  | some m =>
    dsimp only
    split
    · rename_i hlt
      -- a strictly longer match replaces whatever was best
      refine ⟨(fun h => nomatch h), fun ⟨hb, hq⟩ => ?_⟩
      subst hb
      simp only [Option.map_none, Option.getD_none] at hlt
      have := hq m rfl
      omega
    · rename_i hle
      refine ⟨fun hb => ⟨hb, fun m' hm' => ?_⟩, fun h => h.1⟩
      cases hm'
      subst hb
      simp only [Option.map_none, Option.getD_none] at hle
      omega

/-- The longest match fails exactly when every rule matches nothing or only the empty text. -/
theorem longest_eq_none_iff {rules : List Rule} {cs : List Char} :
    longest rules cs = none ↔
      ∀ q ∈ rules, ∀ m, q.matchLength cs = some m → (cs.take m).length = 0 := by
  -- the fold stays empty exactly while each rule it meets matches nothing
  have fold : ∀ (rs : List Rule) (best : Option (Rule × Nat)),
      rs.foldl (longest.step cs) best = none ↔
        best = none ∧ ∀ q ∈ rs, ∀ m, q.matchLength cs = some m → (cs.take m).length = 0 := by
    intro rs
    induction rs with
    | nil => simp
    | cons q qs ih =>
      intro best
      rw [List.foldl_cons, ih, longest_step_eq_none_iff]
      simp only [List.mem_cons, forall_eq_or_imp]
      tauto
  rw [longest, fold]
  simp

-- ---------------------------------------------------------------------------
-- Closing parentheses
-- ---------------------------------------------------------------------------

/-- No standard rule matches at a closing parenthesis. -/
theorem longest_close (r : List Char) : longest Rule.standard (')' :: r) = none := by
  rw [longest_eq_none_iff, Rule.standard_eq]
  intro q hq m hm
  have hnone : q.matchLength (')' :: r) = none := by
    rw [List.mem_append, List.mem_cons] at hq
    rcases hq with (rfl | hmarked) | hq
    · exact Rule.blank_cons r (by decide)
    · exact Rule.marked_none r (by decide) (by decide) (by decide) (by decide) q hmarked
    · simp only [List.mem_cons, List.not_mem_nil, or_false] at hq
      rcases hq with rfl | rfl | rfl
      · exact Rule.boolean_cons r (by decide) (by decide)
      · show Rule.numberLength (')' :: r) = none
        rw [← Rule.numberLength_takeWhile, List.takeWhile_cons_of_neg (by decide)]
        rfl
      · simp [Rule.identifier, Rule.isWordChar, Rule.nonempty]
  rw [hnone] at hm
  cases hm

/-- A closing parenthesis where a token starts is unrecognized input spanning its one byte. -/
theorem scan_close (v : Vocabulary) (o : Nat) (r : List Char) :
    scan Rule.standard v ⟨o, ')' :: r⟩ =
      .error ⟨.unrecognizedInput (String.ofList ((')' :: r).take 32)), some ⟨o, o + 1⟩⟩ := by
  unfold scan
  simp only [longest_close]
  rfl

-- ---------------------------------------------------------------------------
-- Opening parentheses
-- ---------------------------------------------------------------------------

/-- The parenthesis that opens `cs` is closed: after it come text balanced in parentheses and a
closing parenthesis. Counting parentheses alone, that closing one is where the depth first
falls back to zero. -/
def Closed (cs : List Char) : Prop :=
  ∃ s r, cs = '(' :: (s ++ ')' :: r) ∧ Balanced s

/-- A count of parentheses that stops finds the text before the stop balanced from the depth
it started one above. -/
theorem parenLength_go_closed :
    ∀ (cs : List Char) (d count n : Nat), parenLength.go cs (d + 1) count = some n →
      ∃ s r, cs = s ++ ')' :: r ∧ parenDepth s d = some 0
  | [], _, _, _, h => by
    rw [parenLength.go] at h
    cases h
  | c :: cs, d, count, n, h => by
    rw [parenLength.go] at h
    by_cases ho : c = '('
    · -- one deeper
      subst ho
      simp only [if_true, Nat.add_eq_zero_iff, one_ne_zero, and_false, if_false] at h
      obtain ⟨s, r, rfl, hs⟩ := parenLength_go_closed cs (d + 1) (count + 1) n h
      exact ⟨'(' :: s, r, rfl, by simpa [parenDepth] using hs⟩
    · by_cases hc : c = ')'
      · subst hc
        cases d with
        | zero => exact ⟨[], cs, rfl, rfl⟩
        | succ d =>
          -- one shallower, and still open
          simp only [show ')' ≠ '(' by decide, if_false, if_true, Nat.add_sub_cancel,
            Nat.add_eq_zero_iff, one_ne_zero, and_false] at h
          obtain ⟨s, r, rfl, hs⟩ := parenLength_go_closed cs d (count + 1) n h
          exact ⟨')' :: s, r, rfl, by simpa [parenDepth] using hs⟩
      · simp only [ho, hc, if_false, Nat.add_eq_zero_iff, one_ne_zero, and_false] at h
        obtain ⟨s, r, rfl, hs⟩ := parenLength_go_closed cs d (count + 1) n h
        exact ⟨c :: s, r, rfl, by simpa [parenDepth, ho, hc] using hs⟩

/-- The count of parentheses from an opening one stops exactly when that parenthesis is
closed. -/
theorem parenLength_eq_none_iff (r : List Char) :
    parenLength ('(' :: r) = none ↔ ¬Closed ('(' :: r) := by
  constructor
  · rintro h ⟨s, r', hcs, hs⟩
    obtain rfl : r = s ++ ')' :: r' := (List.cons.inj hcs).2
    rw [parenLength_balanced hs r'] at h
    cases h
  · intro hopen
    cases hn : parenLength ('(' :: r) with
    | none => rfl
    | some n =>
      simp only [parenLength, parenLength.go, if_true, Nat.zero_add, one_ne_zero,
        if_false] at hn
      obtain ⟨s, r', rfl, hs⟩ := parenLength_go_closed r 0 1 n hn
      exact absurd ⟨s, r', rfl, hs⟩ hopen

/-- An opening parenthesis that the text never closes is unmatched, at its one byte. -/
theorem scan_unclosed (v : Vocabulary) (o : Nat) {r : List Char} (h : ¬Closed ('(' :: r)) :
    scan Rule.standard v ⟨o, '(' :: r⟩ = .error ⟨.unmatchedParentheses, some ⟨o, o + 1⟩⟩ := by
  unfold scan
  simp only [(parenLength_eq_none_iff r).mpr h]

-- ---------------------------------------------------------------------------
-- Every other character
-- ---------------------------------------------------------------------------

/-- At a character other than a parenthesis some rule matches at least one character: the
blank rule at a blank, the identifier rule anywhere else. -/
theorem scan_plain (v : Vocabulary) (o : Nat) {ch : Char} (r : List Char) (hopen : ch ≠ '(')
    (hclose : ch ≠ ')') :
    ∃ rule n, 0 < n ∧ longest Rule.standard (ch :: r) = some (rule, n) ∧
      scan Rule.standard v ⟨o, ch :: r⟩ =
        .ok (rule.build ((ch :: r).take n) ⟨o, o + utf8Length ((ch :: r).take n)⟩ v,
          ⟨o + utf8Length ((ch :: r).take n), (ch :: r).drop n⟩) := by
  -- one of the two complementary rules matches the character
  have hmatch : ∃ q ∈ Rule.standard, ∃ m, q.matchLength (ch :: r) = some m ∧
      ((ch :: r).take m).length ≠ 0 := by
    cases hb : isBlank ch with
    | true =>
      have hrun : ((ch :: r).takeWhile isBlank).length ≠ 0 := by
        simp [List.takeWhile_cons_of_pos hb]
      refine ⟨Rule.blank, by simp [Rule.standard], ((ch :: r).takeWhile isBlank).length, ?_, ?_⟩
      · simp only [Rule.blank, Rule.nonempty, if_neg hrun]
      · simp [List.takeWhile_cons_of_pos hb]
    | false =>
      have hw : Rule.isWordChar ch = true := by
        simp [Rule.isWordChar, hb, hopen, hclose]
      have hrun : ((ch :: r).takeWhile Rule.isWordChar).length ≠ 0 := by
        simp [List.takeWhile_cons_of_pos hw]
      refine ⟨Rule.identifier, by simp [Rule.standard],
        ((ch :: r).takeWhile Rule.isWordChar).length, ?_, ?_⟩
      · simp only [Rule.identifier, Rule.nonempty, if_neg hrun]
      · simp [List.takeWhile_cons_of_pos hw]
  cases hl : longest Rule.standard (ch :: r) with
  | none =>
    obtain ⟨q, hq, m, hm, hpos⟩ := hmatch
    exact absurd (longest_eq_none_iff.mp hl q hq m hm) hpos
  | some p =>
    obtain ⟨rule, n⟩ := p
    exact ⟨rule, n, (longest_bounds hl).1, rfl,
      scan_longest (List.cons_ne_nil _ _) (by simpa using hopen) hl⟩

-- ---------------------------------------------------------------------------
-- Token starts
-- ---------------------------------------------------------------------------

/-- `Visits c c'`: the scan from `c` reaches `c'`, trying a rule or a parenthesis there unless
the text has ended. Each step is one scan that succeeds, skipping text or making a token. -/
inductive Visits : Cursor → Cursor → Prop
  | refl (c : Cursor) : Visits c c
  | step {c c₁ c' : Cursor} {t? : Option Token} (v : Vocabulary) : c.rest ≠ [] →
      scan Rule.standard v c = .ok (t?, c₁) → Visits c₁ c' → Visits c c'

theorem Visits.trans {c c₁ c' : Cursor} (h₁ : Visits c c₁) (h₂ : Visits c₁ c') : Visits c c' := by
  induction h₁ with
  | refl => exact h₂
  | step v hne hs _ ih => exact .step v hne hs (ih h₂)

/-- Scanning never moves back. -/
theorem Visits.offset_le {c c' : Cursor} (h : Visits c c') : c.offset ≤ c'.offset := by
  induction h with
  | refl => exact Nat.le_refl _
  | step v hne hs _ ih =>
    obtain ⟨skip, body, close, -, hoff, -⟩ := scan_laid hne hs
    omega

/-- The faults a scan can meet at a token start: a closing parenthesis, unrecognized, or an
opening one never closed, unmatched; either spans that one byte. -/
def Fault (c : Cursor) (e : Error) : Prop :=
  (∃ r, c.rest = ')' :: r ∧
    e = ⟨.unrecognizedInput (String.ofList (c.rest.take 32)), some ⟨c.offset, c.offset + 1⟩⟩) ∨
  (∃ r, c.rest = '(' :: r ∧ ¬Closed c.rest ∧
    e = ⟨.unmatchedParentheses, some ⟨c.offset, c.offset + 1⟩⟩)

theorem Fault.rest_ne_nil {c : Cursor} {e : Error} (h : Fault c e) : c.rest ≠ [] := by
  rcases h with ⟨r, hr, -⟩ | ⟨r, hr, -⟩ <;> simp [hr]

/-- A scan at a token start fails exactly at a fault, and with it. -/
theorem scan_error_iff (v : Vocabulary) {c : Cursor} (hne : c.rest ≠ []) (e : Error) :
    scan Rule.standard v c = .error e ↔ Fault c e := by
  obtain ⟨o, cs⟩ := c
  obtain _ | ⟨ch, r⟩ := cs
  · exact absurd rfl hne
  by_cases hclose : ch = ')'
  · subst hclose
    rw [scan_close]
    simp [Fault, eq_comm]
  by_cases hopen : ch = '('
  · subst hopen
    by_cases hc : Closed ('(' :: r)
    · -- a closed parenthesis makes quoted code
      obtain ⟨s, r', hcs, hs⟩ := hc
      obtain rfl : r = s ++ ')' :: r' := (List.cons.inj hcs).2
      have hcl : Closed ('(' :: (s ++ ')' :: r')) := ⟨s, r', rfl, hs⟩
      rw [scan_closed v o hs]
      simp [Fault, hcl]
    · rw [scan_unclosed v o hc]
      simp [Fault, hc, eq_comm]
  · obtain ⟨rule, n, -, -, hs⟩ := scan_plain v o r hopen hclose
    rw [hs]
    simp [Fault, hopen, hclose]

variable {v : Vocabulary} {c : Cursor}

/-- Skipped text changes nothing about what the scan finds after it. -/
theorem tokens_go_congr_next {c₁ : Cursor} (h : next Rule.standard v c = next Rule.standard v c₁) :
    tokens.go Rule.standard v c = tokens.go Rule.standard v c₁ := by
  rcases h₁ : next Rule.standard v c₁ with e | _ | ⟨t, c₂⟩
  · rw [tokens_go_of_next_error (h.trans h₁), tokens_go_of_next_error h₁]
  · rw [tokens_go_none (h.trans h₁), tokens_go_none h₁]
  · rw [tokens_go_next (h.trans h₁), tokens_go_next h₁]

theorem visits_of_next_some {t : Token} {c₁ : Cursor}
    (h : next Rule.standard v c = .ok (some (t, c₁))) : Visits c c₁ := by
  induction c using next.induct Rule.standard v with
  | case1 c hne => rw [next, dif_pos hne] at h; cases h
  | case2 c hne e hs => rw [next_of_scan_error hne hs] at h; cases h
  | case3 c hne t' c' hs =>
    rw [next_of_scan_some hne hs] at h
    obtain ⟨-, rfl⟩ := Prod.mk.inj (Option.some.inj (Except.ok.inj h))
    exact .step v hne hs (.refl _)
  | case4 c hne c' hs ih =>
    rw [next_of_scan_none hne hs] at h
    exact .step v hne hs (ih h)

theorem visits_of_next_error {e : Error} (h : next Rule.standard v c = .error e) :
    ∃ c', Visits c c' ∧ c'.rest ≠ [] ∧ scan Rule.standard v c' = .error e := by
  induction c using next.induct Rule.standard v with
  | case1 c hne => rw [next, dif_pos hne] at h; cases h
  | case2 c hne e' hs =>
    rw [next_of_scan_error hne hs] at h
    cases h
    exact ⟨c, .refl _, hne, hs⟩
  | case3 c hne t' c' hs => rw [next_of_scan_some hne hs] at h; cases h
  | case4 c hne c' hs ih =>
    rw [next_of_scan_none hne hs] at h
    obtain ⟨c'', hv, hne', he⟩ := ih h
    exact ⟨c'', .step v hne hs hv, hne', he⟩

/-- A scan stops with an error exactly when a scan it reaches fails, and with that error. -/
theorem tokens_go_error_iff (e : Error) :
    (tokens.go Rule.standard v c).2 = some e ↔
      ∃ c', Visits c c' ∧ c'.rest ≠ [] ∧ scan Rule.standard v c' = .error e := by
  constructor
  · intro h
    induction c using tokens.go.induct Rule.standard v with
    | case1 c hn => rw [tokens_go_none hn] at h; cases h
    | case2 c e' hn =>
      rw [tokens_go_of_next_error hn] at h
      cases h
      exact visits_of_next_error hn
    | case3 c t c₁ hn ih =>
      rw [tokens_go_next hn] at h
      obtain ⟨c', hv, hne, he⟩ := ih h
      exact ⟨c', (visits_of_next_some hn).trans hv, hne, he⟩
  · rintro ⟨c', hv, hne, he⟩
    induction hv with
    | refl c => rw [tokens_go_of_next_error (next_of_scan_error hne he)]
    | @step c c₁ c' t? v' hne₁ hs _ ih =>
      -- the step under `v'` is a step under `v` to the same cursor
      obtain ⟨t?', hs', -⟩ := scan_vocab_ok hs v
      rcases t?' with _ | t
      · rw [tokens_go_congr_next (next_of_scan_none hne₁ hs')]
        exact ih hne he
      · rw [tokens_go_next (next_of_scan_some hne₁ hs')]
        exact ih hne he

/-- Every token a scan finds before it stops with an error ends before the error's place: the
scan yields nothing from beyond it. -/
theorem tokens_go_before_error {e : Error} (h : (tokens.go Rule.standard v c).2 = some e) :
    ∀ t ∈ (tokens.go Rule.standard v c).1, ∀ sp ∈ t.span, ∀ es ∈ e.span, sp.stop ≤ es.start := by
  induction c using tokens.go.induct Rule.standard v with
  | case1 c hn => rw [tokens_go_none hn] at h; cases h
  | case2 c e' hn => rw [tokens_go_of_next_error hn]; simp
  | case3 c t c₁ hn ih =>
    rw [tokens_go_next hn] at h ⊢
    -- the error is met at a token start after `c₁`, and `t` ends before `c₁`
    obtain ⟨c', hv, hne, he⟩ := (tokens_go_error_iff e).mp h
    have hspan : e.span = some ⟨c'.offset, c'.offset + 1⟩ := by
      rcases (scan_error_iff v hne e).mp he with ⟨-, -, rfl⟩ | ⟨-, -, -, rfl⟩ <;> rfl
    obtain ⟨skip, body, close, -, hoff, htspan, -⟩ := next_laid hn
    have hreach := hv.offset_le
    intro t' ht' sp hsp es hes
    rw [hspan, Option.mem_def, Option.some.injEq] at hes
    subst hes
    rcases List.mem_cons.mp ht' with rfl | ht'
    · rw [htspan, Option.mem_def, Option.some.injEq] at hsp
      subst hsp
      simp only [utf8Length_append] at hoff
      dsimp only
      omega
    · exact ih h t' ht' sp hsp _ (by rw [hspan]; rfl)

end Scan

/-- The standard scan fails exactly at stray or unmatched parentheses. Under any vocabulary, the
scan of a text stops with an error exactly when a token start it reaches holds a closing
parenthesis, which is unrecognized input, or an opening one that the text never closes, which is
unmatched; either error spans that one byte, and every token found before it ends before it.
At every other character some rule matches at least one character, and an opening parenthesis
closed after balanced text is quoted code of that text, after which the scan goes on past the
closing parenthesis. -/
theorem scan_fails_only_at_parentheses (v : Vocabulary) (text : String) :
    (∀ e, (Scan.tokens Rule.standard v text).2 = some e ↔
      ∃ c, Scan.Visits (Cursor.start text) c ∧ Scan.Fault c e) ∧
    (∀ e, (Scan.tokens Rule.standard v text).2 = some e →
      ∀ t ∈ (Scan.tokens Rule.standard v text).1, ∀ sp ∈ t.span, ∀ es ∈ e.span,
        sp.stop ≤ es.start) ∧
    (∀ (o : Nat) (ch : Char) (r : List Char), ch ≠ '(' → ch ≠ ')' →
      ∃ rule n, 0 < n ∧ Scan.longest Rule.standard (ch :: r) = some (rule, n) ∧
        Scan.scan Rule.standard v ⟨o, ch :: r⟩ =
          .ok (rule.build ((ch :: r).take n) ⟨o, o + utf8Length ((ch :: r).take n)⟩ v,
            ⟨o + utf8Length ((ch :: r).take n), (ch :: r).drop n⟩)) ∧
    ∀ (o : Nat) (s r : List Char), Balanced s →
      Scan.scan Rule.standard v ⟨o, '(' :: (s ++ ')' :: r)⟩ =
        .ok (some
          { kind := .symbol, value := .string (String.ofList s),
            span := some ⟨o + 1, o + 1 + utf8Length s⟩, tags := Tags.quoted },
          ⟨o + utf8Length s + 2, r⟩) := by
  refine ⟨fun e => ?_, fun e => Scan.tokens_go_before_error, fun o ch r => Scan.scan_plain v o r,
    fun o s r hs => Scan.scan_closed v o hs r⟩
  -- a failing scan at a token start is a fault there
  rw [Scan.tokens, Scan.tokens_go_error_iff]
  constructor
  · rintro ⟨c, hv, hne, he⟩
    exact ⟨c, hv, (Scan.scan_error_iff v hne e).mp he⟩
  · rintro ⟨c, hv, hf⟩
    exact ⟨c, hv, hf.rest_ne_nil, (Scan.scan_error_iff v hf.rest_ne_nil e).mpr hf⟩

end Concatenative
