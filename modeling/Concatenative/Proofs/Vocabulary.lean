import Concatenative.Proofs.Grafting

/-!
# Scanning under any vocabulary

The vocabulary decides one thing only: whether an identifier is an operator or a string. Every
rule matches the same text under every vocabulary, and the tokens built differ only in kind and
tags, never in span or value. `Token.lexeme` is what stays: span, value, and whether the token
is a local. So a scan finds the same lexemes, the same cursors and the same errors under any
vocabulary, also one that changes from step to step, as the table does while an evaluation
runs the operators of a text it is scanning.

## Main results

* `Scan.scan_lexeme`, `Scan.next_lexeme` — one scan, and the search for the next token, give
  the same lexemes, cursors and errors under any two vocabularies.
* `Scan.Reaches` — the cursors met by a scan whose vocabulary may change at every step, and
  `Scan.Reaches.lexeme_mem`: each token met there has the lexeme of a token that the scan of
  the whole text under one vocabulary finds.
-/

namespace Concatenative

/-- What a scanned token is under any vocabulary: its span, its value and whether it is a
local. -/
def Token.lexeme (t : Token) : Option Span × Value × Bool :=
  (t.span, t.value, t.kind == .localName)

namespace Rule

/-- A standard rule builds the same lexeme under every vocabulary. -/
theorem standard_build_lexeme {r : Rule} (hr : r ∈ standard) (cs : List Char) (span : Span)
    (v v' : Vocabulary) :
    (r.build cs span v).map Token.lexeme = (r.build cs span v').map Token.lexeme := by
  simp only [standard, List.mem_cons, List.not_mem_nil, or_false] at hr
  -- every rule but the identifier ignores the vocabulary
  rcases hr with rfl | rfl | rfl | rfl | rfl | rfl | rfl | rfl | rfl <;> try rfl
  -- an identifier is the operator or the string of its own text, at its span either way
  simp only [identifier]
  split <;> split <;> rfl

end Rule

namespace Scan

variable {rules : List Rule} {v v' : Vocabulary} {c c' : Cursor}


-- ---------------------------------------------------------------------------
-- Lexemes do not depend on the vocabulary
-- ---------------------------------------------------------------------------

/-- A scan's lexeme, if it makes a token, and the cursor after it. -/
def scanLexeme (r : Option Token × Cursor) : Option (Option Span × Value × Bool) × Cursor :=
  (r.1.map Token.lexeme, r.2)

/-- The next token's lexeme and the cursor after it, if there is a next token. -/
def nextLexeme (r : Option (Token × Cursor)) : Option ((Option Span × Value × Bool) × Cursor) :=
  r.map fun p => (p.1.lexeme, p.2)

/-- One scan gives the same lexeme, cursor and error under any two vocabularies. -/
theorem scan_lexeme (v v' : Vocabulary) (c : Cursor) :
    (scan Rule.standard v c).map scanLexeme = (scan Rule.standard v' c).map scanLexeme := by
  unfold scan
  split
  · rfl
  · split <;> rfl
  · split
    · rfl
    · rename_i rule n hn
      have hr := (longest_spec hn).1
      exact congrArg Except.ok
        (Prod.ext (Rule.standard_build_lexeme hr _ _ v v') rfl)

theorem scan_vocab_error {e : Error} (h : scan Rule.standard v c = .error e) (v' : Vocabulary) :
    scan Rule.standard v' c = .error e := by
  have hl := scan_lexeme v v' c
  rw [h] at hl
  cases hs : scan Rule.standard v' c with
  | error e' =>
    rw [hs] at hl
    cases hl
    rfl
  | ok r =>
    rw [hs] at hl
    cases hl

theorem scan_vocab_ok {t? : Option Token} (h : scan Rule.standard v c = .ok (t?, c'))
    (v' : Vocabulary) :
    ∃ t?', scan Rule.standard v' c = .ok (t?', c') ∧
      t?'.map Token.lexeme = t?.map Token.lexeme := by
  have hl := scan_lexeme v v' c
  rw [h] at hl
  cases hs : scan Rule.standard v' c with
  | error e' =>
    rw [hs] at hl
    cases hl
  | ok r =>
    rw [hs] at hl
    obtain ⟨t?', c''⟩ := r
    simp only [Except.map, scanLexeme, Except.ok.injEq, Prod.mk.injEq] at hl
    obtain ⟨hlex, rfl⟩ := hl
    exact ⟨t?', rfl, hlex.symm⟩

/-- The search for the next token gives the same lexeme, cursor and error under any two
vocabularies. -/
theorem next_lexeme (v v' : Vocabulary) (c : Cursor) :
    (next Rule.standard v c).map nextLexeme = (next Rule.standard v' c).map nextLexeme := by
  induction c using next.induct Rule.standard v with
  | case1 c hne =>
    rw [next, dif_pos hne, next, dif_pos hne]
  | case2 c hne e hs =>
    rw [next_of_scan_error hne hs, next_of_scan_error hne (scan_vocab_error hs v')]
  | case3 c hne t c₁ hs =>
    obtain ⟨t?', hs', hlex⟩ := scan_vocab_ok hs v'
    -- the scan under the other vocabulary makes a token too, with the same lexeme
    obtain ⟨t', rfl, hlex'⟩ : ∃ t', t?' = some t' ∧ t'.lexeme = t.lexeme := by
      cases t?' with
      | none => cases hlex
      | some t' => exact ⟨t', rfl, Option.some.inj hlex⟩
    rw [next_of_scan_some hne hs, next_of_scan_some hne hs']
    simp only [Except.map, nextLexeme, Option.map_some, hlex']
  | case4 c hne c₁ hs ih =>
    obtain ⟨t?', hs', hlex⟩ := scan_vocab_ok hs v'
    obtain rfl : t?' = none := Option.map_eq_none_iff.mp hlex
    rw [next_of_scan_none hne hs, next_of_scan_none hne hs']
    exact ih

theorem next_vocab_some {t : Token} (h : next Rule.standard v c = .ok (some (t, c')))
    (v' : Vocabulary) :
    ∃ t', next Rule.standard v' c = .ok (some (t', c')) ∧ t'.lexeme = t.lexeme := by
  have hl := next_lexeme v v' c
  rw [h] at hl
  cases hn : next Rule.standard v' c with
  | error e' =>
    rw [hn] at hl
    cases hl
  | ok r =>
    rw [hn] at hl
    rcases r with _ | ⟨t', c''⟩
    · cases hl
    · simp only [Except.map, nextLexeme, Option.map_some, Except.ok.injEq, Option.some.injEq,
        Prod.mk.injEq] at hl
      obtain ⟨hlex, rfl⟩ := hl
      exact ⟨t', rfl, hlex.symm⟩

-- ---------------------------------------------------------------------------
-- Scans of the whole text
-- ---------------------------------------------------------------------------

theorem next_of_tokens_go_cons {t : Token} {ts : List Token}
    (h : tokens.go Rule.standard v c = (t :: ts, none)) :
    ∃ c₁, next Rule.standard v c = .ok (some (t, c₁)) ∧
      tokens.go Rule.standard v c₁ = (ts, none) := by
  rcases hn : next Rule.standard v c with e | _ | ⟨t', c'⟩
  · rw [tokens_go_of_next_error hn] at h
    cases h
  · rw [tokens_go_none hn] at h
    cases h
  · rw [tokens_go_next hn] at h
    simp only [Prod.mk.injEq, List.cons.injEq] at h
    obtain ⟨⟨rfl, rfl⟩, hstop⟩ := h
    exact ⟨c', rfl, Prod.ext rfl hstop⟩

theorem next_of_tokens_go_nil (h : tokens.go Rule.standard v c = ([], none)) :
    next Rule.standard v c = .ok none := by
  rcases hn : next Rule.standard v c with e | _ | ⟨t', c'⟩
  · rw [tokens_go_of_next_error hn] at h
    cases h
  · rfl
  · rw [tokens_go_next hn] at h
    cases h

/-- The cursors met when a text is scanned token by token from its start, under a vocabulary
that may change at every step. -/
inductive Reaches (text : String) : Cursor → Prop
  | start : Reaches text (Cursor.start text)
  | step {c c' : Cursor} {t : Token} (v : Vocabulary) : Reaches text c →
      next Rule.standard v c = .ok (some (t, c')) → Reaches text c'

/-- The tokens found on from a cursor met along the way are tokens of the whole text, under
one vocabulary held fixed. -/
theorem Reaches.tokens_go_subset {text : String} (h : Reaches text c) (v : Vocabulary) :
    ∀ t ∈ (tokens.go Rule.standard v c).1, t ∈ (tokens Rule.standard v text).1 := by
  induction h with
  | start => exact fun t ht => ht
  | @step c c' t' v' _ hn ih =>
    -- the step under `v'` is a step under `v` to the same cursor
    obtain ⟨t₀, hn₀, -⟩ := next_vocab_some hn v
    intro t ht
    apply ih
    rw [tokens_go_next hn₀]
    exact List.mem_cons_of_mem _ ht

/-- Every token met along a scan whose vocabulary changes from step to step has the lexeme of a
token of the whole text, scanned under any one vocabulary. -/
theorem Reaches.lexeme_mem {text : String} (h : Reaches text c) {t : Token}
    (hn : next Rule.standard v c = .ok (some (t, c'))) (v₀ : Vocabulary) :
    ∃ t₀ ∈ (tokens Rule.standard v₀ text).1, t₀.lexeme = t.lexeme := by
  obtain ⟨t₀, hn₀, hlex⟩ := next_vocab_some hn v₀
  refine ⟨t₀, h.tokens_go_subset v₀ t₀ ?_, hlex⟩
  rw [tokens_go_next hn₀]
  exact List.mem_cons_self ..

end Scan

end Concatenative
