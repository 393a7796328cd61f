import Concatenative.Proofs.Pointing

/-!
# The lexer ends, and lays its tokens over the text in order

Whatever the rules, each scan that succeeds moves the cursor forward: a rule's match is taken
only when it is longer than the best so far, which starts at nothing, so it is never empty; and
a parenthesis takes itself, what it encloses and its closing parenthesis. The cursor counts
characters, so it always stands on a character boundary of the text. The token iterator
(`Scan.pull`) therefore answers tokens, at most one error, and then none for ever, and the tokens
stand at spans of the text in order. `Scan.Made` says how a token is made at its span: quoted
code holding what the span covers, or a rule's build of what the span covers.

Main results:

* `Scan.scan_advances` — one scan from a cursor of the text moves to a cursor of the text, at
  least a byte on, and the token it makes stands between the two;
* `Scan.next_advances` — the same of the search for the next token;
* `Scan.pulls_tile` — what successive calls of the iterator answer from a cursor of the text;
* `lexer_terminates_and_tiles` — for any rule set and text, from the start.
-/

namespace Concatenative

/-- A rule that places every token it builds at the span it is given, as every standard rule
does. -/
def Rule.Placing (r : Rule) : Prop :=
  ∀ cs s vocab t, r.build cs s vocab = some t → t.span = some s

theorem Rule.standard_placing {r : Rule} (hr : r ∈ Rule.standard) : r.Placing :=
  fun _ _ _ _ h => (Rule.standard_build hr h).1

namespace Cursor

variable {text : List Char} {c : Cursor}

/-- The cursor after the whole rest: at the end of the text. -/
theorem advance_rest_rest (c : Cursor) : (c.advance c.rest.length).rest = [] := by
  simp [advance]

theorem Within.advance (hc : c.Within text) (n : Nat) : (c.advance n).Within text := by
  obtain ⟨pre, rfl, hoff⟩ := hc
  exact ⟨pre ++ c.rest.take n, by simp [Cursor.advance],
    by simp [Cursor.advance, utf8Length_append, hoff]⟩

end Cursor

namespace Scan

variable {rules : List Rule} {vocab : Vocabulary} {text : List Char} {c c' : Cursor}

/-- How the lexer makes token `t` at span `s` of `text`: `s` covers the characters `body`, and
`t` is quoted code holding `body`, which the parentheses around it enclose, or what one of the
rules builds of `body` at `s`. -/
def Made (rules : List Rule) (text : List Char) (t : Token) (s : Span) : Prop :=
  ∃ pre body post, text = pre ++ body ++ post ∧
    s = ⟨utf8Length pre, utf8Length pre + utf8Length body⟩ ∧
    ((∃ p q, pre = p ++ ['('] ∧ post = ')' :: q ∧
        t = { kind := .symbol, value := .string (String.ofList body), span := some s,
              tags := Tags.quoted }) ∨
      ∃ r ∈ rules, ∃ v, r.build body s v = some t)

/-- A token is made at a span of the text. -/
theorem Made.within {t : Token} {s : Span} (h : Made rules text t s) : Span.Within text s := by
  obtain ⟨pre, body, post, rfl, rfl, -⟩ := h
  exact Span.Within.slice pre body post

/-- A token of rules that place their tokens stands at the span it is made at. -/
theorem Made.span_eq (hp : ∀ r ∈ rules, r.Placing) {t : Token} {s : Span}
    (h : Made rules text t s) : t.span = some s := by
  obtain ⟨pre, body, post, -, -, ⟨p, q, -, -, rfl⟩ | ⟨r, hr, v, hb⟩⟩ := h
  · rfl
  · exact hp r hr _ _ _ _ hb

/-- One scan from a cursor of `text` that is not at its end moves to a cursor of `text`, one byte
on at least and two past a parenthesis; a token it makes is made at a span that starts at the
cursor or after it, before the cursor it leaves, and ends by that cursor. -/
theorem scan_advances (hc : c.Within text) (hne : c.rest ≠ []) {t? : Option Token}
    (h : scan rules vocab c = .ok (t?, c')) :
    c'.Within text ∧ c.offset + 1 ≤ c'.offset ∧
      (c.rest.head? = some '(' → c.offset + 2 ≤ c'.offset) ∧
      ∀ t, t? = some t → ∃ s, Made rules text t s ∧ c.offset ≤ s.start ∧ s.start < c'.offset ∧
        s.stop ≤ c'.offset := by
  have hwithin := hc
  obtain ⟨pre, rfl, hoff⟩ := hc
  obtain ⟨o, cs⟩ := c
  dsimp only at hoff hne h hwithin ⊢
  subst hoff
  by_cases hp : cs.head? = some '('
  · -- a parenthesis takes itself, what it encloses and the parenthesis that closes it
    obtain ⟨r, rfl⟩ : ∃ r, cs = '(' :: r := by
      cases cs with
      | nil => cases hp
      | cons x r => exact ⟨r, by simp_all⟩
    obtain ⟨n, hn, rfl, rfl⟩ := paren_of_scan h
    obtain ⟨inner, rest, rfl, rfl⟩ := parenLength_eq hn
    have htake : ('(' :: (inner ++ ')' :: rest)).take (inner.length + 2) =
        '(' :: (inner ++ [')']) := by
      simp [List.take_append, List.take_of_length_le]
    have hopen : '('.utf8Size = 1 := by decide
    have hclose : ')'.utf8Size = 1 := by decide
    have hadv : utf8Length (('(' :: (inner ++ ')' :: rest)).take (inner.length + 2)) =
        utf8Length inner + 2 := by
      simp only [htake, utf8Length_cons, utf8Length_append, utf8Length_nil, hopen, hclose]
      omega
    refine ⟨hwithin.advance (inner.length + 2), by dsimp only; omega, fun _ => by dsimp only; omega,
      fun t ht => ?_⟩
    simp only [Option.some.injEq] at ht
    subst ht
    refine ⟨⟨utf8Length pre + 1, utf8Length pre + 1 + utf8Length inner⟩,
      ⟨pre ++ ['('], inner, ')' :: rest, by simp, ?_, .inl ⟨pre, rest, rfl, rfl, ?_⟩⟩,
      by simp, by dsimp only; omega, by dsimp only; omega⟩
    · simp [utf8Length_append, hopen]
    · simp [quotedCode, htake]
  · -- a rule's match is never empty
    obtain ⟨rule, n, hn, rfl, rfl⟩ := longest_of_scan hne hp h
    obtain ⟨hpos, hlen⟩ := longest_bounds hn
    have hbytes : 1 ≤ utf8Length (cs.take n) := by
      have := length_le_utf8Length (cs.take n)
      simp only [List.length_take] at this
      omega
    refine ⟨hwithin.advance n, by dsimp only; omega, fun hhead => absurd hhead hp, fun t ht => ?_⟩
    refine ⟨⟨utf8Length pre, utf8Length pre + utf8Length (cs.take n)⟩,
      ⟨pre, cs.take n, cs.drop n, by simp, rfl, .inr ?_⟩, le_refl _, by dsimp only; omega,
      le_refl _⟩
    exact ⟨rule, (longest_spec hn).1, vocab, ht⟩

/-- The search for the next token from a cursor of `text` finds it at a span from the cursor on,
and leaves a cursor of `text`, past the token's start and its end, with less left. -/
theorem next_advances (hc : c.Within text) {t : Token}
    (h : next rules vocab c = .ok (some (t, c'))) :
    c'.Within text ∧ c'.rest.length < c.rest.length ∧
      ∃ s, Made rules text t s ∧ c.offset ≤ s.start ∧ s.start < c'.offset ∧ s.stop ≤ c'.offset := by
  suffices c'.Within text ∧
      ∃ s, Made rules text t s ∧ c.offset ≤ s.start ∧ s.start < c'.offset ∧ s.stop ≤ c'.offset from
    ⟨this.1, next_rest_length h, this.2⟩
  -- the scans that skip text keep the cursor inside the text and only move it on
  induction c using next.induct rules vocab with
  | case1 c hne => rw [next, dif_pos hne] at h; cases h
  | case2 c hne e hs => rw [next_of_scan_error hne hs] at h; cases h
  | case3 c hne t' c₁ hs =>
    rw [next_of_scan_some hne hs] at h
    cases h
    obtain ⟨hc', -, -, hmade⟩ := scan_advances hc hne hs
    exact ⟨hc', hmade t rfl⟩
  | case4 c hne c₁ hs ih =>
    rw [next_of_scan_none hne hs] at h
    obtain ⟨hc₁, hstep, -, -⟩ := scan_advances hc hne hs
    obtain ⟨hc', s, hmade, hstart, hlt, hstop⟩ := ih hc₁ h
    exact ⟨hc', s, hmade, by omega, hlt, hstop⟩

/-- The search fails only where text is left. -/
theorem rest_ne_nil_of_next_error {e : Error} (h : next rules vocab c = .error e) :
    c.rest ≠ [] := by
  intro hnil
  rw [next, dif_pos hnil] at h
  cases h

-- ---------------------------------------------------------------------------
-- The token iterator
-- ---------------------------------------------------------------------------

/-- What one call of the iterator answers: the token `next` finds, with the cursor after it; or,
when `next` finds none or fails, none or the error, with the cursor at the end of the text. -/
theorem pull_cases (rules : List Rule) (vocab : Vocabulary) (c : Cursor) :
    (∃ t c', next rules vocab c = .ok (some (t, c')) ∧ pull rules vocab c = (some (.ok t), c')) ∨
    (next rules vocab c = .ok none ∧ pull rules vocab c = (none, c.advance c.rest.length)) ∨
    ∃ e, next rules vocab c = .error e ∧
      pull rules vocab c = (some (.error e), c.advance c.rest.length) := by
  unfold pull
  split
  · rename_i t c' h
    exact .inl ⟨t, c', h, rfl⟩
  · rename_i h
    exact .inr (.inl ⟨h, rfl⟩)
  · rename_i e h
    exact .inr (.inr ⟨e, h, rfl⟩)

/-- At the end of the text the iterator answers none and stays where it is. -/
theorem pull_end (h : c.rest = []) : pull rules vocab c = (none, c) := by
  have hnext : next rules vocab c = .ok none := by rw [next, dif_pos h]
  obtain ⟨offset, rest⟩ := c
  simp only at h
  subst h
  simp [pull, hnext, Cursor.advance]

/-- From the end of the text every call answers none. -/
theorem pulls_end (h : c.rest = []) (vocabs : List Vocabulary) :
    pulls rules vocabs c = vocabs.map fun _ => (none, c) := by
  induction vocabs with
  | nil => rfl
  | cons v vs ih => simp [pulls, pull_end h, ih]

/-- Padding past the first `n` items changes none of them. -/
theorem take_append_replicate_succ {α : Type} (xs : List α) (a : α) (n : Nat) :
    (xs ++ List.replicate (n + 1) a).take n = (xs ++ List.replicate n a).take n := by
  rw [List.replicate_succ', ← List.append_assoc, List.take_append_of_le_length (by simp)]

/-- What successive calls of the iterator answer from a cursor of `text`: tokens, then at most
one error, then none, no more tokens and errors than characters are left; every cursor they
leave is a cursor of `text`; and the tokens are made at spans that stand in order from the
cursor on, each ending before the next starts and starting before it. The induction is on the
calls; a token moves the cursor on, and none or an error moves it to the end, where every later
call answers none. -/
theorem pulls_tile (vocabs : List Vocabulary) (hc : c.Within text) :
    ∃ (toks : List Token) (ss : List Span) (err : Option Error),
      (pulls rules vocabs c).map Prod.fst =
        ((toks.map (fun t => some (.ok t)) ++ err.toList.map (fun e => some (.error e)) ++
          List.replicate vocabs.length none : List (Option (Except Error Token)))).take
            vocabs.length ∧
      (∀ p ∈ pulls rules vocabs c, p.2.Within text) ∧
      toks.length + err.toList.length ≤ c.rest.length ∧
      List.Forall₂ (Made rules text) toks ss ∧
      ss.Pairwise (fun s s' => s.stop ≤ s'.start ∧ s.start < s'.start) ∧
      ∀ s ∈ ss, c.offset ≤ s.start := by
  induction vocabs generalizing c with
  | nil => exact ⟨[], [], none, by simp [pulls], by simp [pulls], by simp, .nil, .nil, by simp⟩
  | cons v vs ih =>
    have hend := hc.advance c.rest.length
    have hendAll : pulls rules vs (c.advance c.rest.length) =
        vs.map fun _ => (none, c.advance c.rest.length) :=
      pulls_end (Cursor.advance_rest_rest c) vs
    rcases pull_cases rules v c with ⟨t, c', hn, hp⟩ | ⟨hn, hp⟩ | ⟨e, hn, hp⟩
    · -- a token: the calls after it go on from the cursor it leaves
      obtain ⟨hc', hlen, s, hmade, hstart, hlt, hstop⟩ := next_advances hc hn
      obtain ⟨toks, ss, err, hitems, hwithin, hcount, hmade', hpair, hafter⟩ := ih hc'
      refine ⟨t :: toks, s :: ss, err, ?_, ?_, ?_, .cons hmade hmade', ?_, ?_⟩
      · simp only [pulls, hp, List.map_cons, hitems, List.length_cons, List.cons_append,
          List.take_succ_cons]
        rw [take_append_replicate_succ]
      · intro p hpmem
        simp only [pulls, hp, List.mem_cons] at hpmem
        rcases hpmem with rfl | hpmem
        · exact hc'
        · exact hwithin p hpmem
      · simp only [List.length_cons]
        omega
      · refine List.pairwise_cons.mpr ⟨fun s' hs' => ?_, hpair⟩
        have := hafter s' hs'
        omega
      · intro s' hs'
        rcases List.mem_cons.mp hs' with rfl | hs'
        · exact hstart
        · have := hafter s' hs'
          omega
    · -- nothing more to find: none from here on
      refine ⟨[], [], none, ?_, ?_, by simp, .nil, .nil, by simp⟩
      · simp [pulls, hp, hendAll, List.replicate_succ]
      · intro p hpmem
        simp only [pulls, hp, hendAll, List.mem_cons, List.mem_map] at hpmem
        rcases hpmem with rfl | ⟨_, _, rfl⟩ <;> exact hend
    · -- an error: none from here on
      have hne := rest_ne_nil_of_next_error hn
      refine ⟨[], [], some e, ?_, ?_, ?_, .nil, .nil, by simp⟩
      · simp [pulls, hp, hendAll, List.take_replicate]
      · intro p hpmem
        simp only [pulls, hp, hendAll, List.mem_cons, List.mem_map] at hpmem
        rcases hpmem with rfl | ⟨_, _, rfl⟩ <;> exact hend
      · simp only [List.length_nil, Option.toList_some, List.length_singleton, Nat.zero_add]
        exact List.length_pos_iff.mpr hne

/-- Tokens made at spans are at those spans when the rules place their tokens. -/
theorem spans_of_placing (hp : ∀ r ∈ rules, r.Placing) {toks : List Token} {ss : List Span}
    (h : List.Forall₂ (Made rules text) toks ss) : toks.map Token.span = ss.map some := by
  induction h with
  | nil => rfl
  | cons hmade _ ih => simp [hmade.span_eq hp, ih]

/-- The spans tokens are made at lie inside the text. -/
theorem spans_within {toks : List Token} {ss : List Span}
    (h : List.Forall₂ (Made rules text) toks ss) : ∀ s ∈ ss, Span.Within text s := by
  induction h with
  | nil => simp
  | cons hmade _ ih =>
    intro s hs
    rcases List.mem_cons.mp hs with rfl | hs
    · exact hmade.within
    · exact ih s hs

end Scan

/-- The lexer ends and lays its tokens over the text in order, for any rule set, any text and any
vocabularies, one for each call of the token iterator. The longest match is never empty, so a
scan from a cursor of the text that is not at its end moves to a cursor of the text, at least one
byte on and two past a parenthesis. The iterator answers tokens, then at most one error, then
none on every later call, and tokens and error number at most one more than the text has bytes;
every cursor it leaves stands on a character boundary of the text. The tokens are made at spans
of the text (`Scan.Made`) that stand in order: each ends by the start of the next, and starts
before it. When the rules place their tokens at the spans they are given, as the standard rules
do, these spans are the tokens' own. -/
theorem lexer_terminates_and_tiles (rules : List Rule) (T : String) (vocabs : List Vocabulary) :
    (∀ cs r n, Scan.longest rules cs = some (r, n) → 0 < n) ∧
    (∀ (v : Vocabulary) (c c' : Cursor) (t? : Option Token), c.Within T.toList → c.rest ≠ [] →
      Scan.scan rules v c = .ok (t?, c') →
        c'.Within T.toList ∧ c.offset + 1 ≤ c'.offset ∧
          (c.rest.head? = some '(' → c.offset + 2 ≤ c'.offset)) ∧
    ∃ (toks : List Token) (ss : List Span) (err : Option Error),
      (Scan.pulls rules vocabs (Cursor.start T)).map Prod.fst =
        ((toks.map (fun t => some (.ok t)) ++ err.toList.map (fun e => some (.error e)) ++
          List.replicate vocabs.length none : List (Option (Except Error Token)))).take
            vocabs.length ∧
      (∀ p ∈ Scan.pulls rules vocabs (Cursor.start T), p.2.Within T.toList) ∧
      toks.length + err.toList.length ≤ T.utf8ByteSize + 1 ∧
      List.Forall₂ (Scan.Made rules T.toList) toks ss ∧
      (∀ s ∈ ss, Span.Within T.toList s) ∧
      ss.Pairwise (fun s s' => s.stop ≤ s'.start ∧ s.start < s'.start) ∧
      ((∀ r ∈ rules, r.Placing) → toks.map Token.span = ss.map some) := by
  refine ⟨fun cs r n h => (Scan.longest_bounds h).1, fun v c c' t? hc hne h => ?_, ?_⟩
  · obtain ⟨hc', hstep, hparen, -⟩ := Scan.scan_advances hc hne h
    exact ⟨hc', hstep, hparen⟩
  obtain ⟨toks, ss, err, hitems, hwithin, hcount, hmade, hpair, -⟩ :=
    @Scan.pulls_tile rules T.toList (Cursor.start T) vocabs (Cursor.within_start T)
  refine ⟨toks, ss, err, hitems, hwithin, ?_, hmade, Scan.spans_within hmade, hpair,
    fun hp => Scan.spans_of_placing hp hmade⟩
  -- a character takes at least one byte
  have := length_le_utf8Length T.toList
  rw [utf8ByteSize_eq_utf8Length]
  simp only [Cursor.start] at hcount
  omega

/-- The standard rules place their tokens, so the tokens of a text stand in order at their own
spans. -/
theorem standard_tokens_stand_in_order :
    (∀ r ∈ Rule.standard, r.Placing) ∧
      ∃ (toks : List Token) (ss : List Span),
        List.Forall₂ (Scan.Made Rule.standard "(a) b".toList) toks ss ∧
        ss.Pairwise (fun s s' => s.stop ≤ s'.start ∧ s.start < s'.start) ∧
        toks.map Token.span = ss.map some := by
  have hp : ∀ r ∈ Rule.standard, r.Placing := fun _ hr => Rule.standard_placing hr
  obtain ⟨-, -, toks, ss, -, -, -, -, hmade, -, hpair, hspans⟩ :=
    lexer_terminates_and_tiles Rule.standard "(a) b" [fun _ => false, fun _ => false]
  exact ⟨hp, toks, ss, hmade, hpair, hspans hp⟩

end Concatenative
