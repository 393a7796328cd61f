import Concatenative.Proofs.Renaming

/-!
# Classifying identifiers

The vocabulary is consulted once per token, by the identifier rule alone: a word is an operator
when the vocabulary has it and a string otherwise. Everything else a scan does is the same under
every vocabulary. This module makes that exact. Each search for a token finds either a token
that every vocabulary gives alike or the word of an identifier at its span (`Scan.Found`), and
the vocabulary of that step only decides which token the word becomes (`Scan.Found.realize`).

A scan whose vocabulary changes from one search to the next, as the operator table changes while
a text runs, is `Scan.scheduled`; with one vocabulary throughout it is `Scan.tokens`.

## Main results

* `Scan.scheduled_realize` — from any cursor, the scan finds one list of words and tokens and
  stops at one error whatever vocabularies it consults, and the token of each step is what its
  vocabulary makes of what was found there.
* `Substitution.run_reclassified` — a substitution whose replacer looks only at a token's
  span, value and whether it is a local gives the same text and record under every vocabulary.
* `topLocals_vocab`, `Evaluation.hygiene_vocab` — the locals of a text and its renaming do not
  depend on the operator table.
* `scan_ignores_vocabulary` — the three together.
-/

namespace Concatenative

namespace Scan

/-- What one search for a token finds before the vocabulary is consulted: a token that every
vocabulary gives alike, or the word of an identifier at its span. -/
inductive Found where
  | token (t : Token)
  | word (w : String) (span : Span)

namespace Found

/-- The token found under a vocabulary: a word is an operator with no tags when the vocabulary
has it, and a symbol tagged as a string otherwise. -/
def realize : Found → Vocabulary → Token
  | token t, _ => t
  | word w span, v => Rule.wordToken v w span

@[simp] theorem realize_token (t : Token) (v : Vocabulary) : (token t).realize v = t := rfl

@[simp] theorem realize_word (w : String) (span : Span) (v : Vocabulary) :
    (word w span).realize v = Rule.wordToken v w span := rfl

/-- Two vocabularies make tokens of one span, one value and one answer to "is it a local" of
what a search found. -/
theorem lexeme_realize (f : Found) (v v' : Vocabulary) :
    (f.realize v).lexeme = (f.realize v').lexeme := by
  cases f with
  | token t => rfl
  | word w span =>
    simp only [realize_word, Rule.wordToken]
    split <;> split <;>
      simp [Token.lexeme, Token.operator, Token.placed, Rule.stringToken]

theorem isCode_realize (f : Found) (v v' : Vocabulary) :
    (f.realize v).isCode = (f.realize v').isCode := by
  cases f with
  | token t => rfl
  | word w span =>
    simp only [realize_word, Rule.wordToken]
    split <;> split <;> rfl

end Found

-- ---------------------------------------------------------------------------
-- One step, then the next token
-- ---------------------------------------------------------------------------

/-- A standard rule finds the same thing under every vocabulary: only the identifier finds a
word. -/
theorem Rule.standard_build_found {r : Rule} (hr : r ∈ Rule.standard) (cs : List Char)
    (span : Span) : ∃ f? : Option Found, ∀ v, r.build cs span v = f?.map (·.realize v) := by
  simp only [Rule.standard, List.mem_cons, List.not_mem_nil, or_false] at hr
  rcases hr with rfl | rfl | rfl | rfl | rfl | rfl | rfl | rfl | rfl
  -- skipped text, then the six rules that ignore the vocabulary
  iterate 3 exact ⟨none, fun _ => rfl⟩
  iterate 5 exact ⟨some (.token _), fun _ => rfl⟩
  exact ⟨some (.word (String.ofList cs) span), fun v => Rule.identifier_build cs span v⟩

/-- A scan's outcome with what was found realized under `v`. -/
def realizeScan (v : Vocabulary) (r : Option Found × Cursor) : Option Token × Cursor :=
  (r.1.map (·.realize v), r.2)

/-- One scan ends in one error, or finds one thing and moves to one cursor, under every
vocabulary. -/
theorem scan_realize (c : Cursor) :
    ∃ r : Except Error (Option Found × Cursor), ∀ v,
      scan Rule.standard v c = r.map (realizeScan v) := by
  unfold scan
  split
  · exact ⟨.ok (none, c), fun _ => rfl⟩
  · split
    · exact ⟨.error _, fun _ => rfl⟩
    · exact ⟨.ok (some (.token _), _), fun _ => rfl⟩
  · split
    · exact ⟨.error _, fun _ => rfl⟩
    · rename_i rule n hn
      obtain ⟨f?, hf⟩ := Rule.standard_build_found (longest_spec hn).1 (c.rest.take n)
        ⟨c.offset, c.offset + utf8Length (c.rest.take n)⟩
      exact ⟨.ok (f?, c.advance n), fun v => by dsimp only; rw [hf v]; rfl⟩

/-- The next token's outcome with what was found realized under `v`. -/
def realizeNext (v : Vocabulary) : Option (Found × Cursor) → Option (Token × Cursor) :=
  Option.map fun p => (p.1.realize v, p.2)

/-- The search for the next token ends in one error, or at the end, or finds one thing and
moves to one cursor, under every vocabulary. -/
theorem next_realize (c : Cursor) :
    ∃ r : Except Error (Option (Found × Cursor)), ∀ v,
      next Rule.standard v c = r.map (realizeNext v) := by
  -- the vocabulary of the induction is any one; `scan_realize` carries each step to the others
  induction c using next.induct Rule.standard (fun _ => false) with
  | case1 c hne => exact ⟨.ok none, fun v => by rw [next, dif_pos hne]; rfl⟩
  | case2 c hne e hs =>
    obtain ⟨r, hr⟩ := scan_realize c
    obtain rfl : r = .error e := by
      cases r <;> simp_all [Except.map]
    exact ⟨.error e, fun v => next_of_scan_error hne (hr v)⟩
  | case3 c hne t c₁ hs =>
    obtain ⟨r, hr⟩ := scan_realize c
    obtain ⟨f, rfl⟩ : ∃ f, r = .ok (some f, c₁) := by
      rcases r with e | ⟨_ | f, c'⟩ <;> simp_all [Except.map, realizeScan]
    exact ⟨.ok (some (f, c₁)), fun v => next_of_scan_some hne (hr v)⟩
  | case4 c hne c₁ hs ih =>
    obtain ⟨r, hr⟩ := scan_realize c
    obtain rfl : r = .ok (none, c₁) := by
      rcases r with e | ⟨_ | f, c'⟩ <;> simp_all [Except.map, realizeScan]
    obtain ⟨r₁, hr₁⟩ := ih
    exact ⟨r₁, fun v => by rw [next_of_scan_none hne (hr v), hr₁ v]⟩

-- ---------------------------------------------------------------------------
-- Scans whose vocabulary changes from step to step
-- ---------------------------------------------------------------------------

/-- The tokens met scanning on from `c` when the `i`-th search for a token consults `vocab i`,
and the error that stopped the scan, if one did. -/
def scheduled (rules : List Rule) (vocab : Nat → Vocabulary) (c : Cursor) :
    List Token × Option Error :=
  match h : next rules (vocab 0) c with
  | .ok none => ([], none)
  | .error e => ([], some e)
  | .ok (some (t, c')) =>
    let rest := scheduled rules (fun i => vocab (i + 1)) c'
    (t :: rest.1, rest.2)
termination_by c.rest.length
decreasing_by exact next_rest_length h

variable {rules : List Rule} {vocab : Nat → Vocabulary} {c : Cursor}

theorem scheduled_of_next_none (h : next rules (vocab 0) c = .ok none) :
    scheduled rules vocab c = ([], none) := by
  rw [scheduled]
  split <;> simp_all

theorem scheduled_of_next_error {e : Error} (h : next rules (vocab 0) c = .error e) :
    scheduled rules vocab c = ([], some e) := by
  rw [scheduled]
  split <;> simp_all

theorem scheduled_of_next_some {t : Token} {c' : Cursor}
    (h : next rules (vocab 0) c = .ok (some (t, c'))) :
    scheduled rules vocab c =
      (t :: (scheduled rules (fun i => vocab (i + 1)) c').1,
        (scheduled rules (fun i => vocab (i + 1)) c').2) := by
  rw [scheduled]
  split <;> simp_all

/-- With one vocabulary throughout, the scan is `tokens`. -/
theorem tokens_go_eq_scheduled (v : Vocabulary) (c : Cursor) :
    tokens.go rules v c = scheduled rules (fun _ => v) c := by
  induction c using tokens.go.induct rules v with
  | case1 c h => rw [tokens.go, scheduled_of_next_none h]; split <;> simp_all
  | case2 c e h => rw [tokens.go, scheduled_of_next_error h]; split <;> simp_all
  | case3 c t c' h ih => rw [tokens.go, scheduled_of_next_some h, ← ih]; split <;> simp_all

/-- From any cursor, the scan finds one list of words and tokens and stops at one error under
every schedule of vocabularies, and its `i`-th token is what the vocabulary of the `i`-th search
makes of the `i`-th thing found. -/
theorem scheduled_realize (c : Cursor) :
    ∃ (found : List Found) (stop : Option Error), ∀ vocab : Nat → Vocabulary,
      scheduled Rule.standard vocab c = (found.mapIdx fun i f => f.realize (vocab i), stop) := by
  -- on the length of what is left to scan, one search at a time
  induction hlen : c.rest.length using Nat.strong_induction_on generalizing c with
  | _ n ih =>
    obtain ⟨r, hr⟩ := next_realize c
    rcases r with e | _ | ⟨f, c₁⟩
    · exact ⟨[], some e, fun vocab => scheduled_of_next_error (hr (vocab 0))⟩
    · exact ⟨[], none, fun vocab => scheduled_of_next_none (hr (vocab 0))⟩
    · have hshort : c₁.rest.length < n :=
        hlen ▸ next_rest_length (hr (fun _ => false))
      obtain ⟨found, stop, hrest⟩ := ih _ hshort c₁ rfl
      refine ⟨f :: found, stop, fun vocab => ?_⟩
      rw [scheduled_of_next_some (hr (vocab 0)), hrest, List.mapIdx_cons]

/-- Under one vocabulary, the tokens of a text are what it makes of the things found. -/
theorem tokens_realize (text : String) :
    ∃ (found : List Found) (stop : Option Error), ∀ v : Vocabulary,
      tokens Rule.standard v text = (found.map (·.realize v), stop) := by
  obtain ⟨found, stop, h⟩ := scheduled_realize (Cursor.start text)
  refine ⟨found, stop, fun v => ?_⟩
  rw [tokens, tokens_go_eq_scheduled, h]
  -- a constant schedule makes every step's vocabulary the same
  congr 1
  rw [List.mapIdx_eq_iff]
  intro i
  exact List.getElem?_map ..

end Scan

-- ---------------------------------------------------------------------------
-- Substitutions and renaming
-- ---------------------------------------------------------------------------

namespace Substitution

/-- Tokens that one text gives under two vocabularies: one span, one value, one answer to "is it
a local" and to "is it quoted code". -/
def Alike (t t' : Token) : Prop :=
  t.lexeme = t'.lexeme ∧ t.isCode = t'.isCode

theorem Alike.span_eq {t t' : Token} (h : Alike t t') : t.span = t'.span :=
  congrArg Prod.fst h.1

theorem Alike.text_eq {t t' : Token} (h : Alike t t') : t.text = t'.text := by
  rw [Token.text, Token.text, show t.value = t'.value from congrArg (fun l => l.2.1) h.1]

variable {replace : Token → Option String} {deep : Bool}

/-- Walking over alike tokens, with a replacer that looks only at lexemes and inner edits that
agree, writes the same text and record. -/
theorem walk_alike (hrep : ∀ t t', t.lexeme = t'.lexeme → replace t = replace t')
    {inner inner' : String → List Token × Except Error (String × Edits)}
    (hinner : ∀ s, (inner s).2 = (inner' s).2) {ts ts' : List Token}
    (hts : List.Forall₂ Alike ts ts') (p : Progress) :
    (walk replace deep inner ts p).2 = (walk replace deep inner' ts' p).2 := by
  induction hts generalizing p with
  | nil => rfl
  | @cons t t' ts ts' ht _ ih =>
    have hspan := ht.span_eq
    have hcode := ht.2
    have hr := hrep t t' ht.1
    simp only [walk, hspan, hcode, hr]
    split
    · exact ih p
    · rename_i s _
      split
      · -- quoted code: the inner edits give the same outcome on the same text
        have hin := hinner (String.ofList (take p s).2.1)
        rcases hi : inner (String.ofList (take p s).2.1) with ⟨seen, _ | ⟨text, edits⟩⟩ <;>
          rcases hi' : inner' (String.ofList (take p s).2.1) with ⟨seen', _ | ⟨text', edits'⟩⟩ <;>
          simp only [hi, hi'] at hin <;> cases hin
        · rfl
        · exact ih _
      · exact ih _

/-- Edits at any depth under two vocabularies agree when the replacer looks only at lexemes. -/
theorem nested_vocab (hrep : ∀ t t', t.lexeme = t'.lexeme → replace t = replace t')
    (v v' : Vocabulary) (depth : Nat) (text : String) :
    (nested Rule.standard v replace deep depth text).2 =
      (nested Rule.standard v' replace deep depth text).2 := by
  induction depth generalizing text with
  | zero => rfl
  | succ depth ih =>
    obtain ⟨found, stop, htoks⟩ := Scan.tokens_realize text
    have halike : List.Forall₂ Alike (found.map (·.realize v)) (found.map (·.realize v')) := by
      rw [List.forall₂_map_left_iff, List.forall₂_map_right_iff]
      exact List.forall₂_same.mpr fun f _ =>
        ⟨Scan.Found.lexeme_realize f v v', Scan.Found.isCode_realize f v v'⟩
    have hwalk := @walk_alike replace deep hrep _ _ ih _ _ halike { rest := text.toList }
    simp only [nested, htoks]
    rcases hw : walk replace deep (nested Rule.standard v replace deep depth)
        (found.map (·.realize v)) { rest := text.toList } with ⟨seen, r⟩
    rcases hw' : walk replace deep (nested Rule.standard v' replace deep depth)
        (found.map (·.realize v')) { rest := text.toList } with ⟨seen', r'⟩
    rw [hw, hw'] at hwalk ⊢
    cases hwalk
    cases r <;> cases stop <;> rfl

/-- A substitution whose replacer looks only at a token's span, value and whether it is a local
writes the same text and record, or meets the same error, under every vocabulary. -/
theorem run_reclassified (hrep : ∀ t t', t.lexeme = t'.lexeme → replace t = replace t')
    (v v' : Vocabulary) (text : String) :
    (run Rule.standard v replace deep text).2 = (run Rule.standard v' replace deep text).2 :=
  nested_vocab hrep v v' _ text

end Substitution

/-- The locals at the top level of a text are the same under every vocabulary. -/
theorem topLocals_vocab (v v' : Vocabulary) (text : String) :
    topLocals v text = topLocals v' text := by
  obtain ⟨found, stop, htoks⟩ := Scan.tokens_realize text
  -- whether a token is a local, and its text, are part of its lexeme
  have hsame : ∀ f : Scan.Found, ((f.realize v).kind == .localName) =
      ((f.realize v').kind == .localName) ∧ (f.realize v).text = (f.realize v').text := by
    intro f
    have h := Scan.Found.lexeme_realize f v v'
    simp only [Token.lexeme, Prod.mk.injEq] at h
    exact ⟨h.2.2, by simp only [Token.text, h.2.1]⟩
  simp only [topLocals, htoks, List.filter_map, List.map_map]
  have hfilter : found.filter ((fun t : Token => t.kind == .localName) ∘ (·.realize v)) =
      found.filter ((fun t : Token => t.kind == .localName) ∘ (·.realize v')) :=
    List.filter_congr fun f _ => (hsame f).1
  rw [hfilter]
  exact List.map_congr_left fun f _ => (hsame f).2

namespace Evaluation

/-- Renaming a text does not depend on the operator table: the same locals are renamed, into the
same text with the same record, or the same error is met. -/
theorem hygiene_vocab (ops ops' : Table) (text : String) (uid : Nat) (origin : Origin) :
    hygiene ops text uid origin = hygiene ops' text uid origin := by
  obtain ⟨found, stop, htoks⟩ := Scan.tokens_realize text
  have hL : ∀ o : Table, ((Scan.tokens Rule.standard o.contains text).1.filter
      (·.kind == .localName)).map Token.text = topLocals ops.contains text := by
    intro o
    rw [← topLocals_vocab o.contains ops.contains text]
    rfl
  unfold hygiene
  simp only [htoks]
  cases stop with
  | some e => rfl
  | none =>
    simp only
    have h₁ := hL ops
    have h₂ := hL ops'
    rw [htoks] at h₁ h₂
    simp only at h₁ h₂
    rw [h₁, h₂]
    split
    · rfl
    · -- the renaming asks only whether a token is a local and what its text is
      rw [Substitution.run_reclassified ?_ ops.contains ops'.contains]
      intro t t' hlex
      simp only [Token.lexeme, Prod.mk.injEq] at hlex
      have htext : t.text = t'.text := congrArg Value.text hlex.2.1
      simp only [htext, hlex.2.2]

end Evaluation

/-- Scanning does not depend on the vocabulary. Whatever vocabulary each search for a token
consults, the scan of a text finds the same things and stops at the same error: its tokens are,
one by one, what the vocabulary of their step makes of them, so they have the same spans and
values and differ only at identifiers, each an operator with no tags when its step's vocabulary
has the word and a string symbol otherwise. Hence a substitution whose replacer looks only at a
token's span, value and whether it is a local, the locals of a text and its renaming are the
same under every vocabulary. -/
theorem scan_ignores_vocabulary (text : String) :
    (∃ (found : List Scan.Found) (stop : Option Error), ∀ vocab : Nat → Vocabulary,
        Scan.scheduled Rule.standard vocab (Cursor.start text) =
          (found.mapIdx fun i f => f.realize (vocab i), stop)) ∧
    (∀ (v v' : Vocabulary) (replace : Token → Option String) (deep : Bool),
        (∀ t t', t.lexeme = t'.lexeme → replace t = replace t') →
        (Substitution.run Rule.standard v replace deep text).2 =
          (Substitution.run Rule.standard v' replace deep text).2) ∧
    (∀ v v' : Vocabulary, topLocals v text = topLocals v' text) ∧
    ∀ (ops ops' : Table) (uid : Nat) (origin : Origin),
      Evaluation.hygiene ops text uid origin = Evaluation.hygiene ops' text uid origin :=
  ⟨Scan.scheduled_realize _, fun v v' _ _ hrep => Substitution.run_reclassified hrep v v' text,
    fun v v' => topLocals_vocab v v' text,
    fun ops ops' uid origin => Evaluation.hygiene_vocab ops ops' text uid origin⟩

/-- A replacer that asks whether a token is an operator edits a text according to the table:
`dup` is replaced where the table has an operator of that name, and left where it has none. -/
theorem replacing_operators_follows_table :
    (Substitution.run Rule.standard (({} : Table).insert "dup" default).contains
        (fun t => if t.kind = .operator then some "X" else none) false "dup").2.toOption =
      some ("X", ⟨#[⟨0, 3, 1⟩]⟩) ∧
    (Substitution.run Rule.standard ({} : Table).contains
        (fun t => if t.kind = .operator then some "X" else none) false "dup").2.toOption =
      some ("dup", {}) :=
  ⟨by decide +kernel, by decide +kernel⟩

end Concatenative
