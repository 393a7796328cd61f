import Concatenative.Proofs.Preservation
import Concatenative.Proofs.Rewriting

/-!
# Spans point into the program

Every span an evaluation reports, on an error or on a token it leaves behind, lies inside the
program it was given, its ends on character boundaries (`Span.Within`). Spans are made in three
places: by the scanner, over the text it scans; by hygiene, whose record maps positions of the
renamed text back to the text it renamed; and by origins, which chain these maps from the text
of quoted code back to the program. Each keeps spans inside their texts: the scanner's spans and
errors lie inside the scanned text, a record of edits maps a character boundary of the new text
to one of the old text, and so an origin maps spans of its text into the program
(`Origin.Points`). Tokens carry their origins with them; every token a machine holds points
into the program, and evaluation keeps that (`Evaluation.Invariant.pointsInto`).

## Main results

* `Edits.Describes.mapBack_within` — a record of edits that inserts text at every splice maps
  spans of the new text to spans of the old;
* `Scan.next_error_within`, `hygiene_error_within` — scanning and hygiene fail inside their
  texts;
* `Evaluation.Invariant.pointsInto` — the invariant that every token points into the program;
* `run_spans_within` — the spans of a run's error, stack and registers lie inside the program.
-/

namespace Concatenative

-- ---------------------------------------------------------------------------
-- Character boundaries
-- ---------------------------------------------------------------------------

theorem utf8Length_eq_zero {cs : List Char} (h : utf8Length cs = 0) : cs = [] := by
  have := length_le_utf8Length cs
  exact List.eq_nil_of_length_eq_zero (by omega)

/-- `p` falls between two characters of `cs`: it is the number of bytes before them. -/
def Boundary (cs : List Char) (p : Nat) : Prop :=
  ∃ pre post, cs = pre ++ post ∧ utf8Length pre = p

namespace Boundary

variable {xs ys : List Char} {p : Nat}

theorem le (h : Boundary xs p) : p ≤ utf8Length xs := by
  obtain ⟨pre, post, rfl, rfl⟩ := h
  rw [utf8Length_append]
  omega

theorem zero (xs : List Char) : Boundary xs 0 :=
  ⟨[], xs, rfl, rfl⟩

theorem length (xs : List Char) : Boundary xs (utf8Length xs) :=
  ⟨xs, [], by simp, rfl⟩

theorem append_left (h : Boundary xs p) (ys : List Char) : Boundary (xs ++ ys) p := by
  obtain ⟨pre, post, rfl, rfl⟩ := h
  exact ⟨pre, post ++ ys, by simp, rfl⟩

theorem append_right (xs : List Char) (h : Boundary ys p) :
    Boundary (xs ++ ys) (utf8Length xs + p) := by
  obtain ⟨pre, post, rfl, rfl⟩ := h
  exact ⟨xs ++ pre, post, by simp, utf8Length_append xs pre⟩

/-- A boundary up to the end of `xs` is a boundary of `xs`. -/
theorem of_append_left (h : Boundary (xs ++ ys) p) (hp : p ≤ utf8Length xs) : Boundary xs p := by
  obtain ⟨pre, post, heq, rfl⟩ := h
  rcases List.append_eq_append_iff.mp heq with ⟨mid, rfl, -⟩ | ⟨mid, rfl, -⟩
  · -- the prefix runs past `xs` by characters of no bytes, so by none
    rw [utf8Length_append] at hp
    obtain rfl : mid = [] := utf8Length_eq_zero (by omega)
    exact ⟨xs, [], by simp, by simp⟩
  · exact ⟨pre, mid, rfl, rfl⟩

/-- A boundary from the end of `xs` on is a boundary of `ys`. -/
theorem of_append_right (h : Boundary (xs ++ ys) p) (hp : utf8Length xs ≤ p) :
    Boundary ys (p - utf8Length xs) := by
  obtain ⟨pre, post, heq, rfl⟩ := h
  rcases List.append_eq_append_iff.mp heq with ⟨mid, rfl, rfl⟩ | ⟨mid, rfl, -⟩
  · exact ⟨mid, post, rfl, by rw [utf8Length_append]; omega⟩
  · -- the prefix stops inside `xs` only where no byte is left of it
    rw [utf8Length_append] at hp
    obtain rfl : mid = [] := utf8Length_eq_zero (by omega)
    exact ⟨[], ys, rfl, by simp⟩

end Boundary

/-- A span of the text: its ends in order, on character boundaries, and so inside the text. -/
def Span.Within (text : List Char) (s : Span) : Prop :=
  s.start ≤ s.stop ∧ Boundary text s.start ∧ Boundary text s.stop

namespace Span.Within

variable {text : List Char} {s : Span}

theorem stop_le (h : Span.Within text s) : s.stop ≤ utf8Length text :=
  h.2.2.le

/-- The span of a run of characters. -/
theorem slice (pre mid post : List Char) :
    Span.Within (pre ++ mid ++ post) ⟨utf8Length pre, utf8Length pre + utf8Length mid⟩ := by
  refine ⟨Nat.le_add_right _ _, (Boundary.length pre).append_left _ |>.append_left _, ?_⟩
  have := Boundary.length (pre ++ mid)
  rw [utf8Length_append] at this
  exact this.append_left post

/-- A span of a run is, moved by the bytes before the run, a span of the whole text. -/
theorem shift {mid : List Char} (h : Span.Within mid s) (pre post : List Char) :
    Span.Within (pre ++ mid ++ post) (s.shift (utf8Length pre)) := by
  obtain ⟨hle, hstart, hstop⟩ := h
  refine ⟨by simp only [Span.shift]; omega, ?_, ?_⟩
  · simpa [Span.shift, Nat.add_comm] using (hstart.append_right pre).append_left post
  · simpa [Span.shift, Nat.add_comm] using (hstop.append_right pre).append_left post

end Span.Within

@[simp] theorem Span.shift_zero (s : Span) : s.shift 0 = s := by
  simp [Span.shift]

-- ---------------------------------------------------------------------------
-- Records of edits map boundaries to boundaries
-- ---------------------------------------------------------------------------

namespace Stretch

/-- A boundary of the new text maps to a boundary of the old text. The induction is on the
stretches: before the first one's inserted text a position keeps its distance, inside it goes
to an end of the removed text, past it the rest of the stretches decide. -/
theorem locate_boundary (atEnd : Bool) (tail : List Char) :
    ∀ (ss : List Stretch) (nb ob p : Nat), nb ≤ p →
      Boundary (ss.flatMap after ++ tail) (p - nb) →
      Boundary (ss.flatMap before ++ tail) (locate nb ob ss p atEnd - ob)
  | [], nb, ob, p, hp, hb => by
    rw [locate_nil atEnd hp]
    simpa using hb
  | s :: ss, nb, ob, p, hp, hb => by
    simp only [List.flatMap_cons, after, before, List.append_assoc] at hb ⊢
    -- past the first stretch: the rest of the stretches map the rest of the text
    have hrest : nb + utf8Length s.gap + utf8Length s.new ≤ p →
        Boundary (s.gap ++ (s.old ++ (ss.flatMap before ++ tail)))
          (locate (nb + utf8Length s.gap + utf8Length s.new)
            (ob + utf8Length s.gap + utf8Length s.old) ss p atEnd - ob) := by
      intro hpast
      have hb' := (hb.of_append_right (by omega)).of_append_right (by omega)
      have ih := locate_boundary atEnd tail ss (nb + utf8Length s.gap + utf8Length s.new)
        (ob + utf8Length s.gap + utf8Length s.old) p hpast (by
          convert hb' using 1
          omega)
      have hle := le_locate atEnd (nb + utf8Length s.gap + utf8Length s.new)
        (ob + utf8Length s.gap + utf8Length s.old) ss p hpast
      convert (ih.append_right s.old).append_right s.gap using 1
      omega
    -- in the gap, a boundary of the gap; at an end of the removed text, that end
    have hgap : p - nb ≤ utf8Length s.gap →
        Boundary (s.gap ++ (s.old ++ (ss.flatMap before ++ tail))) (p - nb) :=
      fun hle => (hb.of_append_left hle).append_left _
    have hold : Boundary (s.gap ++ (s.old ++ (ss.flatMap before ++ tail))) (utf8Length s.gap) :=
      (Boundary.length s.gap).append_left _
    have hold' : Boundary (s.gap ++ (s.old ++ (ss.flatMap before ++ tail)))
        (utf8Length s.gap + utf8Length s.old) :=
      ((Boundary.length s.old).append_left _).append_right s.gap
    cases atEnd with
    | false =>
      rw [locate_cons_start s ss hp]
      split_ifs with h1 h2
      · simpa using hgap (by omega)
      · simpa using hold
      · exact hrest (by omega)
    | true =>
      rw [locate_cons_end s ss hp]
      split_ifs with h1 h2
      · simpa using hgap (by omega)
      · simpa [Nat.add_assoc] using hold'
      · exact hrest (by omega)

end Stretch

namespace Edits.Describes

variable {e : Edits} {old new : List Char}

/-- A record that inserts text at every splice maps each span of the new text to a span of the
old one. -/
theorem mapBack_within (h : e.Describes old new) (hins : ∀ s ∈ e.splices.toList, 0 < s.inserted)
    {sp : Span} (hsp : Span.Within new sp) : Span.Within old (e.mapBack sp) := by
  obtain ⟨a, b⟩ := sp
  obtain ⟨hab, ha, hb⟩ := hsp
  have hle := h.mapBack_start_le hab (.inr fun s hs _ hzero => absurd (hins s hs) (by omega))
  obtain ⟨ss, tail, hs, rfl, rfl⟩ := h
  rw [mapBack_eq_locate hs] at hle ⊢
  refine ⟨hle, ?_, ?_⟩
  · simpa using Stretch.locate_boundary false tail ss 0 0 a (Nat.zero_le _) (by simpa using ha)
  · simpa using Stretch.locate_boundary true tail ss 0 0 b (Nat.zero_le _) (by simpa using hb)

end Edits.Describes

namespace Stretch

/-- Stretches that each put text in place of what they remove insert text at every splice. -/
theorem inserted_pos_of_regionsOf :
    ∀ (nb ob : Nat) (ss : List Stretch), (∀ r ∈ regionsOf ob ss, r.2 ≠ "") →
      ∀ sp ∈ splicesOf nb ss, 0 < sp.inserted
  | _, _, [], _, sp, hsp => absurd hsp List.not_mem_nil
  | nb, ob, s :: ss, hreg, sp, hsp => by
    rw [splicesOf_cons, List.mem_cons] at hsp
    rw [regionsOf_cons] at hreg
    rcases hsp with rfl | hsp
    · -- the first splice inserts the first stretch's new text, which is not empty
      have hnew : s.new ≠ [] := by
        intro hnil
        apply hreg _ (List.mem_cons_self ..)
        simp [hnil]
      obtain ⟨c, cs, hcs⟩ := List.exists_cons_of_ne_nil hnew
      simp only [hcs, utf8Length_cons]
      have := c.utf8Size_pos
      omega
    · exact inserted_pos_of_regionsOf _ _ ss (fun r hr => hreg r (List.mem_cons_of_mem _ hr))
        sp hsp

end Stretch

/-- Hygiene's record describes its edit of the text, and every splice puts a renamed local in
place of the local, so inserts text. -/
theorem hygiene_describes {ops : Table} {T R : String} {uid : Nat} {o : Origin} {E : Edits}
    (h : Evaluation.hygiene ops T uid o = .ok (R, E)) :
    E.Describes T.toList R.toList ∧ ∀ s ∈ E.splices.toList, 0 < s.inserted := by
  rw [Evaluation.hygiene] at h
  rcases htoks : Scan.tokens Rule.standard ops.contains T with ⟨toks, stop⟩
  simp only [htoks] at h
  cases stop with
  | some err => simp at h
  | none =>
    simp only at h
    split_ifs at h with hempty
    · -- no local at the top level: the text stays as it is
      obtain ⟨rfl, rfl⟩ : T = R ∧ ({} : Edits) = E := by simpa using h
      exact ⟨⟨[], T.toList, rfl, by simp, by simp⟩, fun s hs => absurd hs List.not_mem_nil⟩
    · split at h
      · simp at h
      · rename_i r hr
        obtain rfl : r = (R, E) := by simpa using h
        obtain ⟨-, ss, tail, hs, hold, hnew, hreg⟩ :=
          Substitution.run_substituted _ _ true T R E hr
        refine ⟨⟨ss, tail, hs, hold, hnew⟩, ?_⟩
        rw [hs]
        refine Stretch.inserted_pos_of_regionsOf 0 0 ss ?_
        rw [hreg]
        -- every replacement is a local's name followed by the suffix
        intro r hmem
        simp only [Substitution.replacements, List.mem_filterMap, Option.bind_eq_some_iff,
          Option.map_eq_some_iff] at hmem
        obtain ⟨bt, -, x, hx, s, -, rfl⟩ := hmem
        split at hx
        · cases hx
          intro hempty'
          have := congrArg String.length hempty'
          simp at this
        · cases hx

-- ---------------------------------------------------------------------------
-- The scanner's spans lie inside the scanned text
-- ---------------------------------------------------------------------------

/-- The cursor stands at a boundary of the text: what it has left is what follows there. -/
def Cursor.Within (text : List Char) (c : Cursor) : Prop :=
  ∃ pre, text = pre ++ c.rest ∧ utf8Length pre = c.offset

theorem Cursor.within_start (text : String) : (Cursor.start text).Within text.toList :=
  ⟨[], rfl, rfl⟩

namespace Rule

/-- The standard rules make tokens that come from no other text. -/
theorem standard_build_origin {r : Rule} (hr : r ∈ standard) {cs : List Char} {span : Span}
    {vocab : Vocabulary} {t : Token} (h : r.build cs span vocab = some t) : t.origin = none := by
  rcases standard_build_cases hr h with ⟨s, -, rfl⟩ | ⟨-, rfl⟩ | rfl | rfl | rfl <;> rfl

end Rule

/-- A token scanned from `text`: it comes from no other text, its span covers a run of the
text's characters, and quoted code holds that run as its text. -/
def Token.ScannedFrom (text : List Char) (t : Token) : Prop :=
  t.origin = none ∧ ∃ pre body post, text = pre ++ body ++ post ∧
    t.span = some ⟨utf8Length pre, utf8Length pre + utf8Length body⟩ ∧
    (t.tags.code = true → t.value = .string (String.ofList body))

namespace Scan

variable {vocab : Vocabulary} {text : List Char} {c c' : Cursor}

/-- One scan fails inside the text, at the character where it stands. -/
theorem scan_error_within (hc : c.Within text) {e : Error}
    (h : scan Rule.standard vocab c = .error e) :
    ∃ s, e.span = some s ∧ Span.Within text s := by
  obtain ⟨pre, rfl, hoff⟩ := hc
  unfold scan at h
  split at h
  · cases h
  · rename_i rest hrest
    split at h
    · cases h
      refine ⟨_, rfl, ?_⟩
      have := Span.Within.slice pre ['('] rest
      simpa [hrest, hoff, show '('.utf8Size = 1 from rfl] using this
    · cases h
  · rename_i ch rest _ hrest
    split at h
    · cases h
      refine ⟨_, rfl, ?_⟩
      have := Span.Within.slice pre [ch] rest
      simpa [hrest, hoff] using this
    · cases h

/-- One scan moves the cursor to a boundary, and a token it makes lies inside the text; quoted
code holds the characters its span covers, and no token made comes from another text. -/
theorem scan_within (hc : c.Within text) (hne : c.rest ≠ []) {t? : Option Token}
    (h : scan Rule.standard vocab c = .ok (t?, c')) :
    c'.Within text ∧ ∀ t, t? = some t → t.ScannedFrom text := by
  obtain ⟨pre, rfl, hoff⟩ := hc
  obtain ⟨skip, body, close, hrest, hoff', htok⟩ := scan_laid hne h
  refine ⟨⟨pre ++ skip ++ body ++ close, by simp [hrest],
      by simp [hoff', hoff, utf8Length_append]⟩,
    fun t ht => ⟨?_, pre ++ skip, body, close ++ c'.rest, by simp [hrest], ?_,
      fun hcode => ((htok t ht).2.1 hcode).2.2⟩⟩
  · -- quoted code and the rules' tokens come from no other text
    unfold scan at h
    split at h
    · cases h
      cases ht
    · split at h
      · cases h
      · cases h
        cases ht
        rfl
    · split at h
      · cases h
      · rename_i rule n hn
        cases h
        exact Rule.standard_build_origin (longest_spec hn).1 ht
  · rw [(htok t ht).1, utf8Length_append, hoff]

theorem next_within (hc : c.Within text) {t : Token}
    (h : next Rule.standard vocab c = .ok (some (t, c'))) :
    c'.Within text ∧ t.ScannedFrom text := by
  induction c using next.induct Rule.standard vocab with
  | case1 c hne => rw [next, dif_pos hne] at h; cases h
  | case2 c hne e hs => rw [next_of_scan_error hne hs] at h; cases h
  | case3 c hne t' c₁ hs =>
    rw [next_of_scan_some hne hs] at h
    cases h
    exact ⟨(scan_within hc hne hs).1, (scan_within hc hne hs).2 t rfl⟩
  | case4 c hne c₁ hs ih =>
    rw [next_of_scan_none hne hs] at h
    exact ih (scan_within hc hne hs).1 h

/-- The search for the next token fails inside the text. -/
theorem next_error_within (hc : c.Within text) {e : Error}
    (h : next Rule.standard vocab c = .error e) :
    ∃ s, e.span = some s ∧ Span.Within text s := by
  induction c using next.induct Rule.standard vocab with
  | case1 c hne => rw [next, dif_pos hne] at h; cases h
  | case2 c hne e' hs =>
    rw [next_of_scan_error hne hs] at h
    cases h
    exact scan_error_within hc hs
  | case3 c hne t' c₁ hs => rw [next_of_scan_some hne hs] at h; cases h
  | case4 c hne c₁ hs ih =>
    rw [next_of_scan_none hne hs] at h
    exact ih (scan_within hc hne hs).1 h

/-- A scan of the whole text from a boundary stops, if at all, at an error inside the text. -/
theorem tokens_go_error_within (hc : c.Within text) {e : Error}
    (h : (tokens.go Rule.standard vocab c).2 = some e) :
    ∃ s, e.span = some s ∧ Span.Within text s := by
  induction c using tokens.go.induct Rule.standard vocab with
  | case1 c hn => rw [tokens_go_none hn] at h; cases h
  | case2 c e' hn =>
    rw [tokens_go_of_next_error hn] at h
    cases h
    exact next_error_within hc hn
  | case3 c t c₁ hn ih =>
    rw [tokens_go_next hn] at h
    exact ih (next_within hc hn).1 h

/-- Every cursor met by the scan that runs a text stands at a boundary of it. -/
theorem Reaches.within {R : String} (h : Reaches R c) : c.Within R.toList := by
  induction h with
  | start => exact Cursor.within_start R
  | step v _ hn ih => exact (next_within ih hn).1

end Scan

namespace Substitution

variable {replace : Token → Option String} {deep : Bool}

/-- A walk over tokens laid out over what is left of a text fails, if at all, inside the text:
an error inside quoted code is moved to where the code stands. -/
theorem walk_error_within {inner : String → List Token × Except Error (String × Edits)}
    (hinner : ∀ (body : List Char) (e : Error), (inner (String.ofList body)).2 = .error e →
      ∀ s, e.span = some s → Span.Within body s) (text : List Char) :
    ∀ (ts : List Token) (p : Progress) (e : Error), Laid p.rest p.copied ts →
      (∃ pre, text = pre ++ p.rest ∧ utf8Length pre = p.copied) →
      (walk replace deep inner ts p).2 = .error e → ∀ s, e.span = some s → Span.Within text s
  | [], p, e, _, _, h => by simp [walk] at h
  | t :: ts, p, e, hlaid, ⟨pre, htext, hcopied⟩, h => by
    obtain ⟨gap, body, rest, hrest, hspan, -, -, hlaid'⟩ := hlaid.uncons
    rw [walk, hspan] at h
    simp only [take_laid hrest, Progress.emit, Progress.record, Progress.recordShifted] at h
    -- the walk goes on after the token, from a boundary of the text
    have hnext : ∃ pre', text = pre' ++ rest ∧
        utf8Length pre' = p.copied + utf8Length gap + utf8Length body :=
      ⟨pre ++ gap ++ body, by simp [htext, hrest],
        by simp only [utf8Length_append, hcopied, Nat.add_assoc]⟩
    split_ifs at h with hc
    · rcases hres : inner (String.ofList body) with ⟨iseen, ires⟩
      rw [hres] at h
      cases ires with
      | error err =>
        -- an error inside quoted code, moved to where the code stands
        simp only at h
        cases h
        intro s hs
        simp only [Error.relocate, Option.bind_eq_some_iff, Option.some.injEq] at hs
        obtain ⟨x, hx, rfl⟩ := hs
        have hwithin := (hinner body err (by rw [hres]) x hx).shift (pre ++ gap) rest
        rw [utf8Length_append, hcopied] at hwithin
        simpa [htext, hrest] using hwithin
      | ok res =>
        obtain ⟨new, ie⟩ := res
        simp only at h
        split at h
        · exact walk_error_within hinner text ts _ e hlaid' hnext h
        · exact walk_error_within hinner text ts _ e hlaid' hnext h
    · split at h
      · exact walk_error_within hinner text ts _ e hlaid' hnext h
      · exact walk_error_within hinner text ts _ e hlaid' hnext h

/-- A substitution fails, if at all, inside its text, at any depth of quoted code. -/
theorem nested_error_within (vocab : Vocabulary) :
    ∀ (n : Nat) (text : String) (e : Error),
      (nested Rule.standard vocab replace deep n text).2 = .error e →
        ∀ s, e.span = some s → Span.Within text.toList s
  | 0, text, e, h => by simp [nested] at h
  | n + 1, text, e, h => by
    have hlaid := Scan.tokens_laid vocab text
    rw [nested] at h
    rcases htoks : Scan.tokens Rule.standard vocab text with ⟨toks, stop⟩
    rw [htoks] at hlaid h
    rcases hw : walk replace deep (nested Rule.standard vocab replace deep n) toks
      { rest := text.toList } with ⟨seen, result⟩
    simp only [hw] at h
    cases result with
    | error err =>
      -- the walk failed, at some depth of quoted code
      cases h
      refine walk_error_within (fun body e he => ?_) text.toList toks _ e hlaid ⟨[], rfl, rfl⟩
        (by rw [hw])
      simpa using nested_error_within vocab n (String.ofList body) e he
    | ok p =>
      cases stop with
      | some err =>
        -- the scan of the text itself failed
        cases h
        obtain ⟨s, hs, hwithin⟩ := Scan.tokens_go_error_within (Cursor.within_start text)
          (show (Scan.tokens.go Rule.standard vocab (Cursor.start text)).2 = some e by
            rw [← Scan.tokens, htoks])
        intro s' hs'
        rw [hs] at hs'
        cases hs'
        exact hwithin
      | none => cases h

end Substitution

/-- Hygiene fails, if at all, at an error inside the text, moved through the text's origin. -/
theorem hygiene_error_within {ops : Table} {T : String} {uid : Nat} {o : Origin} {e : Error}
    (h : Evaluation.hygiene ops T uid o = .error e) :
    ∃ e₀ : Error, e = e₀.relocate o.locate ∧
      ∀ s, e₀.span = some s → Span.Within T.toList s := by
  rw [Evaluation.hygiene] at h
  rcases htoks : Scan.tokens Rule.standard ops.contains T with ⟨toks, stop⟩
  simp only [htoks] at h
  cases stop with
  | some err =>
    simp only [Except.error.injEq] at h
    refine ⟨err, h.symm, fun s hs => ?_⟩
    obtain ⟨s', hs', hwithin⟩ := Scan.tokens_go_error_within (Cursor.within_start T)
      (show (Scan.tokens.go Rule.standard ops.contains (Cursor.start T)).2 = some err by
        rw [← Scan.tokens, htoks])
    rw [hs] at hs'
    cases hs'
    exact hwithin
  | none =>
    simp only at h
    split_ifs at h
    split at h
    · rename_i err herr
      simp only [Except.error.injEq] at h
      exact ⟨err, h.symm, Substitution.nested_error_within _ _ _ err herr⟩
    · cases h

-- ---------------------------------------------------------------------------
-- Origins and tokens that point into the program
-- ---------------------------------------------------------------------------

namespace Origin

/-- The origin maps every span of the text `T` that it locates to a span of the program `P`. -/
def Points (P T : String) (o : Origin) : Prop :=
  ∀ s, Span.Within T.toList s → ∀ s', o.locate s = some s' → Span.Within P.toList s'

theorem points_source (P : String) : Points P P .source := by
  intro s hs s' h
  cases h
  exact hs

theorem points_detached (P T : String) : Points P T .detached :=
  fun _ _ _ h => nomatch h

theorem points_anchored {P T : String} {a : Span} (ha : Span.Within P.toList a) :
    Points P T (.anchored a) := by
  intro s _ s' h
  cases h
  exact ha

variable {P T R : String} {o : Origin} {E : Edits}

/-- Hygiene's renamed text maps through its record, then through the origin of the text. -/
theorem Points.hygiene (hT : Points P T o) {ops : Table} {uid : Nat}
    (hh : Evaluation.hygiene ops T uid o = .ok (R, E)) : Points P R (.within 0 E o) := by
  intro s hs s' h
  obtain ⟨hdesc, hins⟩ := hygiene_describes hh
  simp only [locate, Span.shift_zero] at h
  exact hT _ (hdesc.mapBack_within hins hs) s' h

/-- Quoted code that stands after `pre` in the renamed text maps through the same record, moved
to where the code stands. -/
theorem Points.code (hR : Points P R (.within 0 E o)) {pre body post : List Char}
    (hsplit : R.toList = pre ++ body ++ post) :
    Points P (String.ofList body) (.within (utf8Length pre) E o) := by
  intro s hs s' h
  refine hR (s.shift (utf8Length pre)) ?_ s' (by simpa [locate] using h)
  rw [hsplit]
  exact (by simpa using hs : Span.Within body s).shift pre post

end Origin

/-- The token's span, if it has one, and every span that its text's origin locates lie inside
the program `P`. -/
def Token.Points (P : String) (t : Token) : Prop :=
  (∀ s, t.span = some s → Span.Within P.toList s) ∧ Origin.Points P t.source t.textOrigin

namespace Token

variable {P : String} {t : Token}

theorem points_symbol (P : String) (v : Value) : (Token.symbol v).Points P :=
  ⟨fun _ h => (nomatch h), Origin.points_detached _ _⟩

/-- A token from no other text is evaluated from its own span, so it points into the program
when its span does. -/
theorem points_of_origin_none (ho : t.origin = none)
    (hs : ∀ s, t.span = some s → Span.Within P.toList s) : t.Points P := by
  refine ⟨hs, ?_⟩
  cases hsp : t.span with
  | none =>
    simp only [textOrigin, ho, hsp]
    exact Origin.points_detached _ _
  | some s =>
    simp only [textOrigin, ho, hsp]
    exact Origin.points_anchored (hs s hsp)

end Token

/-- A token scanned from hygiene's renamed text and placed in the program points into it: its
span maps through the renamed text's origin, and so does quoted code's text, from where the code
stands. -/
theorem Evaluation.place_points {P R : String} {E : Edits} {o : Origin}
    (hR : Origin.Points P R (.within 0 E o)) {t : Token} (ht : t.ScannedFrom R.toList) :
    (Evaluation.place E o t).Points P := by
  obtain ⟨ho, pre, body, post, hsplit, hspan, hcode⟩ := ht
  have hwithin : Span.Within R.toList ⟨utf8Length pre, utf8Length pre + utf8Length body⟩ := by
    rw [hsplit]
    exact Span.Within.slice pre body post
  have hsp : ∀ s, (Evaluation.place E o t).span = some s → Span.Within P.toList s := by
    intro s hs
    have hloc : (Evaluation.place E o t).span =
        (Origin.within 0 E o).locate ⟨utf8Length pre, utf8Length pre + utf8Length body⟩ := by
      unfold Evaluation.place
      split <;> simp [hspan]
    rw [hloc] at hs
    exact hR _ hwithin s hs
  by_cases hc : t.isCode = true
  · -- quoted code is evaluated from where it stands in the renamed text
    have hv := hcode hc
    refine ⟨hsp, ?_⟩
    have htext : (Evaluation.place E o t).source = String.ofList body ∧
        (Evaluation.place E o t).textOrigin = .within (utf8Length pre) E o := by
      simp [Evaluation.place, hc, hspan, Token.source, Token.textOrigin, hv]
    rw [htext.1, htext.2]
    exact hR.code hsplit
  · -- any other token is evaluated from its own span
    have hplace : Evaluation.place E o t =
        { t with span := t.span.bind (Origin.within 0 E o).locate } := by
      simp [Evaluation.place, hc]
    rw [hplace] at hsp ⊢
    exact Token.points_of_origin_none ho hsp

theorem Directory.get?_of_mem_entries {α : Type} {d : Directory α} {name : String} {v : α}
    (h : (name, v) ∈ d.entries) : d.get? name = some v :=
  Std.TreeMap.mem_toList_iff_getElem?_eq_some.mp h

/-- The fresh table holds built-ins only. -/
theorem Table.standard_builtin {name : String} {op : Operator} (h : standard.get? name = some op) :
    ∃ b, op = Operator.builtin b := by
  have fold : ∀ (bs : List Builtin) (t : Table),
      (∀ n o, t.get? n = some o → ∃ b, o = .builtin b) →
      ∀ n o, (bs.foldl (fun t b => t.insert b.name (Operator.builtin b)) t).get? n = some o →
        ∃ b, o = .builtin b := by
    intro bs
    induction bs with
    | nil => exact fun t ht => ht
    | cons b bs ih =>
      refine fun t ht => ih _ fun n o hget => ?_
      rw [Directory.get?_insert] at hget
      split at hget
      · cases hget
        exact ⟨b, rfl⟩
      · exact ht n o hget
  exact fold _ {} (fun n o h => by simp at h) name op h

/-- A fresh machine holds no token: its stack and registers are empty, and its table holds
built-ins only, with no code. So whatever is asked of the tokens a machine holds, it asks
nothing of a fresh one. -/
theorem Machine.fresh_tokens (p : Token → Prop) :
    (∀ t ∈ ({} : Machine).stack.toList, p t) ∧
      (∀ name t, ({} : Machine).memory.get? name = some t → p t) ∧
      ∀ name op, ({} : Machine).ops.get? name = some op → ∀ code, op.behaviour = .defined code →
        p code := by
  refine ⟨fun t ht => absurd ht List.not_mem_nil, fun n t h => ?_, fun n op h code hb => ?_⟩
  · simp at h
  · obtain ⟨b, rfl⟩ := Table.standard_builtin h
    cases hb

-- ---------------------------------------------------------------------------
-- Evaluation keeps every token pointing into the program
-- ---------------------------------------------------------------------------

namespace Evaluation.Invariant

/-- Every token the machine holds points into the program `P`, as does every span an operator
runs for and every error raised. -/
def pointsInto (P : String) : Invariant where
  machine m := (∀ t ∈ m.stack.toList, t.Points P) ∧
    (∀ name t, m.memory.get? name = some t → t.Points P) ∧
    ∀ name op code, m.ops.get? name = some op → op.behaviour = .defined code → code.Points P
  token t := t.Points P
  caller t := ∀ s, t.span = some s → Span.Within P.toList s
  text T o := Origin.Points P T o
  allowed e := ∀ s, e.span = some s → Span.Within P.toList s
  stack _ hm := hm.1
  restack _ _ hm hs := ⟨hs, hm.2⟩
  load _ name t hm h := hm.2.1 name t h
  store m name t hm ht := by
    refine ⟨hm.1, fun n t' h => ?_, hm.2.2⟩
    rw [Directory.get?_insert] at h
    split at h
    · cases h
      exact ht
    · exact hm.2.1 n t' h
  forget m name hm := by
    refine ⟨hm.1, fun n t h => ?_, hm.2.2⟩
    rw [Directory.get?_erase] at h
    split at h
    · cases h
    · exact hm.2.1 n t h
  code _ name op code hm h hb := hm.2.2 name op code h hb
  install m name op hm hop := by
    refine ⟨hm.1, hm.2.1, fun n op' code h hb => ?_⟩
    rw [Directory.get?_insert] at h
    split at h
    · cases h
      exact hop code hb
    · exact hm.2.2 n op' code h hb
  remove m name hm := by
    refine ⟨hm.1, hm.2.1, fun n op code h hb => ?_⟩
    rw [Directory.get?_erase] at h
    split at h
    · cases h
    · exact hm.2.2 n op code h hb
  print _ _ hm := hm
  count _ hm := hm
  symbol v := Token.points_symbol P v
  caller_of_token _ ht := ht.1
  named _ ht := ht.1
  source _ ht := ht.2
  fault _ _ hc := hc
  hygiene_error _ _ _ _ _ hT he := by
    obtain ⟨e₀, rfl, hwithin⟩ := hygiene_error_within he
    intro s hs
    simp only [Error.relocate, Option.bind_eq_some_iff] at hs
    obtain ⟨x, hx, hs⟩ := hs
    exact hT x (hwithin x hx) s hs
  scan_error _ _ _ _ _ _ hT hh _ hc _ _ he := by
    obtain ⟨x, hx, hwithin⟩ := Scan.next_error_within hc.within he
    intro s hs
    simp only [Error.relocate, hx, Option.bind_some] at hs
    exact hT.hygiene hh x hwithin s hs
  placed _ _ _ _ _ _ hT hh _ hc _ _ _ hn := by
    have hplace := place_points (hT.hygiene hh) (Scan.next_within hc.within hn).2
    exact ⟨hplace.1, fun _ => hplace⟩

end Evaluation.Invariant

/-- A fresh machine holds no token, and its table only built-ins. -/
theorem Evaluation.Invariant.pointsInto_fresh (P : String) : (pointsInto P).Holds {} := by
  obtain ⟨hstack, hmemory, hops⟩ := Machine.fresh_tokens (Token.Points P)
  exact ⟨Table.standard_sound, hstack, hmemory, fun n op code h hb => hops n op h code hb⟩

/-- Evaluating a program on a fresh machine keeps every token pointing into the program, and an
error it raises has its span inside the program. -/
theorem evaluate_fresh_points (P : String) :
    (Evaluation.Invariant.pointsInto P).Holds ((Machine.evaluate P).run.run {}).2 ∧
      ∀ e, ((Machine.evaluate P).run.run {}).1 = .error e →
        ∀ s, e.span = some s → Span.Within P.toList s := by
  have hrun := Evaluation.Invariant.preserves_evaluate (I := .pointsInto P) (P := P)
    (Origin.points_source P) {} (Evaluation.Invariant.pointsInto_fresh P)
  refine ⟨hrun.1, fun e he => ?_⟩
  have hres := hrun.2
  rw [he] at hres
  exact hres.2

/-- Every error that a run of a program raises has its span inside the program. -/
theorem run_error_within {P : String} {e : Error} (h : run P = .error e) {s : Span}
    (hs : e.span = some s) : Span.Within P.toList s := by
  have henter : ({} : Machine).enter P = (Machine.evaluate P).run.run {} := rfl
  rcases hout : (Machine.evaluate P).run.run {} with ⟨r, m⟩
  simp only [run, henter, hout] at h
  cases r with
  | error e' =>
    cases h
    exact (evaluate_fresh_points P).2 e (by rw [hout]) s hs
  | ok top => exact nomatch h

/-- Every span that a run of a program reports lies inside the program, its ends in order and
on character boundaries: the span of its error, and the spans of the tokens it leaves on the
stack and in the registers. -/
theorem run_spans_within (P : String) :
    (∀ e, run P = .error e → ∀ s, e.span = some s → Span.Within P.toList s) ∧
      ∀ out, run P = .ok out →
        (∀ t ∈ out.stack, ∀ s, t.span = some s → Span.Within P.toList s) ∧
          ∀ entry ∈ out.memory, ∀ s, entry.2.span = some s → Span.Within P.toList s := by
  refine ⟨fun e h s hs => run_error_within h hs, fun out hrun => ?_⟩
  have henter : ({} : Machine).enter P = (Machine.evaluate P).run.run {} := rfl
  have hm := (evaluate_fresh_points P).1
  rcases hout : (Machine.evaluate P).run.run {} with ⟨r, m⟩
  rw [hout] at hm
  simp only [run, henter, hout] at hrun
  cases r with
  | error e => exact nomatch hrun
  | ok top =>
    cases hrun
    exact ⟨fun t ht => (hm.2.1 t ht).1,
      fun entry hentry => (hm.2.2.1 entry.1 entry.2 (Directory.get?_of_mem_entries hentry)).1⟩

end Concatenative
