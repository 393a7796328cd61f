import Concatenative.Syntax.Scan

/-!
# Where the scanner puts its tokens

The scanner walks a text from the left and never looks back, so the tokens it finds stand in
order over the text: before each one a run of characters that no token covers (blanks,
comments, an opening parenthesis), then the characters its span covers. `Laid` says exactly
this of a list of tokens, and `Scan.tokens_laid` proves it for the language's rules.

Quoted code is the one token whose span does not cover its whole lexeme: its span covers the
text between the parentheses, the opening one ends the run before it and the closing one starts
the run after it.

Main results:

* `Rule.standard_build_cases` — what each standard rule builds: a string of some of the text's
  characters, a local, a boolean, a number, or an operator;
* `Rule.standard_build` — every standard rule places its token at the span it is given, and
  none makes quoted code;
* `Scan.parenLength_eq` — a balanced run is an opening parenthesis, the text inside and a
  closing one;
* `Scan.next_laid` — what one call of `next` consumes: a skipped run, the token's text, and for
  quoted code the closing parenthesis;
* `Scan.tokens_laid` — the tokens of a text stand in order over it.
-/

namespace Concatenative

-- ---------------------------------------------------------------------------
-- Tokens laid over a text
-- ---------------------------------------------------------------------------

/-- The characters of a local's name. -/
def Rule.isNameChar (c : Char) : Bool :=
  Rule.isWordChar c && c != '@'

/-- A local scanned as `body` with `rest` after it: its text is its body, an `@` and a name, and
no identifier character follows it, for the identifier rule would have matched longer. -/
def Token.LocalText (t : Token) (body rest : List Char) : Prop :=
  (∃ name, body = '@' :: name ∧ name ≠ [] ∧ ∀ c ∈ name, Rule.isNameChar c = true) ∧
    t.value = .string (String.ofList body) ∧ ∀ c ∈ rest.head?, Rule.isWordChar c = false

/-- What a scan tells of a token whose span covers `body` and after which the text goes on with
`rest`: quoted code holds its body as its text and is closed by the parenthesis that starts
`rest`, and a local is as `Token.LocalText` says. -/
structure Token.Scanned (t : Token) (body rest : List Char) : Prop where
  code : t.tags.code = true → t.value = .string (String.ofList body) ∧ ∃ r, rest = ')' :: r
  localName : t.kind = .localName → t.LocalText body rest

/-- `Laid cs off ts`: the tokens `ts` stand in order over the characters `cs`, which start at
byte `off` of their text. Each token's span covers a run `body` of the characters, after a run
`gap` that no token covers; quoted code's opening parenthesis lies in the gap. -/
inductive Laid : List Char → Nat → List Token → Prop
  | nil (cs : List Char) (off : Nat) : Laid cs off []
  | cons {gap body rest : List Char} {off : Nat} {t : Token} {ts : List Token} :
      t.span = some ⟨off + utf8Length gap, off + utf8Length gap + utf8Length body⟩ →
      (t.tags.code = true → gap ≠ []) → t.Scanned body rest →
      Laid rest (off + utf8Length gap + utf8Length body) ts →
      Laid (gap ++ body ++ rest) off (t :: ts)

/-- The span `x`, counted in a text where `cs` starts at byte `off`, covers the run `body` of
`cs`. -/
def Span.Covers (x : Span) (cs : List Char) (off : Nat) (body : List Char) : Prop :=
  ∃ pre post, cs = pre ++ body ++ post ∧
    x = ⟨off + utf8Length pre, off + utf8Length pre + utf8Length body⟩

/-- Two splits of one list whose first parts take as many bytes are the same split. -/
theorem append_eq_append_of_utf8Length {a b c d : List Char} (h : a ++ b = c ++ d)
    (hlen : utf8Length a = utf8Length c) : a = c ∧ b = d := by
  -- the longer first part differs from the shorter by characters of no bytes, so by none
  have hnil : ∀ m : List Char, utf8Length m = 0 → m = [] := fun m hm =>
    List.eq_nil_of_length_eq_zero (Nat.le_zero.mp (hm ▸ length_le_utf8Length m))
  rcases List.append_eq_append_iff.mp h with ⟨m, rfl, rfl⟩ | ⟨m, rfl, rfl⟩
  · rw [utf8Length_append] at hlen
    obtain rfl := hnil m (by omega)
    simp
  · rw [utf8Length_append] at hlen
    obtain rfl := hnil m (by omega)
    simp

namespace Span.Covers

variable {x : Span} {cs : List Char} {off : Nat} {body : List Char}

theorem prepend (pre : List Char) (h : x.Covers cs (off + utf8Length pre) body) :
    x.Covers (pre ++ cs) off body := by
  obtain ⟨a, b, rfl, rfl⟩ := h
  exact ⟨pre ++ a, b, by simp, by simp [utf8Length_append, Nat.add_assoc]⟩

theorem append (h : x.Covers cs off body) (post : List Char) : x.Covers (cs ++ post) off body := by
  obtain ⟨a, b, rfl, rfl⟩ := h
  exact ⟨a, b ++ post, by simp, rfl⟩

/-- A span covers one run of a text. -/
theorem unique {body' : List Char} (h : x.Covers cs off body) (h' : x.Covers cs off body') :
    body = body' := by
  obtain ⟨a, b, rfl, hx⟩ := h
  obtain ⟨a', b', heq, hx'⟩ := h'
  rw [hx', Span.mk.injEq] at hx
  obtain ⟨rfl, hrest⟩ := append_eq_append_of_utf8Length (by simpa using heq) (by omega)
  exact (append_eq_append_of_utf8Length hrest.symm (by omega)).1.symm

/-- The run a span of a run covers, in the text the run stands in. -/
theorem trans {y : Span} {mid : List Char} (h : x.Covers cs off mid)
    (hy : y.Covers mid x.start body) :
    y.Covers cs off body := by
  obtain ⟨a, b, rfl, rfl⟩ := h
  obtain ⟨a', b', rfl, rfl⟩ := hy
  exact ⟨a ++ a', b' ++ b, by simp, by simp [utf8Length_append, Nat.add_assoc]⟩

end Span.Covers

namespace Laid

/-- Characters before the first token join the run before it. -/
theorem prepend {cs : List Char} {off : Nat} {ts : List Token} (pre : List Char)
    (h : Laid cs (off + utf8Length pre) ts) : Laid (pre ++ cs) off ts := by
  cases h with
  | nil => exact .nil _ _
  | @cons gap body rest _ t ts hspan hcode hscan hrest =>
    have hcs : pre ++ (gap ++ body ++ rest) = (pre ++ gap) ++ body ++ rest := by
      simp [List.append_assoc]
    rw [hcs]
    refine .cons ?_ (fun hc => by simp [hcode hc]) hscan ?_
    · rw [hspan, utf8Length_append]
      congr 2 <;> omega
    · rw [utf8Length_append, ← Nat.add_assoc]
      exact hrest

/-- The first token of a layout, the runs before it and under its span, and the layout after
it. -/
theorem uncons {cs : List Char} {off : Nat} {t : Token} {ts : List Token}
    (h : Laid cs off (t :: ts)) :
    ∃ gap body rest, cs = gap ++ body ++ rest ∧
      t.span = some ⟨off + utf8Length gap, off + utf8Length gap + utf8Length body⟩ ∧
      (t.tags.code = true → gap ≠ []) ∧ t.Scanned body rest ∧
      Laid rest (off + utf8Length gap + utf8Length body) ts := by
  cases h with
  | cons hspan hcode hscan hrest => exact ⟨_, _, _, rfl, hspan, hcode, hscan, hrest⟩

/-- Each token's span covers a run of the characters; quoted code holds that run as its text. -/
theorem covers {cs : List Char} {off : Nat} {ts : List Token} (h : Laid cs off ts) :
    ∀ t ∈ ts, ∀ x, t.span = some x → ∃ body, x.Covers cs off body ∧
      (t.tags.code = true → t.value = .string (String.ofList body)) := by
  induction h with
  | nil => simp
  | @cons gap body rest off t ts hspan _ hscan _ ih =>
    intro t' ht' x hx
    rcases List.mem_cons.mp ht' with rfl | ht'
    · rw [hspan, Option.some.injEq] at hx
      exact ⟨body, ⟨gap, rest, rfl, hx.symm⟩, fun hc => (hscan.code hc).1⟩
    · obtain ⟨b, hb, hcode⟩ := ih t' ht' x hx
      have hb' : x.Covers rest (off + utf8Length (gap ++ body)) b := by
        rwa [utf8Length_append, ← Nat.add_assoc]
      exact ⟨b, hb'.prepend (gap ++ body), hcode⟩

end Laid

-- ---------------------------------------------------------------------------
-- The standard rules
-- ---------------------------------------------------------------------------

/-- Collapsing escapes only drops characters. -/
theorem unescape_subset (cs : List Char) : unescape cs ⊆ cs := by
  fun_induction unescape cs with
  | case1 r ih => exact List.cons_subset_cons _ (List.cons_subset_cons _ ih)
  | case2 c r hc ih =>
    exact List.cons_subset.mpr ⟨List.mem_cons_of_mem _ (List.mem_cons_self ..),
      fun x hx => List.mem_cons_of_mem _ (List.mem_cons_of_mem _ (ih hx))⟩
  | case3 c r h1 h2 ih => exact List.cons_subset_cons _ ih
  | case4 => exact List.Subset.refl _

namespace Rule

/-- What a standard rule builds from the text `cs` at `span`: skipped text builds nothing; a
quoted string, or an identifier the vocabulary lacks, is the string of some of the text's
characters; a local, `true` or `false` and a number are the local, boolean and number of the
text; and an identifier the vocabulary has is the operator of its word. -/
theorem standard_build_cases {r : Rule} (hr : r ∈ standard) {cs : List Char} {span : Span}
    {vocab : Vocabulary} {t : Token} (h : r.build cs span vocab = some t) :
    (∃ s ⊆ cs, t = stringToken s span) ∨
      (r = localName ∧ t = { stringToken cs span with kind := .localName }) ∨
      t = { kind := .symbol, value := .boolean (cs == ['t', 'r', 'u', 'e']), span := some span,
            tags := { boolean := true } } ∨
      t = { kind := .symbol, value := .number (Literal.read cs).value, span := some span,
            tags := { number := true } } ∨
      t = (Token.operator (String.ofList cs)).placed (some span) := by
  simp only [standard, List.mem_cons, List.not_mem_nil, or_false] at hr
  rcases hr with rfl | rfl | rfl | rfl | rfl | rfl | rfl | rfl | rfl
  · simp [blank] at h
  · simp [lineComment] at h
  · simp [blockComment] at h
  · -- the unescaped text between the quotes
    simp only [doubleQuoted, Option.some.injEq] at h
    exact .inl ⟨_, List.Subset.trans (unescape_subset _)
      (List.Subset.trans (List.dropLast_sublist _).subset (List.drop_subset _ _)), h.symm⟩
  · simp only [singleQuoted, Option.some.injEq] at h
    exact .inl ⟨_, List.Subset.trans (unescape_subset _) (List.drop_subset _ _), h.symm⟩
  · simp only [localName, Option.some.injEq] at h
    exact .inr (.inl ⟨rfl, h.symm⟩)
  · simp only [boolean, Option.some.injEq] at h
    exact .inr (.inr (.inl h.symm))
  · simp only [number, Option.some.injEq] at h
    exact .inr (.inr (.inr (.inl h.symm)))
  · simp only [identifier] at h
    split at h
    · exact .inr (.inr (.inr (.inr (Option.some.inj h).symm)))
    · exact .inl ⟨cs, List.Subset.refl _, (Option.some.inj h).symm⟩

/-- Every standard rule builds its token at the span it is given, and no rule makes quoted
code: only a parenthesis does. -/
theorem standard_build {r : Rule} (hr : r ∈ standard) {cs : List Char} {span : Span}
    {vocab : Vocabulary} {t : Token} (h : r.build cs span vocab = some t) :
    t.span = some span ∧ t.tags.code = false := by
  rcases standard_build_cases hr h with ⟨s, -, rfl⟩ | ⟨-, rfl⟩ | rfl | rfl | rfl <;>
    exact ⟨rfl, rfl⟩

/-- The local rule matches an `@` and the run of name characters after it, when the run is not
empty; what follows the run starts with no name character. -/
theorem localName_matchLength {cs : List Char} {m : Nat} (h : localName.matchLength cs = some m) :
    ∃ name after, cs = '@' :: (name ++ after) ∧ m = 1 + name.length ∧ name ≠ [] ∧
      (∀ c ∈ name, isNameChar c = true) ∧ ∀ c ∈ after.head?, isNameChar c = false := by
  simp only [localName] at h
  split at h
  next r =>
    have hpred : (fun c => isWordChar c && c != '@') = isNameChar := rfl
    simp only [hpred, nonempty] at h
    split at h
    · cases h
    next hlen =>
      simp only [Option.map_some, Option.some.injEq] at h
      refine ⟨r.takeWhile isNameChar, r.dropWhile isNameChar, by simp, h.symm,
        fun hnil => hlen (by simp [hnil]), fun c hc => List.all_eq_true.mp List.all_takeWhile c hc,
        fun c hc => ?_⟩
      -- the run stops at the first character that is no name character
      have hstop := List.head?_dropWhile_not isNameChar r
      rw [Option.mem_def.mp hc] at hstop
      exact hstop
  · cases h

end Rule

-- ---------------------------------------------------------------------------
-- One scan
-- ---------------------------------------------------------------------------

namespace Scan

/-- A scan at a character other than an opening parenthesis takes the longest match. -/
theorem scan_longest {rules : List Rule} {vocab : Vocabulary} {o : Nat} {cs : List Char}
    {rule : Rule} {n : Nat} (hne : cs ≠ []) (hp : cs.head? ≠ some '(')
    (h : longest rules cs = some (rule, n)) :
    scan rules vocab ⟨o, cs⟩ =
      .ok (rule.build (cs.take n) ⟨o, o + utf8Length (cs.take n)⟩ vocab,
        ⟨o + utf8Length (cs.take n), cs.drop n⟩) := by
  unfold scan
  split
  · exact absurd ‹cs = []› hne
  · simp_all
  · simp only [h]
    rfl

/-- A scan at a character other than an opening parenthesis that succeeds gives what the longest
match builds, and the cursor past the match. -/
theorem longest_of_scan {rules : List Rule} {vocab : Vocabulary} {o : Nat} {cs : List Char}
    {t? : Option Token} {c₁ : Cursor} (hne : cs ≠ []) (hp : cs.head? ≠ some '(')
    (h : scan rules vocab ⟨o, cs⟩ = .ok (t?, c₁)) :
    ∃ rule n, longest rules cs = some (rule, n) ∧
      t? = rule.build (cs.take n) ⟨o, o + utf8Length (cs.take n)⟩ vocab ∧
      c₁ = ⟨o + utf8Length (cs.take n), cs.drop n⟩ := by
  unfold scan at h
  split at h
  · exact absurd ‹cs = []› hne
  · simp_all
  · split at h
    · cases h
    · rename_i rule n hn
      simp only [Except.ok.injEq, Prod.mk.injEq] at h
      exact ⟨rule, n, hn, h.1.symm, h.2.symm⟩

/-- A scan at an opening parenthesis that the text closes takes the balanced run as quoted code. -/
theorem scan_paren {rules : List Rule} {vocab : Vocabulary} {o : Nat} {r : List Char} {n : Nat}
    (h : parenLength ('(' :: r) = some n) :
    scan rules vocab ⟨o, '(' :: r⟩ = .ok (some (quotedCode ⟨o, '(' :: r⟩ n),
      ⟨o + utf8Length (('(' :: r).take n), ('(' :: r).drop n⟩) := by
  unfold scan
  simp only [h]
  rfl

/-- A scan at an opening parenthesis that succeeds gives quoted code of a balanced run. -/
theorem paren_of_scan {rules : List Rule} {vocab : Vocabulary} {o : Nat} {r : List Char}
    {t? : Option Token} {c₁ : Cursor} (h : scan rules vocab ⟨o, '(' :: r⟩ = .ok (t?, c₁)) :
    ∃ n, parenLength ('(' :: r) = some n ∧ t? = some (quotedCode ⟨o, '(' :: r⟩ n) ∧
      c₁ = ⟨o + utf8Length (('(' :: r).take n), ('(' :: r).drop n⟩ := by
  unfold scan at h
  simp only at h
  split at h
  · cases h
  · rename_i n hn
    simp only [Except.ok.injEq, Prod.mk.injEq] at h
    exact ⟨n, hn, h.1.symm, h.2.symm⟩

/-- From inside an open parenthesis, the balanced run ends at the closing parenthesis that
brings the depth back to zero. -/
theorem parenLength_go_eq :
    ∀ (cs : List Char) (depth count n : Nat), 0 < depth → parenLength.go cs depth count = some n →
      ∃ inner rest, cs = inner ++ ')' :: rest ∧ n = count + inner.length + 1
  | [], _, _, _, _, h => by
    rw [parenLength.go] at h
    cases h
  | c :: r, depth, count, n, hd, h => by
    rw [parenLength.go] at h
    generalize hdepth : (if c = '(' then depth + 1 else if c = ')' then depth - 1 else depth) =
      depth' at h
    split at h
    · -- the depth fell to zero: this is the closing parenthesis
      rename_i hzero
      simp only [Option.some.injEq] at h
      have hc : c = ')' := by
        split at hdepth
        · omega
        · split at hdepth
          · assumption
          · omega
      exact ⟨[], r, by simp [hc], by simp; omega⟩
    · rename_i hzero
      obtain ⟨inner, rest, hr, hn⟩ := parenLength_go_eq r depth' (count + 1) n (by omega) h
      exact ⟨c :: inner, rest, by simp [hr], by simp; omega⟩

/-- A balanced run is an opening parenthesis, the text inside and the closing parenthesis. -/
theorem parenLength_eq {cs : List Char} {n : Nat} (h : parenLength ('(' :: cs) = some n) :
    ∃ inner rest, cs = inner ++ ')' :: rest ∧ n = inner.length + 2 := by
  simp only [parenLength, parenLength.go, if_true] at h
  obtain ⟨inner, rest, hcs, hn⟩ := parenLength_go_eq cs 1 1 n (by omega) h
  exact ⟨inner, rest, hcs, by omega⟩

/-- One step of `longest`: the best match so far stays, or gives way to a strictly longer match of
the rule tried; so it never shrinks, and it is at least as long as that rule's match. -/
theorem longest_step_spec (cs : List Char) (best : Option (Rule × Nat)) (q : Rule) :
    (best.map (·.2)).getD 0 ≤ ((longest.step cs best q).map (·.2)).getD 0 ∧
      (∀ m, q.matchLength cs = some m →
        (cs.take m).length ≤ ((longest.step cs best q).map (·.2)).getD 0) ∧
      ∀ p ∈ longest.step cs best q, p ∈ best ∨
        (p.1 = q ∧ ∃ m, q.matchLength cs = some m ∧ p.2 = (cs.take m).length) := by
  unfold longest.step
  split
  · rename_i m hm
    dsimp only
    split
    · rename_i hlt
      refine ⟨by simp only [Option.map_some, Option.getD_some]; omega, fun m' hm' => ?_,
        fun p hp => .inr ?_⟩
      · rw [hm] at hm'
        cases hm'
        simp
      · simp only [Option.mem_def, Option.some.injEq] at hp
        subst hp
        exact ⟨rfl, m, hm, rfl⟩
    · rename_i hge
      refine ⟨Nat.le_refl _, fun m' hm' => ?_, fun p hp => .inl hp⟩
      rw [hm] at hm'
      cases hm'
      omega
  · rename_i hm
    refine ⟨Nat.le_refl _, fun m' hm' => ?_, fun p hp => .inl hp⟩
    rw [hm] at hm'
    cases hm'

/-- The longest match: a match of one of the rules, at least as long as the match of every rule. -/
theorem longest_spec {rules : List Rule} {cs : List Char} {r : Rule} {n : Nat}
    (h : longest rules cs = some (r, n)) :
    r ∈ rules ∧ (∃ m, r.matchLength cs = some m ∧ n = (cs.take m).length) ∧
      ∀ q ∈ rules, ∀ m, q.matchLength cs = some m → (cs.take m).length ≤ n := by
  -- the fold keeps a match of some rule, never shorter than the matches of the rules before
  have fold : ∀ (rs : List Rule) (best : Option (Rule × Nat)),
      (∀ p ∈ best, p.1 ∈ rules ∧ ∃ m, p.1.matchLength cs = some m ∧ p.2 = (cs.take m).length) →
      (∀ q ∈ rs, q ∈ rules) →
      (∀ p ∈ rs.foldl (longest.step cs) best,
        p.1 ∈ rules ∧ ∃ m, p.1.matchLength cs = some m ∧ p.2 = (cs.take m).length) ∧
      (best.map (·.2)).getD 0 ≤ ((rs.foldl (longest.step cs) best).map (·.2)).getD 0 ∧
      ∀ q ∈ rs, ∀ m, q.matchLength cs = some m →
        (cs.take m).length ≤ ((rs.foldl (longest.step cs) best).map (·.2)).getD 0 := by
    intro rs
    induction rs with
    | nil => exact fun best hb _ => ⟨hb, Nat.le_refl _, by simp⟩
    | cons q qs ih =>
      intro best hb hqs
      obtain ⟨hmono, hq, hfrom⟩ := longest_step_spec cs best q
      have hb' : ∀ p ∈ longest.step cs best q,
          p.1 ∈ rules ∧ ∃ m, p.1.matchLength cs = some m ∧ p.2 = (cs.take m).length := by
        intro p hp
        rcases hfrom p hp with hp | ⟨hpq, hm⟩
        · exact hb p hp
        · rw [hpq]
          exact ⟨hqs _ (List.mem_cons_self ..), hm⟩
      obtain ⟨hgood, hmono', hall⟩ := ih _ hb' fun x hx => hqs x (List.mem_cons_of_mem _ hx)
      refine ⟨hgood, Nat.le_trans hmono hmono', fun q' hq' m hm => ?_⟩
      rcases List.mem_cons.mp hq' with rfl | hq'
      · exact Nat.le_trans (hq m hm) hmono'
      · exact hall q' hq' m hm
  obtain ⟨hgood, -, hall⟩ := fold rules none (by simp) fun q hq => hq
  unfold longest at h
  rw [h] at hgood hall
  exact ⟨(hgood (r, n) rfl).1, (hgood (r, n) rfl).2,
    fun q hq m hm => by simpa using hall q hq m hm⟩

/-- A local wins the longest match only where the identifier rule matches as far: its name runs up
to a character that no identifier holds. -/
theorem longest_local {vocab : Vocabulary} {cs : List Char} {rule : Rule} {n : Nat} {span : Span}
    {t : Token} (hn : longest Rule.standard cs = some (rule, n))
    (hb : rule.build (cs.take n) span vocab = some t) (hk : t.kind = .localName) :
    t.LocalText (cs.take n) (cs.drop n) := by
  obtain ⟨hmem, ⟨m, hm, rfl⟩, hmax⟩ := longest_spec hn
  -- only the local rule makes a local
  have hrule : rule = Rule.localName := by
    rcases Rule.standard_build_cases hmem hb with ⟨s, -, rfl⟩ | ⟨hr, -⟩ | rfl | rfl | rfl
    · cases hk
    · exact hr
    all_goals cases hk
  subst hrule
  obtain ⟨name, after, rfl, rfl, hne, hall, -⟩ := Rule.localName_matchLength hm
  have htake : ('@' :: (name ++ after)).take (1 + name.length) = '@' :: name := by
    simp [Nat.add_comm]
  have hdrop : ('@' :: (name ++ after)).drop (1 + name.length) = after := by
    simp [Nat.add_comm]
  have hlen : (('@' :: (name ++ after)).take (1 + name.length)).length = 1 + name.length := by
    rw [htake, List.length_cons]
    omega
  rw [hlen] at hb hmax ⊢
  rw [htake] at hb ⊢
  rw [hdrop]
  simp only [Rule.localName, Option.some.injEq] at hb
  subst hb
  refine ⟨⟨name, rfl, hne, hall⟩, by simp [Rule.stringToken], ?_⟩
  -- the identifier rule matches the `@`, the name and every identifier character after it
  have hword : ∀ c ∈ '@' :: name, Rule.isWordChar c = true := by
    intro c hc
    rcases List.mem_cons.mp hc with rfl | hc
    · decide
    · have := hall c hc
      simp only [Rule.isNameChar, Bool.and_eq_true] at this
      exact this.1
  have hid := hmax Rule.identifier (by simp [Rule.standard])
    ((('@' :: (name ++ after)).takeWhile Rule.isWordChar).length) (by
      simp only [Rule.identifier, Rule.nonempty]
      rw [if_neg (by simp [List.takeWhile_cons_of_pos (show Rule.isWordChar '@' = true by decide)])])
  rw [← List.cons_append, List.takeWhile_append_of_pos hword] at hid
  intro c hc
  cases after with
  | nil => cases hc
  | cons a as =>
    simp only [List.head?_cons, Option.mem_def, Option.some.injEq] at hc
    subst hc
    cases hw : Rule.isWordChar a with
    | false => rfl
    | true =>
      rw [List.takeWhile_cons_of_pos hw] at hid
      simp at hid
      omega

/-- What one scan consumes: a run `skip` before the token and the run `body` its span covers,
then, for quoted code only, the closing parenthesis. Skipped text has no token and no body. -/
theorem scan_laid {vocab : Vocabulary} {c c' : Cursor} {t? : Option Token}
    (hne : c.rest ≠ []) (h : scan Rule.standard vocab c = .ok (t?, c')) :
    ∃ skip body close, c.rest = skip ++ body ++ close ++ c'.rest ∧
      c'.offset = c.offset + utf8Length (skip ++ body ++ close) ∧
      ∀ t, t? = some t →
        t.span = some ⟨c.offset + utf8Length skip, c.offset + utf8Length skip + utf8Length body⟩ ∧
        (t.tags.code = true → skip = ['('] ∧ close = [')'] ∧
          t.value = .string (String.ofList body)) ∧
        (t.tags.code = false → skip = [] ∧ close = []) ∧
        (t.kind = .localName → t.tags.code = false ∧ t.LocalText body c'.rest) := by
  obtain ⟨o, cs⟩ := c
  by_cases hp : cs.head? = some '('
  · -- an opening parenthesis: quoted code
    obtain ⟨r, rfl⟩ : ∃ r, cs = '(' :: r := by
      cases cs with
      | nil => cases hp
      | cons x r => exact ⟨r, by simp_all⟩
    obtain ⟨n, hn, rfl, rfl⟩ := paren_of_scan h
    obtain ⟨inner, rest, rfl, rfl⟩ := parenLength_eq hn
    have htake : ('(' :: (inner ++ ')' :: rest)).take (inner.length + 2) =
        '(' :: (inner ++ [')']) := by
      simp [List.take_append, List.take_of_length_le]
    have hdrop : ('(' :: (inner ++ ')' :: rest)).drop (inner.length + 2) = rest := by
      simp [List.drop_append]
    have hsize : '('.utf8Size = 1 := by decide
    refine ⟨['('], inner, [')'], by simp [hdrop], ?_, fun t ht => ?_⟩
    · simp only [htake, utf8Length_append, utf8Length_cons]
      simp
      omega
    · simp only [Option.some.injEq] at ht
      subst ht
      simp only [quotedCode, htake, List.drop_succ_cons, List.drop_zero,
        List.dropLast_concat, Option.some.injEq, Span.mk.injEq]
      exact ⟨by simp [hsize], fun _ => by simp, fun h => by simp [Tags.quoted] at h,
        fun hk => by simp at hk⟩
  · -- the longest match of a rule
    obtain ⟨rule, n, hn, rfl, rfl⟩ := longest_of_scan hne hp h
    cases hbuild : rule.build (cs.take n) ⟨o, o + utf8Length (cs.take n)⟩ vocab with
    | none =>
      -- skipped text
      exact ⟨cs.take n, [], [], by simp, by simp, fun t ht => nomatch ht⟩
    | some t =>
      refine ⟨[], cs.take n, [], by simp, by simp, fun t' ht' => ?_⟩
      simp only [Option.some.injEq] at ht'
      subst ht'
      have hspan := Rule.standard_build (longest_spec hn).1 hbuild
      exact ⟨by simpa using hspan.1, fun hcode => by simp [hspan.2] at hcode,
        fun _ => ⟨rfl, rfl⟩, fun hk => ⟨hspan.2, longest_local hn hbuild hk⟩⟩

/-- What `next` consumes to find a token: a run `skip` of text that made none (for quoted code
ending with the opening parenthesis), the run `body` the token's span covers, and for quoted
code the closing parenthesis. -/
theorem next_laid {vocab : Vocabulary} {c c' : Cursor} {t : Token}
    (h : next Rule.standard vocab c = .ok (some (t, c'))) :
    ∃ skip body close, c.rest = skip ++ body ++ close ++ c'.rest ∧
      c'.offset = c.offset + utf8Length (skip ++ body ++ close) ∧
      t.span = some ⟨c.offset + utf8Length skip, c.offset + utf8Length skip + utf8Length body⟩ ∧
      (t.tags.code = true → (∃ pre, skip = pre ++ ['(']) ∧ close = [')'] ∧
        t.value = .string (String.ofList body)) ∧
      (t.tags.code = false → close = []) ∧
      (t.kind = .localName → t.tags.code = false ∧ t.LocalText body c'.rest) := by
  induction c using next.induct Rule.standard vocab with
  | case1 c hne => rw [next, dif_pos hne] at h; cases h
  | case2 c hne e hs => rw [next_of_scan_error hne hs] at h; cases h
  | case3 c hne t' c'' hs =>
    rw [next_of_scan_some hne hs] at h
    simp only [Except.ok.injEq, Option.some.injEq, Prod.mk.injEq] at h
    obtain ⟨rfl, rfl⟩ := h
    obtain ⟨skip, body, close, hrest, hoff, htok⟩ := scan_laid hne hs
    obtain ⟨hspan, hcode, hplain, hlocal⟩ := htok _ rfl
    refine ⟨skip, body, close, hrest, hoff, hspan, fun hc => ?_, fun hc => (hplain hc).2,
      hlocal⟩
    obtain ⟨rfl, rfl, hv⟩ := hcode hc
    exact ⟨⟨[], rfl⟩, rfl, hv⟩
  | case4 c hne c'' hs ih =>
    rw [next_of_scan_none hne hs] at h
    -- the scan skipped text: it joins the run before the token
    obtain ⟨skip₁, body₁, close₁, hrest₁, hoff₁, -⟩ := scan_laid hne hs
    obtain ⟨skip, body, close, hrest, hoff, hspan, hcode, hplain, hlocal⟩ := ih h
    refine ⟨skip₁ ++ body₁ ++ close₁ ++ skip, body, close, ?_, ?_, ?_, fun hc => ?_, hplain,
      hlocal⟩
    · rw [hrest₁, hrest]
      simp [List.append_assoc]
    · rw [hoff, hoff₁]
      simp only [utf8Length_append]
      omega
    · rw [hspan, hoff₁]
      simp only [utf8Length_append, Option.some.injEq, Span.mk.injEq]
      constructor <;> omega
    · obtain ⟨⟨pre, rfl⟩, hclose, hv⟩ := hcode hc
      exact ⟨⟨skip₁ ++ body₁ ++ close₁ ++ pre, by simp [List.append_assoc]⟩, hclose, hv⟩

/-- The tokens found from a cursor stand in order over the rest of its text, also when the scan
stops at an error. -/
theorem tokens_go_laid (vocab : Vocabulary) (c : Cursor) :
    Laid c.rest c.offset (tokens.go Rule.standard vocab c).1 := by
  induction c using tokens.go.induct Rule.standard vocab with
  | case1 c h => rw [tokens.go, h]; exact .nil _ _
  | case2 c e h => rw [tokens.go, h]; exact .nil _ _
  | case3 c t c' h ih =>
    rw [tokens.go, h]
    obtain ⟨skip, body, close, hrest, hoff, hspan, hcode, hplain, hlocal⟩ := next_laid h
    rw [hrest, List.append_assoc]
    refine .cons hspan (fun hc => ?_) ⟨fun hc => ?_, fun hk => ?_⟩ (Laid.prepend close ?_)
    · obtain ⟨⟨pre, rfl⟩, -, -⟩ := hcode hc
      simp
    · obtain ⟨-, rfl, hv⟩ := hcode hc
      exact ⟨hv, _, rfl⟩
    · obtain ⟨hc, hl⟩ := hlocal hk
      rw [hplain hc, List.nil_append]
      exact hl
    rw [hoff] at ih
    simpa [utf8Length_append, Nat.add_assoc] using ih

/-- The tokens of a text stand in order over it, from byte zero. -/
theorem tokens_laid (vocab : Vocabulary) (text : String) :
    Laid text.toList 0 (tokens Rule.standard vocab text).1 :=
  tokens_go_laid vocab (Cursor.start text)

-- ---------------------------------------------------------------------------
-- Tokens at any depth
-- ---------------------------------------------------------------------------

/-- The text of quoted code found by `next` is shorter than what was left to scan. -/
theorem next_code_text_length {vocab : Vocabulary} {c c' : Cursor} {t : Token}
    (h : next Rule.standard vocab c = .ok (some (t, c'))) (hcode : t.isCode = true) :
    (Cursor.start t.text).rest.length < c.rest.length := by
  obtain ⟨skip, body, close, hrest, -, -, hc, -⟩ := next_laid h
  obtain ⟨-, rfl, hv⟩ := hc hcode
  simp only [Cursor.start, Token.text, hv, Value.text, String.toList_ofList, hrest,
    List.length_append, List.length_cons, List.length_nil]
  omega

set_option linter.unusedVariables false in
/-- The tokens of the text at a cursor, each with the byte offset where the text it was scanned
from starts. With `deep`, quoted code is opened: the tokens of its text, scanned as a text of its
own, stand in its place. -/
def within (vocab : Vocabulary) (deep : Bool) (base : Nat) (c : Cursor) : List (Nat × Token) :=
  match h : next Rule.standard vocab c with
  | .ok (some (t, c')) =>
    if hcode : deep && t.isCode then
      within vocab deep (base + (t.span.map Span.start).getD 0) (Cursor.start t.text) ++
        within vocab deep base c'
    else (base, t) :: within vocab deep base c'
  | _ => []
termination_by c.rest.length
decreasing_by
  · exact next_code_text_length h (by simp_all)
  · exact next_rest_length h
  · exact next_rest_length h

/-- The tokens one scanned token stands for: with `deep`, quoted code stands for the tokens of its
text, counted from where that text starts. -/
def opened (vocab : Vocabulary) (deep : Bool) (base : Nat) (t : Token) : List (Nat × Token) :=
  if deep && t.isCode then
    within vocab deep (base + (t.span.map Span.start).getD 0) (Cursor.start t.text)
  else [(base, t)]

/-- Opening the tokens one by one: the tokens at any depth are the scanned tokens with quoted
code replaced by the tokens of its text. -/
theorem within_eq (vocab : Vocabulary) (deep : Bool) (base : Nat) (c : Cursor) :
    within vocab deep base c = (tokens.go Rule.standard vocab c).1.flatMap
      (opened vocab deep base) := by
  induction c using tokens.go.induct Rule.standard vocab with
  | case1 c h =>
    rw [tokens.go, h, within]
    split <;> simp_all
  | case2 c e h =>
    rw [tokens.go, h, within]
    split <;> simp_all
  | case3 c t c' h ih =>
    rw [within, tokens.go]
    split
    · rename_i t₁ c₁ h₁
      rw [h] at h₁
      simp only [Except.ok.injEq, Option.some.injEq, Prod.mk.injEq] at h₁
      obtain ⟨rfl, rfl⟩ := h₁
      rw [h]
      simp only [List.flatMap_cons, ih, opened]
      split <;> simp_all
    · simp_all

end Scan

end Concatenative
