import Concatenative.Proofs.Nesting
import Concatenative.Proofs.Preservation

/-!
# Running programs step by step

Equations that run an evaluation forward on texts of a known shape, for proofs about particular
programs and about programs that build programs (`pack`, `eval`).

Scanning. A rule wins the longest match when the rules before it match nothing and those after
it match no more (`Scan.longest_winner`); no comment, quoted string or local starts at a
character that is none of their marks (`Rule.marked_none`). A single blank before text that
starts with no blank is skipped (`Scan.next_blank`), a word is scanned as the identifier rule
says (`Scan.next_word`), and text balanced in parentheses after an opening one is quoted code
whose value is that text (`Scan.scan_closed`, `Scan.next_balanced`).

Running. A symbol is pushed (`Evaluation.execute_symbol`) and an operator token invoked
(`Evaluation.execute_operator`); `runFrom` steps from token to token (`Evaluation.runFrom_step`),
an evaluation returns the top of the stack it leaves (`Evaluation.evaluateIn_top`), a text of
symbols alone, which renaming leaves as it is, pushes them all (`Evaluation.evaluateIn_symbols`),
and entering a program without locals runs it from its start (`Evaluation.enter_of_runFrom`).
The built-ins `pack`, `eval` and `del-op` have equations of their own, and
`Table.get?_standard` says what the fresh table holds under each name.
-/

namespace Concatenative

-- ---------------------------------------------------------------------------
-- The fresh table
-- ---------------------------------------------------------------------------

/-- The fresh table holds each built-in under its name, and nothing else. -/
theorem Table.get?_standard (name : String) :
    standard.get? name = (Builtin.ofName? name).map Operator.builtin := by
  -- the names are distinct, so the one insertion under a name is the one `find?` finds
  have fold : ∀ (bs : List Builtin) (t : Table), (bs.map Builtin.name).Nodup →
      (bs.foldl (fun t b => t.insert b.name (Operator.builtin b)) t).get? name =
        ((bs.find? (·.name == name)).map Operator.builtin).or (t.get? name) := by
    intro bs
    induction bs with
    | nil => intro t _; rfl
    | cons b bs ih =>
      intro t hnd
      rw [List.map_cons, List.nodup_cons] at hnd
      rw [List.foldl_cons, ih _ hnd.2, Directory.get?_insert, List.find?_cons]
      by_cases hb : b.name = name
      · have hnone : bs.find? (·.name == name) = none := by
          rw [List.find?_eq_none]
          intro x hx hxn
          exact hnd.1 (hb ▸ List.mem_map.mpr ⟨x, hx, beq_iff_eq.mp hxn⟩)
        simp [hb, hnone]
      · have hne : (b.name == name) = false := by simpa using hb
        simp [hb, hne]
  have hnd : (Builtin.all.map Builtin.name).Nodup := by decide
  rw [standard, fold _ {} hnd, Directory.get?_empty, Option.or_none]
  rfl

theorem Table.standard_get?_of_ofName? {name : String} {b : Builtin}
    (h : Builtin.ofName? name = some b) : standard.get? name = some (Operator.builtin b) := by
  rw [get?_standard, h]
  rfl

-- ---------------------------------------------------------------------------
-- Text balanced in parentheses
-- ---------------------------------------------------------------------------

/-- How deep in parentheses a text ends when it starts `depth` deep; none when a closing
parenthesis finds none open. -/
def parenDepth : List Char → Nat → Option Nat
  | [], depth => some depth
  | c :: r, depth =>
    if c = '(' then parenDepth r (depth + 1)
    else if c = ')' then (if depth = 0 then none else parenDepth r (depth - 1))
    else parenDepth r depth

/-- A text balanced in parentheses: no prefix closes more parentheses than it opens, and the
whole text closes all it opens. -/
def Balanced (cs : List Char) : Prop :=
  parenDepth cs 0 = some 0

instance : DecidablePred Balanced :=
  fun cs => inferInstanceAs (Decidable (parenDepth cs 0 = some 0))

example : Balanced "a (b) \"(\" )".toList ∧ ¬Balanced "a) (".toList := by
  decide

namespace Scan

/-- Counting parentheses through balanced text goes from one depth to the depth it ends at. -/
theorem parenLength_go_balanced :
    ∀ (s r : List Char) (d d' count : Nat), parenDepth s d = some d' →
      parenLength.go (s ++ r) (d + 1) count = parenLength.go r (d' + 1) (count + s.length)
  | [], r, d, d', count, h => by
    simp only [parenDepth, Option.some.injEq] at h
    subst h
    rfl
  | c :: s, r, d, d', count, h => by
    rw [List.cons_append, parenLength.go]
    simp only [parenDepth] at h
    by_cases ho : c = '('
    · -- one deeper
      rw [if_pos ho] at h
      rw [if_pos ho, if_neg (by omega), parenLength_go_balanced s r (d + 1) d' (count + 1) h,
        List.length_cons]
      congr 1
      omega
    by_cases hc : c = ')'
    · -- one shallower, and never out of the opening parenthesis
      rw [if_neg ho, if_pos hc] at h
      split_ifs at h with hd
      have hstep : d + 1 - 1 = (d - 1) + 1 := by omega
      rw [if_neg ho, if_pos hc, hstep, if_neg (by omega),
        parenLength_go_balanced s r (d - 1) d' (count + 1) h, List.length_cons]
      congr 1
      omega
    · rw [if_neg ho, if_neg hc] at h
      rw [if_neg ho, if_neg hc, if_neg (by omega),
        parenLength_go_balanced s r d d' (count + 1) h, List.length_cons]
      congr 1
      omega

/-- The parenthesis before balanced text closes right after it. -/
theorem parenLength_balanced {s : List Char} (hs : Balanced s) (r : List Char) :
    parenLength ('(' :: (s ++ ')' :: r)) = some (s.length + 2) := by
  have h := parenLength_go_balanced s (')' :: r) 0 0 1 hs
  simp only [parenLength, parenLength.go, if_true, Nat.zero_add, one_ne_zero, if_false] at h ⊢
  rw [h]
  simp only [show ')' ≠ '(' by decide, if_false, if_true, Nat.sub_self]
  congr 1
  omega

/-- An opening parenthesis closed after balanced text `s` is quoted code: a string symbol tagged
as code, whose value is `s` and whose span covers `s`, and the scan goes on after the closing
parenthesis. -/
theorem scan_closed (v : Vocabulary) (o : Nat) {s : List Char} (hs : Balanced s)
    (r : List Char) :
    scan Rule.standard v ⟨o, '(' :: (s ++ ')' :: r)⟩ =
      .ok (some
        { kind := .symbol, value := .string (String.ofList s),
          span := some ⟨o + 1, o + 1 + utf8Length s⟩, tags := Tags.quoted },
        ⟨o + utf8Length s + 2, r⟩) := by
  have htake : ('(' :: (s ++ ')' :: r)).take (s.length + 2) = '(' :: (s ++ [')']) := by
    rw [List.take_succ_cons, List.take_length_add_append]
    rfl
  have hdrop : ('(' :: (s ++ ')' :: r)).drop (s.length + 2) = r := by
    rw [List.drop_succ_cons, List.drop_length_add_append]
    rfl
  have hoff : o + utf8Length ('(' :: (s ++ [')'])) = o + utf8Length s + 2 := by
    simp only [utf8Length_cons, utf8Length_append, utf8Length_nil,
      show '('.utf8Size = 1 from rfl, show ')'.utf8Size = 1 from rfl]
    omega
  rw [scan_paren (parenLength_balanced hs r), htake, hdrop, hoff]
  simp only [quotedCode, htake, List.drop_succ_cons, List.drop_zero, List.dropLast_concat]

/-- Balanced text in parentheses is quoted code whose value is that text. -/
theorem next_balanced {s : List Char} (hs : Balanced s) (r : List Char) (v : Vocabulary)
    (o : Nat) :
    next Rule.standard v ⟨o, '(' :: (s ++ ')' :: r)⟩ =
      .ok (some (
        { kind := .symbol, value := .string (String.ofList s),
          span := some ⟨o + 1, o + 1 + utf8Length s⟩, tags := Tags.quoted },
        ⟨o + utf8Length s + 2, r⟩)) :=
  next_of_scan_some (by simp) (scan_closed v o hs r)

-- ---------------------------------------------------------------------------
-- The longest match
-- ---------------------------------------------------------------------------

/-- A rule wins the longest match when the rules before it match nothing and the rules after it
match no more. -/
theorem longest_winner {pre post : List Rule} {r : Rule} {cs : List Char} {n : Nat}
    (hr : r.matchLength cs = some n) (hn : 0 < n) (hle : n ≤ cs.length)
    (hpre : ∀ q ∈ pre, q.matchLength cs = none)
    (hpost : ∀ q ∈ post, ∀ m, q.matchLength cs = some m → m ≤ n) :
    longest (pre ++ r :: post) cs = some (r, n) := by
  -- no later rule beats the winner
  have keep : ∀ rs : List Rule, (∀ q ∈ rs, ∀ m, q.matchLength cs = some m → m ≤ n) →
      rs.foldl (longest.step cs) (some (r, n)) = some (r, n) := by
    intro rs
    induction rs with
    | nil => exact fun _ => rfl
    | cons q qs ih =>
      intro hq
      have hstep : longest.step cs (some (r, n)) q = some (r, n) := by
        unfold longest.step
        cases hm : q.matchLength cs with
        | none => rfl
        | some m =>
          have hmn := hq q (List.mem_cons_self ..) m hm
          have htake : (cs.take m).length ≤ m := List.length_take_le m cs
          simp only [Option.map_some, Option.getD_some]
          rw [if_neg (by omega)]
      rw [List.foldl_cons, hstep]
      exact ih fun q' hq' => hq q' (List.mem_cons_of_mem _ hq')
  have hlast : longest (pre ++ [r]) cs = some (r, n) :=
    longest_last hr hn hle fun q hq m hm => by simp [hpre q hq] at hm
  unfold longest at hlast ⊢
  rw [← List.singleton_append, ← List.append_assoc, List.foldl_append, hlast, keep post hpost]

end Scan

namespace Rule

theorem lineComment_cons {a : Char} (r : List Char) (h : a ≠ '/') :
    lineComment.matchLength (a :: r) = none := by
  cases r with
  | nil => simp only [lineComment]
  | cons b r => rw [lineComment_matchLength, if_neg (fun hab => h hab.1)]

theorem blank_cons {a : Char} (r : List Char) (h : isBlank a = false) :
    blank.matchLength (a :: r) = none := by
  simp [blank, h, nonempty]

theorem boolean_cons {a : Char} (r : List Char) (ht : a ≠ 't') (hf : a ≠ 'f') :
    boolean.matchLength (a :: r) = none := by
  rw [boolean_matchLength, if_neg, if_neg]
  · simp [List.cons_prefix_cons, Ne.symm hf]
  · simp [List.cons_prefix_cons, Ne.symm ht]

theorem isBlank_of_isDigit {c : Char} (h : c.isDigit = true) : isBlank c = false := by
  have hword : isWordChar c = true := by
    have hinert := isInert_digit h
    simp only [isInert, Bool.and_eq_true] at hinert
    exact hinert.1.1.1
  simp only [isWordChar, Bool.and_eq_true, Bool.not_eq_true'] at hword
  exact hword.1.1

/-- No comment, quoted string or local starts at a character that is none of their marks. -/
theorem marked_none {a : Char} (r : List Char) (h1 : a ≠ '/') (h2 : a ≠ '"') (h3 : a ≠ '\'')
    (h4 : a ≠ '@') :
    ∀ q ∈ [lineComment, blockComment, doubleQuoted, singleQuoted, localName],
      q.matchLength (a :: r) = none := by
  simp only [List.mem_cons, List.not_mem_nil, or_false]
  rintro q (rfl | rfl | rfl | rfl | rfl)
  · exact lineComment_cons r h1
  · rw [blockComment_cons, if_neg h1]
  · rw [doubleQuoted_cons, if_neg h2]
  · rw [singleQuoted_cons, if_neg h3]
  · rw [localName_cons, if_neg h4]

/-- The rules of the standard set from the comments to the locals. -/
theorem standard_eq :
    standard = blank :: [lineComment, blockComment, doubleQuoted, singleQuoted, localName] ++
      [boolean, number, identifier] :=
  rfl

end Rule

namespace Scan

variable {v : Vocabulary} {o : Nat}

/-- A single blank before text that does not start with a blank is skipped. -/
theorem next_blank {q : List Char} (hq : ∀ c ∈ q.head?, isBlank c = false) :
    next Rule.standard v ⟨o, ' ' :: q⟩ = next Rule.standard v ⟨o + 1, q⟩ := by
  have hrun : (' ' :: q).takeWhile isBlank = [' '] := by
    rw [← List.singleton_append, Rule.takeWhile_append_stop hq]
    rfl
  have hblank : Rule.blank.matchLength (' ' :: q) = some 1 := by
    show Rule.nonempty ((' ' :: q).takeWhile isBlank).length = some 1
    rw [hrun]
    rfl
  -- no other rule matches at a blank
  have hlong : longest Rule.standard (' ' :: q) = some (Rule.blank, 1) := by
    show longest ([] ++ Rule.blank :: [Rule.lineComment, Rule.blockComment, Rule.doubleQuoted,
      Rule.singleQuoted, Rule.localName, Rule.boolean, Rule.number, Rule.identifier]) _ = _
    refine longest_winner hblank (by omega) (by simp) (by simp) ?_
    simp only [List.mem_cons, List.not_mem_nil, or_false]
    rintro q' (rfl | rfl | rfl | rfl | rfl | rfl | rfl | rfl) m hm <;> cases hm
  rw [next_of_scan_none (by simp) (scan_longest (by simp) (by simp) hlong)]
  rfl

/-- The end of the tokens is found under every vocabulary alike. -/
theorem next_vocab_none {c : Cursor} (h : next Rule.standard v c = .ok none) (v' : Vocabulary) :
    next Rule.standard v' c = .ok none := by
  have hl := next_lexeme v v' c
  rw [h] at hl
  cases hn : next Rule.standard v' c with
  | error e =>
    rw [hn] at hl
    cases hl
  | ok r =>
    rw [hn] at hl
    cases r with
    | none => rfl
    | some p => cases hl

/-- A word the rules before the identifier rule do not match is an identifier token: an
operator when the vocabulary has it, a string otherwise. -/
theorem next_word {cs : List Char} {n : Nat} (hp : cs.head? ≠ some '(')
    (hpre : ∀ q ∈ [Rule.blank, Rule.lineComment, Rule.blockComment, Rule.doubleQuoted,
      Rule.singleQuoted, Rule.localName, Rule.boolean, Rule.number], q.matchLength cs = none)
    (hr : Rule.identifier.matchLength cs = some n) (hle : n ≤ cs.length) (hn : 0 < n) :
    next Rule.standard v ⟨o, cs⟩ =
      .ok (some (Rule.wordToken v (String.ofList (cs.take n)) ⟨o, o + utf8Length (cs.take n)⟩,
        ⟨o + utf8Length (cs.take n), cs.drop n⟩)) := by
  have hne : cs ≠ [] := by
    rintro rfl
    simp at hle
    omega
  have hlong : longest ([Rule.blank, Rule.lineComment, Rule.blockComment, Rule.doubleQuoted,
      Rule.singleQuoted, Rule.localName, Rule.boolean, Rule.number] ++ [Rule.identifier]) cs =
      some (Rule.identifier, n) :=
    longest_winner hr hn hle hpre (by simp)
  have hscan : scan Rule.standard v ⟨o, cs⟩ = _ := scan_longest hne hp hlong
  rw [Rule.identifier_build] at hscan
  rw [next_of_scan_some hne hscan]

/-- A blank and then `eval`, under a vocabulary that has the word: one operator token. -/
theorem next_blank_eval (heval : v "eval" = true) (o : Nat) :
    next Rule.standard v ⟨o, [' ', 'e', 'v', 'a', 'l']⟩ =
      .ok (some ((Token.operator "eval").placed (some ⟨o + 1, o + 1 + 4⟩), ⟨o + 1 + 4, []⟩)) := by
  rw [next_blank (fun c hc => by cases hc; rfl), next_word (by decide) (by decide)
    (by decide : Rule.identifier.matchLength _ = some 4) (by decide) (by decide)]
  rw [show String.ofList (['e', 'v', 'a', 'l'].take 4) = "eval" by decide,
    show utf8Length (['e', 'v', 'a', 'l'].take 4) = 4 by decide]
  simp [Rule.wordToken, heval]

end Scan

-- ---------------------------------------------------------------------------
-- Running tokens
-- ---------------------------------------------------------------------------

namespace Evaluation

@[simp] theorem place_value (edits : Edits) (origin : Origin) (t : Token) :
    (place edits origin t).value = t.value := by
  unfold place
  split <;> rfl

@[simp] theorem place_text (edits : Edits) (origin : Origin) (t : Token) :
    (place edits origin t).text = t.text := by
  simp [Token.text]

@[simp] theorem place_tags (edits : Edits) (origin : Origin) (t : Token) :
    (place edits origin t).tags = t.tags := by
  unfold place
  split <;> rfl

/-- A token placed without edits in a text that came from nowhere points nowhere. -/
theorem place_detached_span (t : Token) : (place {} .detached t).span = none := by
  unfold place
  split <;> simp [Origin.locate]

variable {fuel : Nat} {m m' : Machine} {E : Edits} {o : Origin} {c c' : Cursor} {t : Token}

theorem execute_symbol (fuel : Nat) (h : t.kind = .symbol) : execute fuel t = Exec.push t := by
  rw [execute, Lifted.execute, h]

theorem execute_operator {op : Operator} (h : t.kind = .operator)
    (hop : m.ops.get? t.text = some op) :
    (execute fuel t).run.run m = (invoke fuel op t).run.run m := by
  rw [execute, Lifted.execute, h]
  simp only
  rw [Exec.run_bind_of_ok (Exec.run_lookup? t.text m), hop]

theorem runFrom_of_next_none (h : Scan.next Rule.standard m.ops.contains c = .ok none) :
    (runFrom fuel E o c).run.run m = (.ok (), m) := by
  rw [runFrom, Lifted.runFrom, Exec.run_get_bind]
  split
  · rfl
  · rename_i heq
    rw [h] at heq
    cases heq
  · rename_i heq
    rw [h] at heq
    cases heq

theorem runFrom_of_next_some (h : Scan.next Rule.standard m.ops.contains c = .ok (some (t, c')))
    (hx : (execute fuel (place E o t)).run.run m = (.ok (), m')) :
    (runFrom fuel E o c).run.run m = (runFrom fuel E o c').run.run m' := by
  rw [runFrom, Lifted.runFrom, Exec.run_get_bind]
  split
  · rename_i heq
    rw [h] at heq
    cases heq
  · rename_i heq
    rw [h] at heq
    cases heq
  · rename_i t₁ c₁ heq
    rw [h] at heq
    cases heq
    exact Exec.run_bind_of_ok hx

/-- A token scanned is run before the rest of the text. -/
theorem runFrom_step (h : Scan.next Rule.standard m.ops.contains c = .ok (some (t, c'))) :
    (runFrom fuel E o c).run.run m =
      (execute fuel (place E o t) >>= fun _ => runFrom fuel E o c').run.run m := by
  rw [runFrom, Lifted.runFrom, Exec.run_get_bind]
  split
  · rename_i heq
    rw [h] at heq
    cases heq
  · rename_i heq
    rw [h] at heq
    cases heq
  · rename_i t₁ c₁ heq
    rw [h] at heq
    cases heq
    rfl

theorem runFrom_of_execute_error {e : Error}
    (h : Scan.next Rule.standard m.ops.contains c = .ok (some (t, c')))
    (hx : (execute fuel (place E o t)).run.run m = (.error e, m')) :
    (runFrom fuel E o c).run.run m = (.error e, m') := by
  rw [runFrom_step h]
  exact Exec.run_bind_of_error hx

theorem runFrom_of_next_error {e : Error} (h : Scan.next Rule.standard m.ops.contains c = .error e) :
    (runFrom fuel E o c).run.run m = (.error (e.relocate (Origin.within 0 E o).locate), m) := by
  rw [runFrom, Lifted.runFrom, Exec.run_get_bind]
  split
  · rename_i heq
    rw [h] at heq
    cases heq
  · rename_i e' heq
    rw [h] at heq
    cases heq
    rfl
  · rename_i heq
    rw [h] at heq
    cases heq

/-- Running the rest of a text whose tokens are all symbols pushes them in order. -/
theorem runFrom_symbols (fuel : Nat) (E : Edits) (o : Origin) :
    ∀ (ts : List Token) (c : Cursor) (m : Machine),
      Scan.tokens.go Rule.standard m.ops.contains c = (ts, none) → (∀ t ∈ ts, t.kind = .symbol) →
      (runFrom fuel E o c).run.run m =
        (.ok (), { m with stack := m.stack.pushAll (ts.map (place E o)) }) := by
  intro ts
  induction ts with
  | nil =>
    intro c m h _
    rw [runFrom_of_next_none (Scan.next_of_tokens_go_nil h)]
    rfl
  | cons t ts ih =>
    intro c m h hsym
    obtain ⟨c₁, hn, hrest⟩ := Scan.next_of_tokens_go_cons h
    have hk : (place E o t).kind = .symbol := by
      rw [place_kind]
      exact hsym t (List.mem_cons_self ..)
    have hstep : (runFrom fuel E o c).run.run m =
        (runFrom fuel E o c₁).run.run { m with stack := m.stack.push (place E o t) } :=
      runFrom_of_next_some hn (by rw [execute_symbol fuel hk]; rfl)
    rw [hstep, ih c₁ { m with stack := m.stack.push (place E o t) } hrest
        fun t' ht' => hsym t' (List.mem_cons_of_mem _ ht')]
    simp [Stack.pushAll, Stack.push]

/-- Evaluating a text that hygiene accepts runs its renamed text on the machine with its counter
moved on, and returns the top of the stack. -/
theorem evaluateIn_run {text renamed : String} {edits : Edits}
    (h : hygiene m.ops text m.uid o = .ok (renamed, edits)) :
    (evaluateIn fuel text o).run.run m =
      (runFrom fuel edits o (Cursor.start renamed) >>= fun _ =>
        (get : Exec Machine) >>= fun m' => pure m'.stack.peek?).run.run
        { m with uid := m.uid + 1 } := by
  rw [evaluateIn, Lifted.evaluateIn, Exec.run_bind_of_ok (Exec.run_takeUid m), Exec.run_get_bind]
  simp only [h]

/-- Evaluating a text that renaming leaves as it is: the counter goes up by one, the text runs,
and the top of the stack is returned. -/
theorem evaluateIn_of_hygiene {text renamed : String} {edits : Edits}
    (h : hygiene m.ops text m.uid o = .ok (renamed, edits))
    (hrun : (runFrom fuel edits o (Cursor.start renamed)).run.run { m with uid := m.uid + 1 } =
      (.ok (), m')) :
    (evaluateIn fuel text o).run.run m = (.ok m'.stack.peek?, m') := by
  rw [evaluateIn_run h, Exec.run_bind_of_ok hrun, Exec.run_get_bind]
  rfl

/-- The value an evaluation returns is the top of the stack it leaves. -/
theorem evaluateIn_top {text : String} {r : Option Token}
    (h : (evaluateIn fuel text o).run.run m = (.ok r, m')) : r = m'.stack.peek? := by
  rw [evaluateIn, Lifted.evaluateIn, Exec.run_bind_of_ok (Exec.run_takeUid m), Exec.run_get_bind] at h
  split at h
  · cases h
  · rename_i renamed edits _
    rcases hrun : (runFrom fuel edits o (Cursor.start renamed)).run.run
      { m with uid := m.uid + 1 } with ⟨_ | _, m₁⟩
    · rw [Exec.run_bind_of_error hrun] at h
      cases h
    · rw [Exec.run_bind_of_ok hrun, Exec.run_get_bind, Exec.run_pure] at h
      cases h
      rfl

/-- A text of symbols alone has no locals, so renaming leaves it as it is, and evaluating it
pushes its tokens. -/
theorem evaluateIn_symbols {text : String} {ts : List Token}
    (htoks : Scan.tokens Rule.standard m.ops.contains text = (ts, none))
    (hsym : ∀ t ∈ ts, t.kind = .symbol) :
    (evaluateIn fuel text o).run.run m =
      (.ok (m.stack.pushAll (ts.map (place {} o))).peek?,
        { m with stack := m.stack.pushAll (ts.map (place {} o)), uid := m.uid + 1 }) := by
  have hlocals : topLocals m.ops.contains text = [] := by
    simp only [topLocals, htoks, List.map_eq_nil_iff, List.filter_eq_nil_iff, beq_iff_eq]
    intro t ht hl
    rw [hsym t ht] at hl
    cases hl
  exact evaluateIn_of_hygiene (hygiene_of_no_locals (by rw [htoks]) hlocals)
    (runFrom_symbols fuel {} o ts _ { m with uid := m.uid + 1 } htoks hsym)

/-- Entering a program without locals runs it from its first character on the machine with its
counter moved on. The depth limit is written `999999 + 1` so that the equations of the built-ins,
stated at a successor, apply to it. -/
theorem enter_of_runFrom {text : String}
    (hstop : (Scan.tokens Rule.standard m.ops.contains text).2 = none)
    (hloc : topLocals m.ops.contains text = [])
    (hrun : (runFrom (999999 + 1) {} .source (Cursor.start text)).run.run
      { m with uid := m.uid + 1 } = (.ok (), m')) :
    m.enter text = (.ok m'.stack.peek?, m') :=
  evaluateIn_of_hygiene (hygiene_of_no_locals hstop hloc) hrun

-- ---------------------------------------------------------------------------
-- Built-ins
-- ---------------------------------------------------------------------------

theorem collect_fixed {n : Nat} {caller : Token} {s : Stack Token} {xs : List Token}
    (hn : n ≤ operandLimit) (h : m.stack.popN? n = some (xs, s)) :
    (collect (.fixed n) caller).run.run m = (.ok xs, { m with stack := s }) := by
  rw [collect, if_neg (Nat.not_lt.2 hn)]
  simp only [Exec.run_get_bind]
  rw [h]
  rfl

/-- `pack` replaces the whole stack by one string: the items' texts, joined by blanks. -/
theorem invoke_pack (fuel : Nat) (caller : Token) (m : Machine) :
    (invoke (fuel + 1) (Operator.builtin (.primitive .pack)) caller).run.run m =
      (.ok (), { m with stack := Stack.ofList [Token.symbol (.string
        (" ".intercalate (m.stack.toList.map Token.serialize)))] }) := by
  rw [invoke, Lifted.invoke]
  rfl

/-- `eval` takes the top item off the stack and evaluates it. -/
theorem invoke_eval (fuel : Nat) (caller code : Token) {s : Stack Token}
    (hs : m.stack = s.push code) {r : Option Token}
    (h : (evaluateToken fuel code).run.run { m with stack := s } = (.ok r, m')) :
    (invoke (fuel + 1) (Operator.builtin (.control .eval)) caller).run.run m = (.ok (), m') := by
  have hc : (collect (.fixed 1) caller).run.run m = (.ok [code], { m with stack := s }) :=
    collect_fixed (by decide) (by rw [hs]; exact Stack.popN?_push s code)
  have hctl : (control fuel .eval caller [code]).run.run { m with stack := s } = (.ok [], m') := by
    rw [control, Lifted.control, Exec.run_bind_of_ok h]
    rfl
  rw [invoke, Lifted.invoke]
  simp only [Operator.builtin, Builtin.arity, Control.arity]
  rw [Exec.run_bind_of_ok hc, Exec.run_bind_of_ok hctl]
  simp [Stack.pushAll]

/-- `eval` fails as the code it runs fails. -/
theorem invoke_eval_error (fuel : Nat) (caller code : Token) {s : Stack Token}
    (hs : m.stack = s.push code) {e : Error}
    (h : (evaluateToken fuel code).run.run { m with stack := s } = (.error e, m')) :
    (invoke (fuel + 1) (Operator.builtin (.control .eval)) caller).run.run m = (.error e, m') := by
  have hc : (collect (.fixed 1) caller).run.run m = (.ok [code], { m with stack := s }) :=
    collect_fixed (by decide) (by rw [hs]; exact Stack.popN?_push s code)
  have hctl : (control fuel .eval caller [code]).run.run { m with stack := s } = (.error e, m') := by
    rw [control, Lifted.control, Exec.run_bind_of_error h]
  rw [invoke, Lifted.invoke]
  simp only [Operator.builtin, Builtin.arity, Control.arity]
  rw [Exec.run_bind_of_ok hc, Exec.run_bind_of_error hctl]

/-- `eval` of a string whose text holds symbols alone pushes them, placed nowhere. -/
theorem invoke_eval_symbols (fuel : Nat) (caller : Token) (m : Machine) {text : String}
    {ts : List Token} (htoks : Scan.tokens Rule.standard m.ops.contains text = (ts, none))
    (hsym : ∀ t ∈ ts, t.kind = .symbol) :
    (invoke (fuel + 1) (Operator.builtin (.control .eval)) caller).run.run
        { m with stack := Stack.ofList [Token.symbol (.string text)] } =
      (.ok (), { m with stack := Stack.ofList (ts.map (place {} .detached)), uid := m.uid + 1 }) := by
  have hrun : (evaluateToken fuel (Token.symbol (.string text))).run.run
      { m with stack := ({} : Stack Token) } =
        (.ok (({} : Stack Token).pushAll (ts.map (place {} .detached))).peek?,
          { m with
            stack := ({} : Stack Token).pushAll (ts.map (place {} .detached))
            uid := m.uid + 1 }) := by
    rw [evaluateToken, Lifted.evaluateToken]
    exact evaluateIn_symbols htoks hsym
  rw [invoke_eval (m := { m with stack := Stack.ofList [Token.symbol (.string text)] }) fuel caller _
    rfl hrun, Stack.pushAll_empty]

/-- `del-op` takes the top item off the stack and removes the operator it names. -/
theorem invoke_delOp (fuel : Nat) (caller name : Token) {s : Stack Token}
    (hs : m.stack = s.push name) :
    (invoke (fuel + 1) (Operator.builtin (.primitive .delOp)) caller).run.run m =
      (.ok (), { m with stack := s, ops := m.ops.erase name.text }) := by
  have hc : (collect (.fixed 1) caller).run.run m = (.ok [name], { m with stack := s }) :=
    collect_fixed (by decide) (by rw [hs]; exact Stack.popN?_push s name)
  rw [invoke, Lifted.invoke]
  simp only [Operator.builtin, Builtin.arity, Primitive.arity]
  rw [Exec.run_bind_of_ok hc]
  simp [Primitive.act]
  rfl

end Evaluation

end Concatenative
