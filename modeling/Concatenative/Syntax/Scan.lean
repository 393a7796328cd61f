import Concatenative.Syntax.Rule
import Concatenative.Error

/-!
# Scanning

The scanner walks a text with a `Cursor`. At each position an opening parenthesis takes the
balanced text up to its matching close, counting parentheses only, and makes one quoted-code
token of what lies between them; anywhere else every rule is tried and the longest match wins,
the earlier rule on a tie (`Scan.longest`). A position where no rule matches is an
`unrecognizedInput` error, an opening parenthesis without a close an `unmatchedParentheses`
error, and scanning stops at the first error.

The vocabulary is consulted token by token (`Scan.next`), so it may change between tokens, as
the operator table does while a program runs. `Scan.tokens` scans a whole text with a fixed
vocabulary. `Scan.pull` is one call of the token iterator, which keeps its cursor: past the end
of the text, and after an error, which moves the cursor to the end, it answers none.

Every successful scan consumes at least one character (`Scan.scan_rest_length`), which is what
makes `Scan.next` and `Scan.tokens` terminate.
-/

namespace Concatenative

/-- A scanning position: the byte offset reached and the characters not yet scanned. -/
structure Cursor where
  offset : Nat
  rest : List Char
  deriving Inhabited

namespace Cursor

/-- The start of a text. -/
def start (text : String) : Cursor :=
  ⟨0, text.toList⟩

/-- The cursor after the first `n` characters. -/
def advance (c : Cursor) (n : Nat) : Cursor :=
  ⟨c.offset + utf8Length (c.rest.take n), c.rest.drop n⟩

end Cursor

namespace Scan

/-- The rule with the longest nonempty match at the start of `cs` and that match's length; the
earlier rule wins a tie. -/
def longest (rules : List Rule) (cs : List Char) : Option (Rule × Nat) :=
  rules.foldl step none
where
  step (best : Option (Rule × Nat)) (r : Rule) : Option (Rule × Nat) :=
    match r.matchLength cs with
    | some n =>
      let n := (cs.take n).length
      if (best.map (·.2)).getD 0 < n then some (r, n) else best
    | none => best

theorem longest_step_bounds (cs : List Char) (best : Option (Rule × Nat)) (r : Rule)
    (h : ∀ p ∈ best, 0 < p.2 ∧ p.2 ≤ cs.length) :
    ∀ p ∈ longest.step cs best r, 0 < p.2 ∧ p.2 ≤ cs.length := by
  intro p hp
  unfold longest.step at hp
  split at hp
  · dsimp only at hp
    split at hp
    · simp only [Option.mem_def, Option.some.injEq] at hp
      subst hp
      constructor
      · omega
      · exact List.length_take_le' _ _
    · exact h p hp
  · exact h p hp

theorem foldl_longest_bounds (cs : List Char) (rules : List Rule) (best : Option (Rule × Nat))
    (h : ∀ p ∈ best, 0 < p.2 ∧ p.2 ≤ cs.length) :
    ∀ p ∈ rules.foldl (longest.step cs) best, 0 < p.2 ∧ p.2 ≤ cs.length := by
  induction rules generalizing best with
  | nil => exact h
  | cons r rs ih => exact ih _ (longest_step_bounds cs best r h)

/-- The longest match is never empty and never longer than the text. -/
theorem longest_bounds {rules : List Rule} {cs : List Char} {r : Rule} {n : Nat}
    (h : longest rules cs = some (r, n)) : 0 < n ∧ n ≤ cs.length :=
  foldl_longest_bounds cs rules none (by simp) (r, n) h

/-- The number of characters from an opening parenthesis through its matching close, counting
parentheses only; none when it does not close. -/
def parenLength (cs : List Char) : Option Nat :=
  go cs 0 0
where
  go : List Char → Nat → Nat → Option Nat
    | [], _, _ => none
    | c :: r, depth, count =>
      let depth := if c = '(' then depth + 1 else if c = ')' then depth - 1 else depth
      if depth = 0 then some (count + 1) else go r depth (count + 1)

theorem parenLength_go_bounds (cs : List Char) (depth count n : Nat)
    (h : parenLength.go cs depth count = some n) : count < n ∧ n ≤ count + cs.length := by
  induction cs generalizing depth count with
  | nil => simp [parenLength.go] at h
  | cons c r ih =>
    simp only [parenLength.go] at h
    generalize (if c = '(' then depth + 1 else if c = ')' then depth - 1 else depth) = d at h
    split at h
    · simp only [Option.some.injEq] at h
      simp only [List.length_cons]
      omega
    · have := ih _ _ h
      simp only [List.length_cons]
      omega

/-- A balanced parenthesis run is never empty and never longer than the text. -/
theorem parenLength_bounds {cs : List Char} {n : Nat} (h : parenLength cs = some n) :
    0 < n ∧ n ≤ cs.length := by
  have := parenLength_go_bounds cs 0 0 n h
  omega

/-- The quoted-code token for the balanced run of `n` characters at the cursor: its value is the
text between the parentheses, its span that text's bytes. -/
def quotedCode (c : Cursor) (n : Nat) : Token :=
  let taken := c.rest.take n
  let inner := (taken.drop 1).dropLast
  { kind := .symbol, value := .string (String.ofList inner),
    span := some ⟨c.offset + 1, c.offset + 1 + utf8Length inner⟩, tags := Tags.quoted }

/-- One scan at the cursor, which is not at the end: the token made there (none for skipped
text) and the cursor after it. -/
def scan (rules : List Rule) (vocab : Vocabulary) (c : Cursor) :
    Except Error (Option Token × Cursor) :=
  match c.rest with
  | [] => .ok (none, c)
  | '(' :: _ =>
    match parenLength c.rest with
    | none => .error ⟨.unmatchedParentheses, some ⟨c.offset, c.offset + 1⟩⟩
    | some n => .ok (some (quotedCode c n), c.advance n)
  | ch :: _ =>
    match longest rules c.rest with
    | none =>
      .error ⟨.unrecognizedInput (String.ofList (c.rest.take 32)),
        some ⟨c.offset, c.offset + ch.utf8Size⟩⟩
    | some (rule, n) =>
      let taken := c.rest.take n
      .ok (rule.build taken ⟨c.offset, c.offset + utf8Length taken⟩ vocab, c.advance n)

theorem advance_rest_length {c : Cursor} {n : Nat} (hpos : 0 < n) (hle : n ≤ c.rest.length) :
    (c.advance n).rest.length < c.rest.length := by
  simp only [Cursor.advance, List.length_drop]
  omega

/-- A scan that succeeds on a nonempty rest consumes at least one character. -/
theorem scan_rest_length {rules : List Rule} {vocab : Vocabulary} {c c' : Cursor}
    {t : Option Token} (hne : c.rest ≠ []) (h : scan rules vocab c = .ok (t, c')) :
    c'.rest.length < c.rest.length := by
  unfold scan at h
  split at h
  · contradiction
  · split at h
    · cases h
    · rename_i n hn
      cases h
      have := parenLength_bounds hn
      exact advance_rest_length this.1 this.2
  · split at h
    · cases h
    · rename_i rule n hn
      cases h
      have := longest_bounds hn
      exact advance_rest_length this.1 this.2

set_option linter.unusedVariables false in
/-- The next token from the cursor, skipping text that makes none, with the cursor after it;
none at the end of the text. -/
def next (rules : List Rule) (vocab : Vocabulary) (c : Cursor) :
    Except Error (Option (Token × Cursor)) :=
  if hne : c.rest = [] then .ok none
  else
    match hs : scan rules vocab c with
    | .error e => .error e
    | .ok (some t, c') => .ok (some (t, c'))
    | .ok (none, c') => next rules vocab c'
termination_by c.rest.length
decreasing_by exact scan_rest_length hne hs

/-- Where a scan fails, so does the search for the next token. -/
theorem next_of_scan_error {rules : List Rule} {vocab : Vocabulary} {c : Cursor} {e : Error}
    (hne : c.rest ≠ []) (hs : scan rules vocab c = .error e) : next rules vocab c = .error e := by
  rw [next, dif_neg hne]
  split <;> simp_all

/-- Where a scan makes a token, that is the next token. -/
theorem next_of_scan_some {rules : List Rule} {vocab : Vocabulary} {c c' : Cursor} {t : Token}
    (hne : c.rest ≠ []) (hs : scan rules vocab c = .ok (some t, c')) :
    next rules vocab c = .ok (some (t, c')) := by
  rw [next, dif_neg hne]
  split <;> simp_all

/-- Where a scan skips text, the search goes on after it. -/
theorem next_of_scan_none {rules : List Rule} {vocab : Vocabulary} {c c' : Cursor}
    (hne : c.rest ≠ []) (hs : scan rules vocab c = .ok (none, c')) :
    next rules vocab c = next rules vocab c' := by
  rw [next, dif_neg hne]
  split <;> simp_all

/-- A token found by `next` leaves a shorter rest. -/
theorem next_rest_length {rules : List Rule} {vocab : Vocabulary} {c c' : Cursor} {t : Token}
    (h : next rules vocab c = .ok (some (t, c'))) : c'.rest.length < c.rest.length := by
  induction c using next.induct rules vocab with
  | case1 c hne => rw [next, dif_pos hne] at h; cases h
  | case2 c hne e hs => rw [next_of_scan_error hne hs] at h; cases h
  | case3 c hne t' c'' hs =>
    rw [next_of_scan_some hne hs] at h
    cases h
    exact scan_rest_length hne hs
  | case4 c hne c'' hs ih =>
    rw [next_of_scan_none hne hs] at h
    exact Nat.lt_trans (ih h) (scan_rest_length hne hs)

set_option linter.unusedVariables false in
/-- All tokens of a text, and the error that stopped the scan, if one did. -/
def tokens (rules : List Rule) (vocab : Vocabulary) (text : String) : List Token × Option Error :=
  go (Cursor.start text)
where
  go (c : Cursor) : List Token × Option Error :=
    match h : next rules vocab c with
    | .ok none => ([], none)
    | .error e => ([], some e)
    | .ok (some (t, c')) =>
      let rest := go c'
      (t :: rest.1, rest.2)
  termination_by c.rest.length
  decreasing_by exact next_rest_length h

/-- Where the search finds a token, the scan gives it and then what it finds after it. -/
theorem tokens_go_next {rules : List Rule} {vocab : Vocabulary} {c c₁ : Cursor} {t : Token}
    (h : next rules vocab c = .ok (some (t, c₁))) :
    tokens.go rules vocab c = (t :: (tokens.go rules vocab c₁).1, (tokens.go rules vocab c₁).2) := by
  rw [tokens.go]
  split <;> simp_all

/-- Where the search finds nothing, the scan ends with no token and no error. -/
theorem tokens_go_none {rules : List Rule} {vocab : Vocabulary} {c : Cursor}
    (h : next rules vocab c = .ok none) : tokens.go rules vocab c = ([], none) := by
  rw [tokens.go]
  split <;> simp_all

/-- Where the search fails, the scan ends with its error. -/
theorem tokens_go_of_next_error {rules : List Rule} {vocab : Vocabulary} {c : Cursor} {e : Error}
    (h : next rules vocab c = .error e) : tokens.go rules vocab c = ([], some e) := by
  rw [tokens.go]
  split <;> simp_all

/-- One call of the token iterator: the next token or error, none once the text is used up, and
the cursor after it. An error moves the cursor to the end of the text, so that the iterator
finds nothing after it. -/
def pull (rules : List Rule) (vocab : Vocabulary) (c : Cursor) :
    Option (Except Error Token) × Cursor :=
  match next rules vocab c with
  | .ok (some (t, c')) => (some (.ok t), c')
  | .ok none => (none, c.advance c.rest.length)
  | .error e => (some (.error e), c.advance c.rest.length)

/-- Successive calls of the token iterator, the `k`-th consulting the `k`-th vocabulary: what
each call answers and the cursor after it. -/
def pulls (rules : List Rule) : List Vocabulary → Cursor →
    List (Option (Except Error Token) × Cursor)
  | [], _ => []
  | v :: vs, c =>
    let (item, c') := pull rules v c
    (item, c') :: pulls rules vs c'

end Scan

end Concatenative
