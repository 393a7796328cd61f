import Mathlib.Data.List.TakeWhile
import Mathlib.Tactic.IntervalCases
import Concatenative.Proofs.Layout

/-!
# Grafting a suffix onto locals

Renaming a local appends an `@` and digits to its text. The scanner is run again on the renamed
text, so the renaming is only sound if the insertion moves no token boundary. This module shows
when it does not.

`Grafted s old new` says that `new` is `old` with the suffix `s` put right after some locals'
names, where the next character cannot continue a word. Such an insertion is invisible to every
rule that reads no further than the local's `@`: blanks, comments up to a line's end, quotes,
booleans, numbers. A double-quoted string or a block comment may read on across the whole rest
of the text; for those, a string or comment that did not close still does not close and one
that closed still closes at the same place (`Grafted.quotedEnd`, `Grafted.blockEnd`). The one
way to break this is a name ending in a backslash right before a line break: inside a string
the backslash then escapes the suffix's `@` instead of stopping at the line break, which is why
`Rule.Delimits` rules that case out.

## Main results

* `matchLength_agree` — a rule whose match on the text ends before a grafted local matches the
  same on the grafted text.
* `scan_agree`, `scan_graft`, `scan_code` — one scan before a graft, at a renamed local, and at
  quoted code holding grafts.
* `next_keep`, `next_graft`, `next_code` — the same for the next token, skipped text included.
-/

namespace Concatenative

namespace Rule

/-- Characters that continue a word and mean nothing to strings, block comments or
parentheses. -/
def isInert (c : Char) : Bool :=
  isWordChar c && c != '"' && c != '\\' && c != '*'

theorem isInert_digit {c : Char} (h : c.isDigit = true) : isInert c = true := by
  have hc : c = Char.ofNat c.toNat := (Char.ofNat_toNat c).symm
  simp only [Char.isDigit, Bool.and_eq_true, decide_eq_true_eq] at h
  have h1 : 48 ≤ c.toNat := h.1
  have h2 : c.toNat ≤ 57 := h.2
  rw [hc]
  generalize c.toNat = n at h1 h2
  interval_cases n <;> decide

/-- A local's name: one name character or more. -/
def IsName (name : List Char) : Prop :=
  name ≠ [] ∧ ∀ c ∈ name, isNameChar c = true

/-- What follows a name ends it: nothing that continues a word, and no line break right after a
final backslash. -/
def Delimits (name rest : List Char) : Prop :=
  (∀ c ∈ rest.head?, isWordChar c = false) ∧ (name.getLast? = some '\\' → rest.head? ≠ some '\n')

theorem isWordChar_of_isNameChar {c : Char} (h : isNameChar c = true) : isWordChar c = true := by
  simp only [isNameChar, Bool.and_eq_true] at h
  exact h.1

theorem ne_of_isWordChar_false {c d : Char} (hc : isWordChar c = false) (hd : isWordChar d = true) :
    c ≠ d := by
  rintro rfl
  simp_all

end Rule

/-- The text renaming appends to a local: an `@` and inert characters. -/
structure Suffix where
  tail : List Char
  inert : ∀ c ∈ tail, Rule.isInert c = true

namespace Suffix

/-- The suffix as text. -/
def chars (s : Suffix) : List Char :=
  '@' :: s.tail

theorem inert_chars (s : Suffix) : ∀ c ∈ s.chars, Rule.isInert c = true := by
  intro c hc
  rcases List.mem_cons.mp hc with rfl | h
  · decide
  · exact s.inert c h

theorem isWordChar_chars (s : Suffix) : ∀ c ∈ s.chars, Rule.isWordChar c = true := by
  intro c hc
  have := s.inert_chars c hc
  simp only [Rule.isInert, Bool.and_eq_true] at this
  exact this.1.1.1

end Suffix

/-- `new` is `old` with the suffix put right after some locals' names. -/
inductive Grafted (s : Suffix) : List Char → List Char → Prop
  | nil : Grafted s [] []
  | keep (c : Char) {old new : List Char} : Grafted s old new → Grafted s (c :: old) (c :: new)
  | graft {name old new : List Char} : Rule.IsName name → Rule.Delimits name old →
      Grafted s old new → Grafted s (('@' :: name) ++ old) (('@' :: name) ++ s.chars ++ new)

namespace Grafted

variable {s : Suffix}

theorem refl : ∀ cs : List Char, Grafted s cs cs
  | [] => .nil
  | c :: cs => .keep c (refl cs)

theorem prepend {old new : List Char} (h : Grafted s old new) :
    ∀ pre : List Char, Grafted s (pre ++ old) (pre ++ new)
  | [] => h
  | c :: pre => .keep c (prepend h pre)

/-- Grafting never touches the first character. -/
theorem head?_eq {old new : List Char} (h : Grafted s old new) : new.head? = old.head? := by
  cases h <;> simp

/-- Two grafted texts join when the second starts with something that ends a name. -/
theorem append {a a' b b' : List Char} (ha : Grafted s a a') (hb : Grafted s b b')
    (hhead : ∀ c ∈ b.head?, Rule.isWordChar c = false ∧ c ≠ '\n') :
    Grafted s (a ++ b) (a' ++ b') := by
  induction ha with
  | nil => exact hb
  | keep c _ ih => exact .keep c ih
  | @graft name old new hname hdelim _ ih =>
    have hdelim' : Rule.Delimits name (old ++ b) := by
      cases old with
      | nil =>
        exact ⟨fun c hc => (hhead c hc).1, fun _ hnl => (hhead '\n' (by simpa using hnl)).2 rfl⟩
      | cons d old => exact hdelim
    simpa only [List.append_assoc] using Grafted.graft (s := s) hname hdelim' ih

/-- Where a grafted text first differs from the original: nowhere, or right after the `@` and the
first name character of a local. -/
theorem split {old new : List Char} (h : Grafted s old new) :
    new = old ∨ ∃ pre c rest rest', old = pre ++ '@' :: c :: rest ∧
      new = pre ++ '@' :: c :: rest' ∧ Rule.isNameChar c = true ∧ Grafted s ('@' :: c :: rest) ('@' :: c :: rest') := by
  induction h with
  | nil => exact .inl rfl
  | keep c _ ih =>
    rcases ih with rfl | ⟨pre, d, rest, rest', rfl, rfl, hd, hg⟩
    · exact .inl rfl
    · exact .inr ⟨c :: pre, d, rest, rest', rfl, rfl, hd, hg⟩
  | @graft name old new hname hdelim hg _ =>
    obtain ⟨c, name, rfl⟩ := List.exists_cons_of_ne_nil hname.1
    refine .inr ⟨[], c, name ++ old, name ++ s.chars ++ new, by simp, by simp, hname.2 c (by simp),
      ?_⟩
    simpa using Grafted.graft (s := s) hname hdelim hg

end Grafted

@[simp] theorem Suffix.chars_append (s : Suffix) (rest : List Char) :
    s.chars ++ rest = '@' :: (s.tail ++ rest) := rfl

@[simp] theorem Suffix.chars_ne_nil (s : Suffix) : s.chars ≠ [] :=
  List.cons_ne_nil _ _

namespace Rule

theorem isInert_spec {c : Char} (h : isInert c = true) :
    isWordChar c = true ∧ c ≠ '"' ∧ c ≠ '\\' ∧ c ≠ '*' := by
  simp only [isInert, Bool.and_eq_true, bne_iff_ne, ne_eq] at h
  exact ⟨h.1.1.1, h.1.1.2, h.1.2, h.2⟩

-- ---------------------------------------------------------------------------
-- Double-quoted strings
-- ---------------------------------------------------------------------------

@[simp] theorem quotedEnd_quote (r : List Char) : quotedEnd ('"' :: r) = some 1 := by
  simp [quotedEnd]

@[simp] theorem quotedEnd_escape (c : Char) (r : List Char) :
    quotedEnd ('\\' :: c :: r) = if c = '\n' then none else (quotedEnd r).map (· + 2) := by
  simp [quotedEnd]

theorem quotedEnd_cons {c : Char} (hq : c ≠ '"') (hb : c ≠ '\\') (r : List Char) :
    quotedEnd (c :: r) = (quotedEnd r).map (· + 1) := by
  rw [quotedEnd.eq_def]
  split <;> simp_all

/-- A character that continues no word is neither a quote nor a backslash. -/
theorem quotedEnd_delim {c : Char} (hc : isWordChar c = false) (r : List Char) :
    quotedEnd (c :: r) = (quotedEnd r).map (· + 1) :=
  quotedEnd_cons (ne_of_isWordChar_false hc (by decide)) (ne_of_isWordChar_false hc (by decide)) r

theorem quotedEnd_pos : ∀ {cs : List Char} {n : Nat}, quotedEnd cs = some n → 1 ≤ n
  | [], _, h => by simp [quotedEnd] at h
  | c :: cs, n, h => by
    by_cases hq : c = '"'
    · subst hq
      simp only [quotedEnd_quote, Option.some.injEq] at h
      omega
    by_cases hb : c = '\\'
    · subst hb
      cases cs with
      | nil => simp [quotedEnd] at h
      | cons d cs =>
        rw [quotedEnd_escape] at h
        split_ifs at h
        obtain ⟨m, -, rfl⟩ := Option.map_eq_some_iff.mp h
        omega
    · rw [quotedEnd_cons hq hb] at h
      obtain ⟨m, -, rfl⟩ := Option.map_eq_some_iff.mp h
      omega

theorem quotedEnd_inert_append {xs : List Char} (hxs : ∀ c ∈ xs, isInert c = true)
    (r : List Char) : quotedEnd (xs ++ r) = (quotedEnd r).map (· + xs.length) := by
  induction xs with
  | nil => simp
  | cons c xs ih =>
    have hc := isInert_spec (hxs c (List.mem_cons_self ..))
    rw [List.cons_append, quotedEnd_cons hc.2.1 hc.2.2.1,
      ih fun d hd => hxs d (List.mem_cons_of_mem _ hd), Option.map_map]
    congr 1

/-- A string that closes within `a` closes there whatever follows. -/
theorem quotedEnd_append_of_le {b b' : List Char} :
    ∀ {a : List Char} {n : Nat}, quotedEnd (a ++ b) = some n → n ≤ a.length →
      quotedEnd (a ++ b') = some n
  | [], n, h, hn => absurd (quotedEnd_pos h) (by simp at hn; omega)
  | c :: a, n, h, hn => by
    by_cases hq : c = '"'
    · subst hq
      simpa using h
    by_cases hb : c = '\\'
    · subst hb
      cases a with
      | nil =>
        -- an escape needs two characters, so a string cannot close after one
        cases b with
        | nil => simp [quotedEnd] at h
        | cons d b =>
          simp only [List.nil_append, List.cons_append, quotedEnd_escape] at h
          split_ifs at h
          obtain ⟨m, -, rfl⟩ := Option.map_eq_some_iff.mp h
          simp at hn
      | cons d a =>
        simp only [List.cons_append, quotedEnd_escape] at h ⊢
        split_ifs at h ⊢
        obtain ⟨m, hm, rfl⟩ := Option.map_eq_some_iff.mp h
        rw [quotedEnd_append_of_le hm (by simp at hn; omega)]
        rfl
    · simp only [List.cons_append, quotedEnd_cons hq hb] at h ⊢
      obtain ⟨m, hm, rfl⟩ := Option.map_eq_some_iff.mp h
      rw [quotedEnd_append_of_le hm (by simp at hn; omega)]
      rfl

/-- One graft: a string that did not close still does not. -/
theorem quotedEnd_graft (s : Suffix) :
    ∀ (a b : List Char), (a.getLast? = some '\\' → b.head? ≠ some '\n') →
      (∀ c ∈ b.head?, isWordChar c = false) → quotedEnd (a ++ b) = none →
      quotedEnd (a ++ s.chars ++ b) = none
  | [], b, _, _, h => by
    rw [List.nil_append] at h
    rw [List.nil_append, quotedEnd_inert_append s.inert_chars, h]
    rfl
  | c :: a, b, hlast, hb, h => by
    by_cases hq : c = '"'
    · subst hq
      simp at h
    by_cases hbs : c = '\\'
    · subst hbs
      cases a with
      | nil =>
        -- the suffix's `@` is escaped, and the first character after the graft is not a line
        -- break, so it was escaped before
        have hnone : quotedEnd b = none := by
          cases b with
          | nil => rfl
          | cons d b =>
            have hd : d ≠ '\n' := fun hd => hlast rfl (by simp [hd])
            simp only [List.nil_append, List.cons_append, quotedEnd_escape, if_neg hd,
              Option.map_eq_none_iff] at h
            rw [quotedEnd_delim (hb d rfl), h]
            rfl
        simp only [List.nil_append, List.cons_append, Suffix.chars_append, quotedEnd_escape]
        rw [if_neg (by decide), quotedEnd_inert_append s.inert, hnone]
        rfl
      | cons d a =>
        simp only [List.cons_append, quotedEnd_escape] at h ⊢
        split_ifs at h ⊢ with hd
        · rfl
        · rw [Option.map_eq_none_iff] at h ⊢
          have hlast' : a.getLast? = some '\\' → b.head? ≠ some '\n' := fun ha => by
            cases a with
            | nil => simp at ha
            | cons e a => exact hlast (by simpa using ha)
          simpa using quotedEnd_graft s a b hlast' hb (by simpa using h)
    · have hlast' : a.getLast? = some '\\' → b.head? ≠ some '\n' := fun ha => by
        cases a with
        | nil => simp at ha
        | cons e a => exact hlast (by simpa using ha)
      simp only [List.cons_append, quotedEnd_cons hq hbs, Option.map_eq_none_iff] at h ⊢
      simpa using quotedEnd_graft s a b hlast' hb (by simpa using h)

end Rule

/-- A string that did not close does not close after grafting either. -/
theorem Grafted.quotedEnd {s : Suffix} {old new : List Char} (h : Grafted s old new) :
    ∀ pre, Rule.quotedEnd (pre ++ old) = none → Rule.quotedEnd (pre ++ new) = none := by
  induction h with
  | nil => exact fun _ h => h
  | keep c _ ih =>
    intro pre h
    simpa using ih (pre ++ [c]) (by simpa using h)
  | @graft name old new hname hdelim _ ih =>
    intro pre h
    have hlast : (pre ++ '@' :: name).getLast? = name.getLast? := by
      obtain ⟨c, name, rfl⟩ := List.exists_cons_of_ne_nil hname.1
      simp [List.getLast?_cons]
    have h1 := Rule.quotedEnd_graft s (pre ++ '@' :: name) old (hlast ▸ hdelim.2) hdelim.1
      (by simpa using h)
    simpa using ih (pre ++ '@' :: name ++ s.chars) (by simpa using h1)

namespace Rule

-- ---------------------------------------------------------------------------
-- Block comments
-- ---------------------------------------------------------------------------

theorem blockEnd_cons (c : Char) (r : List Char) :
    blockEnd (c :: r) =
      if c = '*' ∧ r.head? = some '/' then some 2 else (blockEnd r).map (· + 1) := by
  rw [blockEnd.eq_def]
  split
  · simp_all
  · rename_i d r' hne heq
    obtain ⟨rfl, rfl⟩ := List.cons.inj heq
    rw [if_neg]
    rintro ⟨rfl, hr⟩
    cases r with
    | nil => simp at hr
    | cons e t =>
      simp only [List.head?_cons, Option.some.injEq] at hr
      exact hne t rfl (by rw [hr])
  · simp_all

theorem blockEnd_ge : ∀ {cs : List Char} {n : Nat}, blockEnd cs = some n → 2 ≤ n
  | [], _, h => by simp [blockEnd] at h
  | c :: cs, n, h => by
    rw [blockEnd_cons] at h
    split_ifs at h
    · simp only [Option.some.injEq] at h
      omega
    · obtain ⟨m, hm, rfl⟩ := Option.map_eq_some_iff.mp h
      have := blockEnd_ge hm
      omega

theorem blockEnd_inert_append {xs : List Char} (hxs : ∀ c ∈ xs, isInert c = true)
    (r : List Char) : blockEnd (xs ++ r) = (blockEnd r).map (· + xs.length) := by
  induction xs with
  | nil => simp
  | cons c xs ih =>
    have hc := isInert_spec (hxs c (List.mem_cons_self ..))
    rw [List.cons_append, blockEnd_cons, if_neg (fun h => hc.2.2.2 h.1),
      ih fun d hd => hxs d (List.mem_cons_of_mem _ hd), Option.map_map]
    congr 1

/-- A block comment that closes within `a` closes there whatever follows. -/
theorem blockEnd_append_of_le {b b' : List Char} :
    ∀ {a : List Char} {n : Nat}, blockEnd (a ++ b) = some n → n ≤ a.length →
      blockEnd (a ++ b') = some n
  | [], n, h, hn => absurd (blockEnd_ge h) (by simp at hn; omega)
  | c :: a, n, h, hn => by
    rw [List.cons_append, blockEnd_cons] at h ⊢
    split_ifs at h with hclose
    · -- the close is `c` and the first character of `a`
      simp only [Option.some.injEq] at h
      subst h
      cases a with
      | nil => simp at hn
      | cons d a =>
        simp only [List.cons_append, List.head?_cons] at hclose ⊢
        simp [hclose]
    · obtain ⟨m, hm, rfl⟩ := Option.map_eq_some_iff.mp h
      have hm' := @blockEnd_append_of_le _ b' _ _ hm (by simp at hn; omega)
      rw [if_neg, hm']
      · rfl
      · rintro ⟨hc, hd⟩
        cases a with
        | nil => have := blockEnd_ge hm; simp at hn; omega
        | cons e a => exact hclose ⟨hc, by simpa using hd⟩

/-- One graft: a block comment that did not close still does not. -/
theorem blockEnd_graft (s : Suffix) :
    ∀ (a b : List Char), (∀ c ∈ b.head?, isWordChar c = false) → blockEnd (a ++ b) = none →
      blockEnd (a ++ s.chars ++ b) = none
  | [], b, _, h => by
    rw [List.nil_append] at h
    rw [List.nil_append, blockEnd_inert_append s.inert_chars, h]
    rfl
  | c :: a, b, hb, h => by
    rw [List.cons_append, blockEnd_cons] at h
    split_ifs at h with hclose
    rw [Option.map_eq_none_iff] at h
    rw [List.append_assoc, List.cons_append, blockEnd_cons, if_neg, ← List.append_assoc,
      blockEnd_graft s a b hb h]
    · rfl
    · -- the suffix starts with `@`, and the text before it did not close
      rintro ⟨hc, hd⟩
      cases a with
      | nil => simp [Suffix.chars] at hd
      | cons e a => exact hclose ⟨hc, by simpa using hd⟩

end Rule

/-- A block comment that did not close does not close after grafting either. -/
theorem Grafted.blockEnd {s : Suffix} {old new : List Char} (h : Grafted s old new) :
    ∀ pre, Rule.blockEnd (pre ++ old) = none → Rule.blockEnd (pre ++ new) = none := by
  induction h with
  | nil => exact fun _ h => h
  | keep c _ ih =>
    intro pre h
    simpa using ih (pre ++ [c]) (by simpa using h)
  | @graft name old new hname hdelim _ ih =>
    intro pre h
    have h1 := Rule.blockEnd_graft s (pre ++ '@' :: name) old hdelim.1 (by simpa using h)
    simpa using ih (pre ++ '@' :: name ++ s.chars) (by simpa using h1)

namespace Scan

-- ---------------------------------------------------------------------------
-- Parentheses
-- ---------------------------------------------------------------------------

/-- A parenthesis run that closes within `a` closes there whatever follows. -/
theorem parenLength_go_prefix {b b' : List Char} :
    ∀ {a : List Char} {depth count n : Nat}, parenLength.go (a ++ b) depth count = some n →
      n ≤ count + a.length → parenLength.go (a ++ b') depth count = some n
  | [], depth, count, n, h, hn => by
    have := parenLength_go_bounds _ _ _ _ h
    simp at hn
    omega
  | c :: a, depth, count, n, h, hn => by
    simp only [List.cons_append, parenLength.go] at h ⊢
    generalize (if c = '(' then depth + 1 else if c = ')' then depth - 1 else depth) = d at h ⊢
    split_ifs at h ⊢
    · exact h
    · exact parenLength_go_prefix h (by simp at hn; omega)

theorem parenLength_go_count :
    ∀ (cs : List Char) (depth count k : Nat),
      parenLength.go cs depth (count + k) = (parenLength.go cs depth count).map (· + k)
  | [], _, _, _ => rfl
  | c :: cs, depth, count, k => by
    simp only [parenLength.go]
    generalize (if c = '(' then depth + 1 else if c = ')' then depth - 1 else depth) = d
    split_ifs
    · simp only [Option.map_some, Option.some.injEq]
      omega
    · rw [Nat.add_right_comm, parenLength_go_count cs d (count + 1) k]

/-- Text without parentheses, read at a positive depth, only counts. -/
theorem parenLength_go_plain {xs : List Char} (hxs : ∀ c ∈ xs, c ≠ '(' ∧ c ≠ ')')
    (r : List Char) {depth : Nat} (hd : depth ≠ 0) (count : Nat) :
    parenLength.go (xs ++ r) depth count = parenLength.go r depth (count + xs.length) := by
  induction xs generalizing count with
  | nil => simp
  | cons c xs ih =>
    have hc := hxs c (List.mem_cons_self ..)
    simp only [List.cons_append, parenLength.go, if_neg hc.1, if_neg hc.2, if_neg hd]
    rw [ih (fun d hd => hxs d (List.mem_cons_of_mem _ hd))]
    simp only [List.length_cons]
    congr 1
    omega

end Scan

theorem Rule.not_paren_of_isWordChar {c : Char} (h : Rule.isWordChar c = true) :
    c ≠ '(' ∧ c ≠ ')' :=
  ⟨Rule.ne_of_isWordChar_false (d := c) (by decide) h |>.symm,
    Rule.ne_of_isWordChar_false (d := c) (by decide) h |>.symm⟩

/-- Grafting inside a parenthesis run that closes after it moves the close by the length of the
grafts. -/
theorem Grafted.parenLength_go {s : Suffix} {old new : List Char} (h : Grafted s old new)
    (r : List Char) :
    ∀ {depth count n : Nat}, Scan.parenLength.go (old ++ r) depth count = some n →
      count + old.length < n →
      Scan.parenLength.go (new ++ r) depth count = some (n + new.length - old.length) := by
  induction h with
  | nil => intro _ _ _ h _; simpa using h
  | keep c _ ih =>
    intro depth count n h hn
    simp only [List.cons_append, Scan.parenLength.go] at h ⊢
    generalize (if c = '(' then depth + 1 else if c = ')' then depth - 1 else depth) = d at h ⊢
    split_ifs at h ⊢
    · simp only [Option.some.injEq] at h
      simp at hn
      omega
    · rw [ih h (by simp at hn; omega)]
      simp only [List.length_cons]
      congr 1
      omega
  | @graft name old new hname _ _ ih =>
    intro depth count n h hn
    have hname' : ∀ c ∈ '@' :: name, c ≠ '(' ∧ c ≠ ')' := by
      intro c hc
      rcases List.mem_cons.mp hc with rfl | hc
      · decide
      · exact Rule.not_paren_of_isWordChar (Rule.isWordChar_of_isNameChar (hname.2 c hc))
    have hsfx : ∀ c ∈ s.chars, c ≠ '(' ∧ c ≠ ')' := fun c hc =>
      Rule.not_paren_of_isWordChar (s.isWordChar_chars c hc)
    -- the `@` opens nothing, so a run that had not closed before it is still open
    have hdepth : depth ≠ 0 := by
      rintro rfl
      simp only [List.cons_append, List.append_assoc, Scan.parenLength.go] at h
      simp at h hn
      omega
    rw [List.append_assoc, Scan.parenLength_go_plain hname' _ hdepth] at h
    rw [List.append_assoc, List.append_assoc, Scan.parenLength_go_plain hname' _ hdepth,
      Scan.parenLength_go_plain hsfx _ hdepth, Scan.parenLength_go_count,
      ih h (by simp at hn ⊢; omega)]
    simp only [Option.map_some, List.length_append, List.length_cons] at hn ⊢
    congr 1
    omega

namespace Rule

-- ---------------------------------------------------------------------------
-- Runs of characters
-- ---------------------------------------------------------------------------

/-- A run that cannot go on at the first character after `g` does not see what follows. -/
theorem takeWhile_append_stop {p : Char → Bool} {g z : List Char}
    (hz : ∀ c ∈ z.head?, p c = false) : (g ++ z).takeWhile p = g.takeWhile p := by
  induction g with
  | nil =>
    cases z with
    | nil => rfl
    | cons c z => simp [hz c rfl]
  | cons c g ih => by_cases hc : p c <;> simp [hc, ih]

/-- A run that ends within `g` reads no further than the first character after it. -/
theorem takeWhile_append_short {p : Char → Bool} {g z z' : List Char} (hz : z'.head? = z.head?)
    (hlen : ((g ++ z).takeWhile p).length ≤ g.length) :
    (g ++ z').takeWhile p = (g ++ z).takeWhile p := by
  induction g with
  | nil =>
    simp only [List.nil_append, List.length_nil, Nat.le_zero, List.length_eq_zero_iff] at hlen ⊢
    rw [hlen]
    cases z with
    | nil => cases z' <;> simp_all
    | cons c z => cases z' <;> simp_all [List.takeWhile_cons]
  | cons c g ih =>
    by_cases hc : p c
    · simp only [List.cons_append, List.takeWhile_cons, hc, if_true, List.length_cons] at hlen ⊢
      rw [ih (by omega)]
    · simp [hc]

theorem take_length_takeWhile (p : Char → Bool) :
    ∀ r : List Char, r.take (r.takeWhile p).length = r.takeWhile p
  | [] => rfl
  | c :: r => by
    by_cases hc : p c
    · simp [hc, take_length_takeWhile p r]
    · simp [hc]

/-- Cutting a run after `k` characters that all belong to it. -/
theorem takeWhile_drop {q : Char → Bool} :
    ∀ {r : List Char} {k : Nat}, (∀ c ∈ r.take k, q c = true) →
      (r.takeWhile q).drop k = (r.drop k).takeWhile q
  | [], _, _ => by simp
  | _ :: _, 0, _ => by simp
  | c :: r, k + 1, h => by
    have hc : q c = true := h c (by simp)
    simp only [List.takeWhile_cons, hc, if_true, List.drop_succ_cons]
    exact takeWhile_drop fun d hd => h d (by simp [hd])

-- ---------------------------------------------------------------------------
-- Numbers and booleans stop at an `@`
-- ---------------------------------------------------------------------------

/-- Characters a number literal is read from. -/
def isNumberChar (c : Char) : Bool :=
  c.isDigit || c == '+' || c == '-' || c == '.' || c == 'e' || c == 'E'

theorem isNumberChar_of_isDigit {c : Char} (h : c.isDigit = true) : isNumberChar c = true := by
  simp [isNumberChar, h]

/-- The sign of a number or an exponent and the text after it. -/
def signOf : List Char → Nat × List Char
  | '+' :: x => (1, x)
  | '-' :: x => (1, x)
  | x => (0, x)

/-- The length of a number's fraction after `whole` digits, the point included. -/
def fractionLength (whole : Nat) : List Char → Option Nat
  | '.' :: r =>
    let frac := (r.takeWhile Char.isDigit).length
    if frac = 0 then nonempty whole else some (whole + 1 + frac)
  | _ => nonempty whole

/-- The length of a number after its sign of length `sign`. -/
def unsignedLength (sign : Nat) (r : List Char) : Option Nat :=
  let whole := (r.takeWhile Char.isDigit).length
  (fractionLength whole (r.drop whole)).map fun m => sign + m + exponentLength (r.drop m)

/-- The length of an exponent's digits after its sign of length `sign`, with the `e`. -/
def exponentDigits (sign : Nat) (r : List Char) : Nat :=
  let d := (r.takeWhile Char.isDigit).length
  if d = 0 then 0 else 1 + sign + d

theorem signOf_other {cs : List Char} (hp : ∀ x, cs ≠ '+' :: x) (hm : ∀ x, cs ≠ '-' :: x) :
    signOf cs = (0, cs) := by
  unfold signOf
  split <;> simp_all

theorem numberLength_eq (cs : List Char) :
    numberLength cs = unsignedLength (signOf cs).1 (signOf cs).2 :=
  rfl

theorem exponentLength_cons (c : Char) (r : List Char) :
    exponentLength (c :: r) =
      if c = 'e' ∨ c = 'E' then exponentDigits (signOf r).1 (signOf r).2 else 0 :=
  rfl

theorem takeWhile_isDigit_number (r : List Char) :
    (r.takeWhile isNumberChar).takeWhile Char.isDigit = r.takeWhile Char.isDigit := by
  rw [List.takeWhile_takeWhile]
  congr 1
  funext c
  cases h : c.isDigit <;> simp [h, isNumberChar_of_isDigit]

theorem signOf_takeWhile (r : List Char) :
    signOf (r.takeWhile isNumberChar) = ((signOf r).1, (signOf r).2.takeWhile isNumberChar) := by
  cases r with
  | nil => rfl
  | cons c r =>
    by_cases hq : isNumberChar c
    · rw [List.takeWhile_cons_of_pos hq]
      by_cases hp : c = '+'
      · subst hp
        rfl
      by_cases hm : c = '-'
      · subst hm
        rfl
      rw [signOf_other (by simp [hp]) (by simp [hm]), signOf_other (by simp [hp]) (by simp [hm]),
        List.takeWhile_cons_of_pos hq]
    · have hp : c ≠ '+' := fun h => by subst h; simp [isNumberChar] at hq
      have hm : c ≠ '-' := fun h => by subst h; simp [isNumberChar] at hq
      rw [List.takeWhile_cons_of_neg hq, @signOf_other (c :: r) (by simp [hp]) (by simp [hm]),
        List.takeWhile_cons_of_neg hq]
      rfl

theorem exponentLength_takeWhile (r : List Char) :
    exponentLength (r.takeWhile isNumberChar) = exponentLength r := by
  cases r with
  | nil => rfl
  | cons c r =>
    by_cases hq : isNumberChar c
    · rw [List.takeWhile_cons_of_pos hq, exponentLength_cons, exponentLength_cons, signOf_takeWhile]
      simp only [exponentDigits, takeWhile_isDigit_number]
    · have he : ¬(c = 'e' ∨ c = 'E') := by
        rintro (rfl | rfl) <;> simp [isNumberChar] at hq
      rw [List.takeWhile_cons_of_neg hq, exponentLength_cons, if_neg he]
      rfl

theorem fractionLength_takeWhile (whole : Nat) (y : List Char) :
    fractionLength whole (y.takeWhile isNumberChar) = fractionLength whole y := by
  cases y with
  | nil => rfl
  | cons d y =>
    by_cases hdot : d = '.'
    · subst hdot
      simp only [List.takeWhile_cons_of_pos (show isNumberChar '.' = true by decide),
        fractionLength, takeWhile_isDigit_number]
    · have hother : ∀ z : List Char, fractionLength whole (d :: z) = nonempty whole := by
        intro z
        rw [fractionLength.eq_def]
        split <;> simp_all
      rw [hother]
      by_cases hq : isNumberChar d
      · rw [List.takeWhile_cons_of_pos hq, hother]
      · rw [List.takeWhile_cons_of_neg hq]
        rfl

/-- A fraction is read from number characters only. -/
theorem fractionLength_number {whole m : Nat} {y : List Char} (h : fractionLength whole y = some m) :
    whole ≤ m ∧ ∀ c ∈ y.take (m - whole), isNumberChar c = true := by
  have hnonempty : nonempty whole = some m → whole ≤ m ∧ ∀ c ∈ y.take (m - whole),
      isNumberChar c = true := by
    intro hn
    simp only [nonempty] at hn
    split_ifs at hn
    simp only [Option.some.injEq] at hn
    subst hn
    simp
  cases y with
  | nil => exact hnonempty h
  | cons d y =>
    by_cases hdot : d = '.'
    · subst hdot
      simp only [fractionLength] at h
      split_ifs at h with hfrac
      · exact hnonempty h
      · simp only [Option.some.injEq] at h
        subst h
        refine ⟨by omega, fun c hc => ?_⟩
        rw [show whole + 1 + (y.takeWhile Char.isDigit).length - whole =
          (y.takeWhile Char.isDigit).length + 1 by omega, List.take_succ_cons,
          take_length_takeWhile] at hc
        rcases List.mem_cons.mp hc with rfl | hc
        · decide
        · exact isNumberChar_of_isDigit (List.mem_takeWhile_imp hc)
    · have : fractionLength whole (d :: y) = nonempty whole := by
        rw [fractionLength.eq_def]
        split <;> simp_all
      exact hnonempty (this ▸ h)

theorem unsignedLength_takeWhile (sign : Nat) (r : List Char) :
    unsignedLength sign (r.takeWhile isNumberChar) = unsignedLength sign r := by
  have hdigits : ∀ c ∈ r.take (r.takeWhile Char.isDigit).length, isNumberChar c = true := by
    intro c hc
    rw [take_length_takeWhile] at hc
    exact isNumberChar_of_isDigit (List.mem_takeWhile_imp hc)
  simp only [unsignedLength, takeWhile_isDigit_number]
  rw [takeWhile_drop hdigits, fractionLength_takeWhile]
  cases hm : fractionLength (r.takeWhile Char.isDigit).length
      (r.drop (r.takeWhile Char.isDigit).length) with
  | none => rfl
  | some m =>
    -- the exponent is read after the mantissa, whose characters all belong to the number
    obtain ⟨hle, hfrac⟩ := fractionLength_number hm
    have hall : ∀ c ∈ r.take m, isNumberChar c = true := by
      intro c hc
      rw [show m = (r.takeWhile Char.isDigit).length + (m - (r.takeWhile Char.isDigit).length) by
        omega, List.take_add] at hc
      rcases List.mem_append.mp hc with hc | hc
      · exact hdigits c hc
      · exact hfrac c hc
    simp only [Option.map_some, takeWhile_drop hall, exponentLength_takeWhile]

/-- A number is read from its run of number characters. -/
theorem numberLength_takeWhile (cs : List Char) :
    numberLength (cs.takeWhile isNumberChar) = numberLength cs := by
  rw [numberLength_eq, numberLength_eq, signOf_takeWhile, unsignedLength_takeWhile]

theorem numberLength_stop {g w w' : List Char} {c : Char} (hc : isNumberChar c = false) :
    numberLength (g ++ c :: w') = numberLength (g ++ c :: w) := by
  rw [← numberLength_takeWhile, ← numberLength_takeWhile (g ++ c :: w),
    takeWhile_append_stop (by simpa using hc), takeWhile_append_stop (by simpa using hc)]

theorem boolean_matchLength (cs : List Char) :
    boolean.matchLength cs =
      if ['t', 'r', 'u', 'e'] <+: cs then some 4
      else if ['f', 'a', 'l', 's', 'e'] <+: cs then some 5 else none := by
  simp only [boolean]
  split
  · simp
  · simp
  · rename_i h1 h2
    rw [if_neg, if_neg]
    · rintro ⟨t, rfl⟩
      exact h2 t rfl
    · rintro ⟨t, rfl⟩
      exact h1 t rfl

/-- A word without `@` starts a text just when it starts the text before its first `@`. -/
theorem prefix_stop {w w' : List Char} : ∀ {xs g : List Char}, '@' ∉ xs →
    (xs <+: g ++ '@' :: w' ↔ xs <+: g ++ '@' :: w)
  | [], _, _ => by simp
  | x :: xs, [], hx => by
    have : x ≠ '@' := fun h => hx (h ▸ List.mem_cons_self ..)
    simp [this]
  | x :: xs, a :: g, hx => by
    simp only [List.cons_append, List.cons_prefix_cons]
    rw [prefix_stop (fun h => hx (List.mem_cons_of_mem _ h))]

theorem boolean_stop {g w w' : List Char} :
    boolean.matchLength (g ++ '@' :: w') = boolean.matchLength (g ++ '@' :: w) := by
  simp only [boolean_matchLength, @prefix_stop w w' _ g
    (show '@' ∉ ['t', 'r', 'u', 'e'] by decide),
    @prefix_stop w w' _ g (show '@' ∉ ['f', 'a', 'l', 's', 'e'] by decide)]

end Rule

namespace Rule

-- ---------------------------------------------------------------------------
-- Rules that read a first character
-- ---------------------------------------------------------------------------

theorem lineComment_matchLength (a b : Char) (r : List Char) :
    lineComment.matchLength (a :: b :: r) =
      if a = '/' ∧ b = '/' then some (2 + (r.takeWhile (· != '\n')).length) else none := by
  simp only [lineComment]
  split
  · simp_all
  · rename_i h
    rw [if_neg]
    rintro ⟨rfl, rfl⟩
    exact h r rfl

theorem blockComment_cons (a : Char) (r : List Char) :
    blockComment.matchLength (a :: r) = if a = '/' then (blockBody r).map (1 + ·) else none := by
  by_cases h : a = '/'
  · subst h
    rfl
  · rw [if_neg h]
    simp only [blockComment]
    split <;> simp_all

theorem doubleQuoted_cons (a : Char) (r : List Char) :
    doubleQuoted.matchLength (a :: r) = if a = '"' then (quotedEnd r).map (1 + ·) else none := by
  by_cases h : a = '"'
  · subst h
    rfl
  · rw [if_neg h]
    simp only [doubleQuoted]
    split <;> simp_all

theorem singleQuoted_cons (a : Char) (r : List Char) :
    singleQuoted.matchLength (a :: r) =
      if a = '\'' then
        (nonempty (r.takeWhile fun c => !isBlank c && c != '\'' && c != ')').length).map (1 + ·)
      else none := by
  by_cases h : a = '\''
  · subst h
    rfl
  · rw [if_neg h]
    simp only [singleQuoted]
    split <;> simp_all

theorem localName_cons (a : Char) (r : List Char) :
    localName.matchLength (a :: r) =
      if a = '@' then (nonempty (r.takeWhile isNameChar).length).map (1 + ·) else none := by
  by_cases h : a = '@'
  · subst h
    rfl
  · rw [if_neg h]
    simp only [localName]
    split <;> simp_all

theorem nonempty_le {n k : Nat} (h : ∀ m, nonempty n = some m → m ≤ k) : n ≤ k := by
  by_cases hn : n = 0
  · omega
  · exact h n (by simp [nonempty, hn])

theorem nonempty_map_le {n k : Nat} (h : ∀ m, (nonempty n).map (1 + ·) = some m → m ≤ k + 1) :
    n ≤ k :=
  nonempty_le fun m hm => by
    have := h (1 + m) (by rw [hm]; rfl)
    omega

-- ---------------------------------------------------------------------------
-- Every rule agrees before a graft
-- ---------------------------------------------------------------------------

section Agree

/-! The texts of this section are `g ++ '@' :: c :: w` and its grafted form
`g ++ '@' :: c :: w'`, where `@c` starts a renamed local: they agree up to that local's first
name character. A rule whose match on the first text ends within `g` matches the same on the
second. -/

variable {s : Suffix} {g w w' : List Char} {c : Char}

theorem blank_agree :
    blank.matchLength (g ++ '@' :: c :: w') = blank.matchLength (g ++ '@' :: c :: w) := by
  have hat : ∀ d ∈ ('@' :: c :: w).head?, isBlank d = false := by simp; decide
  have hat' : ∀ d ∈ ('@' :: c :: w').head?, isBlank d = false := by simp; decide
  simp only [blank, takeWhile_append_stop hat, takeWhile_append_stop hat']

theorem lineComment_agree
    (hle : ∀ m, lineComment.matchLength (g ++ '@' :: c :: w) = some m → m ≤ g.length) :
    lineComment.matchLength (g ++ '@' :: c :: w') = lineComment.matchLength (g ++ '@' :: c :: w) := by
  rcases g with _ | ⟨a, _ | ⟨b, g⟩⟩
  · simp [lineComment_matchLength]
  · simp [lineComment_matchLength]
  · simp only [List.cons_append, lineComment_matchLength] at hle ⊢
    split_ifs with h
    · have hrun := hle _ (if_pos h)
      simp only [List.length_cons] at hrun
      rw [@takeWhile_append_short _ _ ('@' :: c :: w) ('@' :: c :: w') rfl (by omega)]
    · rfl

theorem quoted_agree (hg : Grafted s ('@' :: c :: w) ('@' :: c :: w'))
    (hle : ∀ m, quotedEnd (g ++ '@' :: c :: w) = some m → m ≤ g.length) :
    quotedEnd (g ++ '@' :: c :: w') = quotedEnd (g ++ '@' :: c :: w) := by
  cases hq : quotedEnd (g ++ '@' :: c :: w) with
  | none => exact hg.quotedEnd g hq
  | some n => exact quotedEnd_append_of_le hq (hle n hq)

theorem blockBody_agree (hg : Grafted s ('@' :: c :: w) ('@' :: c :: w'))
    (hle : ∀ m, blockBody (g ++ '@' :: c :: w) = some m → m ≤ g.length) :
    blockBody (g ++ '@' :: c :: w') = blockBody (g ++ '@' :: c :: w) := by
  have hstar : ∀ x : List Char, ∀ d ∈ ('@' :: x).head?, (d == '*') = false := by simp
  unfold blockBody at hle ⊢
  simp only [takeWhile_append_stop (hstar _)] at hle ⊢
  generalize hk : (g.takeWhile (· == '*')).length = k at hle ⊢
  have hkg : k ≤ g.length := hk ▸ (List.takeWhile_sublist _).length_le
  split_ifs at hle ⊢ with hk0
  · rfl
  rw [List.drop_append_of_le_length hkg] at hle ⊢
  rw [List.drop_append_of_le_length hkg]
  have hlen : (g.drop k).length = g.length - k := List.length_drop
  generalize g.drop k = d at hle hlen ⊢
  cases d with
  | nil =>
    -- the stars reach the local's `@`: the comment cannot have closed inside `g`
    simp only [List.nil_append] at hle ⊢
    have hend : blockEnd (c :: w) = none := by
      cases hb : blockEnd (c :: w) with
      | none => rfl
      | some n =>
        have := hle (k + 1 + n) (by rw [hb])
        simp at hlen
        omega
    have hend' : blockEnd (c :: w') = none := by
      have h0 : blockEnd ('@' :: c :: w) = none := by
        rw [blockEnd_cons, if_neg (by simp), hend]
        rfl
      have h1 := hg.blockEnd [] h0
      rw [List.nil_append, blockEnd_cons, if_neg (by simp), Option.map_eq_none_iff] at h1
      exact h1
    rw [hend, hend']
  | cons e d =>
    simp only [List.cons_append] at hle ⊢
    cases hb : blockEnd (d ++ '@' :: c :: w) with
    | none => rw [hg.blockEnd d hb]
    | some n =>
      have := hle (k + 1 + n) (by rw [hb])
      simp only [List.length_cons] at hlen
      rw [blockEnd_append_of_le hb (by omega)]

theorem blockComment_agree (hg : Grafted s ('@' :: c :: w) ('@' :: c :: w'))
    (hle : ∀ m, blockComment.matchLength (g ++ '@' :: c :: w) = some m → m ≤ g.length) :
    blockComment.matchLength (g ++ '@' :: c :: w') =
      blockComment.matchLength (g ++ '@' :: c :: w) := by
  cases g with
  | nil => simp [blockComment_cons]
  | cons a g =>
    simp only [List.cons_append, blockComment_cons] at hle ⊢
    split_ifs at hle ⊢ with ha
    · rw [blockBody_agree hg fun m hm => by
        have := hle (1 + m) (by rw [hm]; rfl)
        simp at this
        omega]
    · rfl

theorem doubleQuoted_agree (hg : Grafted s ('@' :: c :: w) ('@' :: c :: w'))
    (hle : ∀ m, doubleQuoted.matchLength (g ++ '@' :: c :: w) = some m → m ≤ g.length) :
    doubleQuoted.matchLength (g ++ '@' :: c :: w') =
      doubleQuoted.matchLength (g ++ '@' :: c :: w) := by
  cases g with
  | nil => simp [doubleQuoted_cons]
  | cons a g =>
    simp only [List.cons_append, doubleQuoted_cons] at hle ⊢
    split_ifs at hle ⊢ with ha
    · rw [quoted_agree hg fun m hm => by
        have := hle (1 + m) (by rw [hm]; rfl)
        simp at this
        omega]
    · rfl

theorem singleQuoted_agree
    (hle : ∀ m, singleQuoted.matchLength (g ++ '@' :: c :: w) = some m → m ≤ g.length) :
    singleQuoted.matchLength (g ++ '@' :: c :: w') =
      singleQuoted.matchLength (g ++ '@' :: c :: w) := by
  cases g with
  | nil => simp [singleQuoted_cons]
  | cons a g =>
    simp only [List.cons_append, singleQuoted_cons] at hle ⊢
    split_ifs at hle ⊢ with ha
    · rw [@takeWhile_append_short _ _ ('@' :: c :: w) ('@' :: c :: w') rfl
        (nonempty_map_le hle)]
    · rfl

theorem localName_agree (hc : isNameChar c = true)
    (hle : ∀ m, localName.matchLength (g ++ '@' :: c :: w) = some m → m ≤ g.length) :
    localName.matchLength (g ++ '@' :: c :: w') = localName.matchLength (g ++ '@' :: c :: w) := by
  cases g with
  | nil =>
    -- the local itself would match, reaching past `g`
    exfalso
    have := hle _ (by rw [List.nil_append, localName_cons, if_pos rfl]; simp [nonempty, hc]; rfl)
    simp at this
  | cons a g =>
    have hat : ∀ x : List Char, ∀ d ∈ ('@' :: x).head?, isNameChar d = false := by simp; decide
    simp only [List.cons_append, localName_cons, takeWhile_append_stop (hat _)]

theorem boolean_agree :
    boolean.matchLength (g ++ '@' :: c :: w') = boolean.matchLength (g ++ '@' :: c :: w) :=
  boolean_stop

theorem number_agree :
    number.matchLength (g ++ '@' :: c :: w') = number.matchLength (g ++ '@' :: c :: w) :=
  numberLength_stop (by decide)

theorem identifier_agree
    (hle : ∀ m, identifier.matchLength (g ++ '@' :: c :: w) = some m → m ≤ g.length) :
    identifier.matchLength (g ++ '@' :: c :: w') = identifier.matchLength (g ++ '@' :: c :: w) := by
  simp only [identifier] at hle ⊢
  rw [@takeWhile_append_short _ _ ('@' :: c :: w) ('@' :: c :: w') rfl (nonempty_le hle)]

/-- Every standard rule whose match ends within `g` matches the same after grafting. -/
theorem matchLength_agree {r : Rule} (hr : r ∈ standard) (hc : isNameChar c = true)
    (hg : Grafted s ('@' :: c :: w) ('@' :: c :: w'))
    (hle : ∀ m, r.matchLength (g ++ '@' :: c :: w) = some m → m ≤ g.length) :
    r.matchLength (g ++ '@' :: c :: w') = r.matchLength (g ++ '@' :: c :: w) := by
  simp only [standard, List.mem_cons, List.not_mem_nil, or_false] at hr
  rcases hr with rfl | rfl | rfl | rfl | rfl | rfl | rfl | rfl | rfl
  · exact blank_agree
  · exact lineComment_agree hle
  · exact blockComment_agree hg hle
  · exact doubleQuoted_agree hg hle
  · exact singleQuoted_agree hle
  · exact localName_agree hc hle
  · exact boolean_agree
  · exact number_agree
  · exact identifier_agree hle

end Agree

end Rule

-- ---------------------------------------------------------------------------
-- Tokens moved along the text
-- ---------------------------------------------------------------------------

/-- The same token `d` bytes further on. -/
def Token.shift (t : Token) (d : Nat) : Token :=
  { t with span := t.span.map (·.shift d) }

/-- The token an identifier `word` scans to at `span`: an operator when the vocabulary has the
word, a string otherwise. -/
def Rule.wordToken (vocab : Vocabulary) (word : String) (span : Span) : Token :=
  if vocab word then (Token.operator word).placed (some span) else Rule.stringToken word.toList span

theorem Rule.identifier_build (cs : List Char) (span : Span) (vocab : Vocabulary) :
    Rule.identifier.build cs span vocab = some (Rule.wordToken vocab (String.ofList cs) span) := by
  simp only [Rule.identifier, Rule.wordToken, String.toList_ofList]
  split <;> rfl

theorem Rule.build_shift {r : Rule} (hr : r ∈ Rule.standard) (cs : List Char) (a b d : Nat)
    (vocab : Vocabulary) :
    r.build cs ⟨a + d, b + d⟩ vocab = (r.build cs ⟨a, b⟩ vocab).map (·.shift d) := by
  simp only [Rule.standard, List.mem_cons, List.not_mem_nil, or_false] at hr
  rcases hr with rfl | rfl | rfl | rfl | rfl | rfl | rfl | rfl | rfl <;>
    simp only [Rule.blank, Rule.lineComment, Rule.blockComment, Rule.doubleQuoted,
      Rule.singleQuoted, Rule.localName, Rule.boolean, Rule.number, Rule.identifier,
      Rule.stringToken, Token.shift, Token.placed, Token.operator, Option.map_some,
      Option.map_none, Span.shift]
  -- only the identifier is left: an operator or a string
  split <;> rfl

namespace Scan

theorem quotedCode_shift (c : Cursor) (n d : Nat) :
    quotedCode ⟨c.offset + d, c.rest⟩ n = (quotedCode c n).shift d := by
  simp only [quotedCode, Token.shift, Option.map_some, Span.shift]
  congr 3 <;> omega

-- ---------------------------------------------------------------------------
-- The longest match
-- ---------------------------------------------------------------------------

theorem longest_congr {rules : List Rule} {cs cs' : List Char}
    (hm : ∀ r ∈ rules, r.matchLength cs' = r.matchLength cs)
    (ht : ∀ r ∈ rules, ∀ m, r.matchLength cs = some m →
      (cs'.take m).length = (cs.take m).length) :
    longest rules cs' = longest rules cs := by
  unfold longest
  generalize (none : Option (Rule × Nat)) = best
  induction rules generalizing best with
  | nil => rfl
  | cons r rs ih =>
    simp only [List.foldl_cons]
    have hstep : longest.step cs' best r = longest.step cs best r := by
      unfold longest.step
      rw [hm r (List.mem_cons_self ..)]
      cases h : r.matchLength cs with
      | none => rfl
      | some m => simp only [ht r (List.mem_cons_self ..) m h]
    rw [hstep]
    exact ih (fun q hq => hm q (List.mem_cons_of_mem _ hq))
      (fun q hq => ht q (List.mem_cons_of_mem _ hq)) _

/-- The last rule wins when its match is strictly longer than every earlier rule's. -/
theorem longest_last {pre : List Rule} {r : Rule} {cs : List Char} {n : Nat}
    (hr : r.matchLength cs = some n) (hn : 0 < n) (hle : n ≤ cs.length)
    (hpre : ∀ q ∈ pre, ∀ m, q.matchLength cs = some m → (cs.take m).length < n) :
    longest (pre ++ [r]) cs = some (r, n) := by
  -- the earlier rules leave a best match shorter than `n`
  have fold : ∀ (rs : List Rule) (best : Option (Rule × Nat)), (best.map (·.2)).getD 0 < n →
      (∀ q ∈ rs, ∀ m, q.matchLength cs = some m → (cs.take m).length < n) →
      ((rs.foldl (longest.step cs) best).map (·.2)).getD 0 < n := by
    intro rs
    induction rs with
    | nil => exact fun _ h _ => h
    | cons q qs ih =>
      intro best hb hq
      refine ih _ ?_ fun q' hq' => hq q' (List.mem_cons_of_mem _ hq')
      unfold longest.step
      cases hm : q.matchLength cs with
      | none => exact hb
      | some m =>
        dsimp only
        split_ifs
        · simpa using hq q (List.mem_cons_self ..) m hm
        · exact hb
  have h := fold pre none (by simp; omega) hpre
  unfold longest
  rw [List.foldl_append, List.foldl_cons, List.foldl_nil, longest.step, hr]
  dsimp only
  rw [List.length_take, Nat.min_eq_left hle, if_pos h]

-- ---------------------------------------------------------------------------
-- One scan
-- ---------------------------------------------------------------------------

/-- Scanning further on in the text moves the token and the cursor along. -/
theorem scan_shift {vocab : Vocabulary} {o : Nat} {cs : List Char} {t? : Option Token}
    {c₁ : Cursor} (h : scan Rule.standard vocab ⟨o, cs⟩ = .ok (t?, c₁)) (d : Nat) :
    scan Rule.standard vocab ⟨o + d, cs⟩ =
      .ok (t?.map (·.shift d), ⟨c₁.offset + d, c₁.rest⟩) := by
  cases cs with
  | nil =>
    simp only [scan, Except.ok.injEq, Prod.mk.injEq] at h ⊢
    obtain ⟨rfl, rfl⟩ := h
    exact ⟨rfl, rfl⟩
  | cons a r =>
    by_cases ha : a = '('
    · subst ha
      obtain ⟨n, hn, rfl, rfl⟩ := paren_of_scan h
      rw [scan_paren hn, show o + d + utf8Length (('(' :: r).take n) =
        o + utf8Length (('(' :: r).take n) + d by omega]
      simp only [Option.map_some, ← quotedCode_shift]
    · have hp : (a :: r).head? ≠ some '(' := by simp [ha]
      obtain ⟨rule, n, hn, rfl, rfl⟩ := longest_of_scan (List.cons_ne_nil a r) hp h
      rw [scan_longest (List.cons_ne_nil a r) hp hn,
        show o + d + utf8Length ((a :: r).take n) = o + utf8Length ((a :: r).take n) + d by omega,
        Rule.build_shift (longest_spec hn).1]

theorem quotedCode_congr {c c' : Cursor} {n : Nat} (ho : c'.offset = c.offset)
    (ht : c'.rest.take n = c.rest.take n) : quotedCode c' n = quotedCode c n := by
  simp only [quotedCode, ho, ht]

end Scan

namespace Scan

variable {vocab : Vocabulary} {s : Suffix}

/-- A scan that ends before a grafted local makes the same token on the grafted text. -/
theorem scan_agree {o : Nat} {g w w' : List Char} {c : Char} (hc : Rule.isNameChar c = true)
    (hg : Grafted s ('@' :: c :: w) ('@' :: c :: w')) {t? : Option Token} {c₁ : Cursor}
    (h : scan Rule.standard vocab ⟨o, g ++ '@' :: c :: w⟩ = .ok (t?, c₁))
    (hlen : w.length + 2 ≤ c₁.rest.length) :
    ∃ r, c₁.rest = r ++ '@' :: c :: w ∧
      scan Rule.standard vocab ⟨o, g ++ '@' :: c :: w'⟩ =
        .ok (t?, ⟨c₁.offset, r ++ '@' :: c :: w'⟩) := by
  -- the scan consumed `n` characters, all within `g`
  have hdrop : ∀ n, c₁.rest = (g ++ '@' :: c :: w).drop n → n ≤ g.length := by
    intro n hn
    rw [hn, List.length_drop] at hlen
    simp only [List.length_append, List.length_cons] at hlen
    omega
  cases g with
  | nil =>
    exfalso
    obtain ⟨rule, n, hn, -, rfl⟩ := longest_of_scan (List.cons_ne_nil _ _) (by simp) h
    have := (longest_bounds hn).1
    have := hdrop n rfl
    simp at this
    omega
  | cons a g =>
    by_cases ha : a = '('
    · subst ha
      have hX : ∀ z : List Char, ('(' :: g) ++ z = '(' :: (g ++ z) := fun z => rfl
      rw [hX] at h ⊢
      obtain ⟨n, hn, rfl, rfl⟩ := paren_of_scan h
      have hng : n ≤ ('(' :: g).length := hdrop n (by rw [hX])
      have hn' : parenLength ('(' :: (g ++ '@' :: c :: w')) = some n :=
        parenLength_go_prefix (a := '(' :: g) hn (by omega)
      have htake : ∀ z : List Char, ('(' :: (g ++ z)).take n = ('(' :: g).take n := fun z => by
        rw [← hX, List.take_append_of_le_length hng]
      have hdropn : ∀ z : List Char, ('(' :: (g ++ z)).drop n = ('(' :: g).drop n ++ z :=
        fun z => by rw [← hX, List.drop_append_of_le_length hng]
      refine ⟨('(' :: g).drop n, hdropn _, ?_⟩
      rw [scan_paren hn', @quotedCode_congr ⟨o, '(' :: (g ++ '@' :: c :: w)⟩
        ⟨o, '(' :: (g ++ '@' :: c :: w')⟩ _ rfl (by simp only [htake]), htake, htake, hdropn]
    · have hp : ((a :: g) ++ '@' :: c :: w).head? ≠ some '(' := by simp [ha]
      have hp' : ((a :: g) ++ '@' :: c :: w').head? ≠ some '(' := by simp [ha]
      obtain ⟨rule, n, hn, rfl, rfl⟩ := longest_of_scan (by simp) hp h
      have hng := hdrop n rfl
      have ⟨_, _, hall⟩ := longest_spec hn
      -- every rule's match ends within `g`, so each matches the same after grafting
      have hle : ∀ q ∈ Rule.standard, ∀ m, q.matchLength ((a :: g) ++ '@' :: c :: w) = some m →
          m ≤ (a :: g).length := by
        intro q hq m hm
        have := hall q hq m hm
        simp only [List.length_take, List.length_append, List.length_cons] at this hng ⊢
        omega
      have hlong : longest Rule.standard ((a :: g) ++ '@' :: c :: w') =
          longest Rule.standard ((a :: g) ++ '@' :: c :: w) :=
        longest_congr (fun q hq => Rule.matchLength_agree hq hc hg (hle q hq)) fun q hq m hm => by
          have := hle q hq m hm
          simp only [List.length_take, List.length_append, List.length_cons] at this ⊢
          omega
      refine ⟨(a :: g).drop n, List.drop_append_of_le_length hng, ?_⟩
      rw [scan_longest (by simp) hp' (hlong.trans hn), List.take_append_of_le_length hng,
        List.drop_append_of_le_length hng, List.take_append_of_le_length hng]

/-- At a renamed local the grafted text scans as one identifier, the local and the suffix. -/
theorem scan_graft {o : Nat} {name old new : List Char} (hname : Rule.IsName name)
    (hdelim : Rule.Delimits name old) (hg : Grafted s old new) :
    scan Rule.standard vocab ⟨o, ('@' :: name) ++ s.chars ++ new⟩ =
      .ok (some (Rule.wordToken vocab (String.ofList (('@' :: name) ++ s.chars))
          ⟨o, o + utf8Length (('@' :: name) ++ s.chars)⟩),
        ⟨o + utf8Length (('@' :: name) ++ s.chars), new⟩) := by
  set word := ('@' :: name) ++ s.chars with hword
  have hhead : ∀ d ∈ new.head?, Rule.isWordChar d = false := by
    rw [hg.head?_eq]
    exact hdelim.1
  have hwordChars : ∀ d ∈ word, Rule.isWordChar d = true := by
    intro d hd
    rcases List.mem_append.mp hd with hd | hd
    · rcases List.mem_cons.mp hd with rfl | hd
      · decide
      · exact Rule.isWordChar_of_isNameChar (hname.2 d hd)
    · exact s.isWordChar_chars d hd
  have hnil : ∀ {p : Char → Bool}, (∀ d ∈ new.head?, p d = false) → new.takeWhile p = [] := by
    intro p hp
    cases new with
    | nil => rfl
    | cons d r => simp [hp d rfl]
  have hrun : (word ++ new).takeWhile Rule.isWordChar = word := by
    rw [List.takeWhile_append_of_pos hwordChars, hnil hhead, List.append_nil]
  have hlen : 0 < word.length := by simp [hword]
  -- the identifier reads the local and the suffix; every earlier rule stops sooner
  have hlong : longest Rule.standard (word ++ new) = some (Rule.identifier, word.length) := by
    have hsplit : Rule.standard = [Rule.blank, Rule.lineComment, Rule.blockComment,
        Rule.doubleQuoted, Rule.singleQuoted, Rule.localName, Rule.boolean, Rule.number] ++
        [Rule.identifier] := rfl
    rw [hsplit]
    refine longest_last (by simp only [Rule.identifier, hrun, Rule.nonempty, if_neg hlen.ne']) hlen
      (by simp) ?_
    have htext : word ++ new = '@' :: (name ++ (s.chars ++ new)) := by simp [hword]
    rw [htext]
    intro q hq m hm
    simp only [List.mem_cons, List.not_mem_nil, or_false] at hq
    rcases hq with rfl | rfl | rfl | rfl | rfl | rfl | rfl | rfl
    · simp [Rule.blank, Rule.nonempty, show isBlank '@' = false by decide] at hm
    · cases name with
      | nil => exact absurd rfl hname.1
      | cons x name => simp [Rule.lineComment_matchLength] at hm
    · simp [Rule.blockComment_cons] at hm
    · simp [Rule.doubleQuoted_cons] at hm
    · simp [Rule.singleQuoted_cons] at hm
    · -- the local stops at the suffix's `@`
      have hstop : (name ++ (s.chars ++ new)).takeWhile Rule.isNameChar = name := by
        rw [List.takeWhile_append_of_pos hname.2, Suffix.chars_append,
          List.takeWhile_cons_of_neg (by decide), List.append_nil]
      rw [Rule.localName_cons, if_pos rfl, hstop] at hm
      simp only [Rule.nonempty, List.length_eq_zero_iff, hname.1, if_false, Option.map_some,
        Option.some.injEq] at hm
      subst hm
      simp [hword, Suffix.chars]
      omega
    · simp [Rule.boolean_matchLength] at hm
    · have : Rule.number.matchLength ('@' :: (name ++ (s.chars ++ new))) = none := by
        simp only [Rule.number]
        rw [← Rule.numberLength_takeWhile, List.takeWhile_cons_of_neg (by decide)]
        rfl
      rw [this] at hm
      cases hm
  have hp : (word ++ new).head? ≠ some '(' := by simp [hword]
  rw [scan_longest (by simp [hword]) hp hlong, List.take_left' rfl, List.drop_left' rfl,
    Rule.identifier_build]

/-- Quoted code whose contents were grafted scans as quoted code holding the grafted contents. -/
theorem scan_code {o : Nat} {inner inner' rest rest' : List Char} (hg : Grafted s inner inner')
    (hp : parenLength ('(' :: inner ++ ')' :: rest) = some (inner.length + 2)) :
    scan Rule.standard vocab ⟨o, '(' :: inner' ++ ')' :: rest'⟩ =
      .ok (some
          { kind := .symbol, value := .string (String.ofList inner'),
            span := some ⟨o + 1, o + 1 + utf8Length inner'⟩, tags := Tags.quoted },
        ⟨o + utf8Length ('(' :: inner' ++ [')']), rest'⟩) := by
  -- the close is the same `)`, moved by the length of the grafts
  have hgo : parenLength.go (inner ++ ')' :: rest) 1 1 = some (inner.length + 2) := by
    simpa [parenLength, parenLength.go] using hp
  have hgo' : parenLength.go (inner ++ [')'] ++ rest') 1 1 = some (inner.length + 2) :=
    parenLength_go_prefix (a := inner ++ [')']) (by simpa using hgo) (by simp; omega)
  have hp' : parenLength ('(' :: inner' ++ ')' :: rest') = some (inner'.length + 2) := by
    have := hg.parenLength_go (')' :: rest') (by simpa using hgo') (by omega)
    simp only [parenLength, List.cons_append, parenLength.go, if_true]
    simp only [if_neg (show (0 : Nat) + 1 ≠ 0 by omega)]
    rw [this]
    congr 1
    omega
  have htake : ('(' :: inner' ++ ')' :: rest').take (inner'.length + 2) = '(' :: inner' ++ [')'] := by
    simp [List.take_append, List.take_of_length_le]
  have hdrop : ('(' :: inner' ++ ')' :: rest').drop (inner'.length + 2) = rest' := by
    simp [List.drop_append]
  rw [List.cons_append, scan_paren (by simpa using hp'), ← List.cons_append, htake, hdrop]
  simp only [quotedCode, htake]
  simp only [List.cons_append, List.drop_succ_cons, List.drop_zero, List.dropLast_concat]

end Scan

namespace Scan

variable {vocab : Vocabulary} {s : Suffix}

/-- Scans that make no token, from one cursor to another. -/
inductive Skips (vocab : Vocabulary) : Cursor → Cursor → Prop
  | refl (c : Cursor) : Skips vocab c c
  | step {c c₁ c₂ : Cursor} : c.rest ≠ [] → scan Rule.standard vocab c = .ok (none, c₁) →
      Skips vocab c₁ c₂ → Skips vocab c c₂

theorem Skips.length_le {c c₀ : Cursor} (h : Skips vocab c c₀) :
    c₀.rest.length ≤ c.rest.length := by
  induction h with
  | refl => exact Nat.le_refl _
  | step hne hs _ ih => exact Nat.le_trans ih (Nat.le_of_lt (scan_rest_length hne hs))

theorem Skips.shift {c c₀ : Cursor} (h : Skips vocab c c₀) (d : Nat) :
    Skips vocab ⟨c.offset + d, c.rest⟩ ⟨c₀.offset + d, c₀.rest⟩ := by
  induction h with
  | refl c => exact .refl _
  | step hne hs _ ih => exact .step hne (scan_shift hs d) ih

theorem next_of_skips {c c₀ c₁ : Cursor} {t : Token} (hs : Skips vocab c c₀)
    (hne : c₀.rest ≠ []) (h : scan Rule.standard vocab c₀ = .ok (some t, c₁)) :
    next Rule.standard vocab c = .ok (some (t, c₁)) := by
  induction hs with
  | refl c => exact next_of_scan_some hne h
  | step hne' hs' _ ih =>
    rw [next_of_scan_none hne' hs']
    exact ih hne h

theorem skips_of_next {c c₁ : Cursor} {t : Token}
    (h : next Rule.standard vocab c = .ok (some (t, c₁))) :
    ∃ c₀, Skips vocab c c₀ ∧ c₀.rest ≠ [] ∧
      scan Rule.standard vocab c₀ = .ok (some t, c₁) := by
  induction c using next.induct Rule.standard vocab with
  | case1 c hne =>
    rw [next, dif_pos hne] at h
    cases h
  | case2 c hne e hs => rw [next_of_scan_error hne hs] at h; cases h
  | case3 c hne t' c'' hs =>
    rw [next_of_scan_some hne hs] at h
    cases h
    exact ⟨c, .refl c, hne, hs⟩
  | case4 c hne c'' hs ih =>
    rw [next_of_scan_none hne hs] at h
    obtain ⟨c₀, hsk, hne₀, hsc⟩ := ih h
    exact ⟨c₀, .step hne hs hsk, hne₀, hsc⟩

/-- Text without tokens stays without tokens further on. -/
theorem next_none_shift {c : Cursor} (h : next Rule.standard vocab c = .ok none) (d : Nat) :
    next Rule.standard vocab ⟨c.offset + d, c.rest⟩ = .ok none := by
  induction c using next.induct Rule.standard vocab with
  | case1 c hne =>
    rw [next, dif_pos hne]
  | case2 c hne e hs => rw [next_of_scan_error hne hs] at h; cases h
  | case3 c hne t' c'' hs => rw [next_of_scan_some hne hs] at h; cases h
  | case4 c hne c'' hs ih =>
    rw [next_of_scan_none hne hs] at h
    -- the skipped text is skipped further on too, and the search goes on from there
    have hs' : scan Rule.standard vocab ⟨c.offset + d, c.rest⟩ =
        .ok (none, ⟨c''.offset + d, c''.rest⟩) := scan_shift hs d
    rw [next_of_scan_none (show (⟨c.offset + d, c.rest⟩ : Cursor).rest ≠ [] from hne) hs']
    exact ih h

theorem next_shift {c c₁ : Cursor} {t : Token} (h : next Rule.standard vocab c = .ok (some (t, c₁)))
    (d : Nat) :
    next Rule.standard vocab ⟨c.offset + d, c.rest⟩ =
      .ok (some (t.shift d, ⟨c₁.offset + d, c₁.rest⟩)) := by
  obtain ⟨c₀, hsk, hne, hsc⟩ := skips_of_next h
  exact next_of_skips (hsk.shift d) hne (scan_shift hsc d)

theorem Skips.agree {c c₀ : Cursor} (h : Skips vocab c c₀) {g w w' : List Char} {x : Char}
    (hx : Rule.isNameChar x = true) (hg : Grafted s ('@' :: x :: w) ('@' :: x :: w'))
    (hc : c.rest = g ++ '@' :: x :: w) (hlen : w.length + 2 ≤ c₀.rest.length) :
    ∃ r, c₀.rest = r ++ '@' :: x :: w ∧
      Skips vocab ⟨c.offset, g ++ '@' :: x :: w'⟩ ⟨c₀.offset, r ++ '@' :: x :: w'⟩ := by
  induction h generalizing g with
  | refl c => exact ⟨g, hc, .refl _⟩
  | @step c c₁ c₂ hne hs hrest ih =>
    have hs₀ : scan Rule.standard vocab ⟨c.offset, g ++ '@' :: x :: w⟩ = .ok (none, c₁) := by
      rw [← hc]
      exact hs
    obtain ⟨r₁, hr₁, hs'⟩ := scan_agree hx hg hs₀ (Nat.le_trans hlen hrest.length_le)
    obtain ⟨r, hr, hsk⟩ := ih hr₁ hlen
    exact ⟨r, hr, .step (by simp) hs' hsk⟩

/-- A token found before any graft is found the same on the grafted text. -/
theorem next_keep {o o₁ d : Nat} {pre rest rest' : List Char} {t : Token}
    (h : next Rule.standard vocab ⟨o, pre ++ rest⟩ = .ok (some (t, ⟨o₁, rest⟩)))
    (hg : Grafted s rest rest') :
    next Rule.standard vocab ⟨o + d, pre ++ rest'⟩ =
      .ok (some (t.shift d, ⟨o₁ + d, rest'⟩)) := by
  rcases hg.split with rfl | ⟨g, x, w, w', rfl, rfl, hx, hg'⟩
  · exact next_shift h d
  · obtain ⟨c₀, hsk, hne, hsc⟩ := skips_of_next h
    have hlen₀ : w.length + 2 ≤ c₀.rest.length := by
      have := scan_rest_length hne hsc
      simp only [List.length_append, List.length_cons] at this
      omega
    obtain ⟨r₀, hr₀, hsk'⟩ := hsk.agree hx hg' (g := pre ++ g) (by simp) hlen₀
    have hsc₀ : scan Rule.standard vocab ⟨c₀.offset, r₀ ++ '@' :: x :: w⟩ =
        .ok (some t, ⟨o₁, g ++ '@' :: x :: w⟩) := by
      rw [← hr₀]
      exact hsc
    obtain ⟨r₁, hr₁, hsc'⟩ := scan_agree hx hg' hsc₀ (by simp)
    obtain rfl : r₁ = g := List.append_cancel_right hr₁.symm
    have := next_of_skips hsk' (by simp) hsc'
    simpa using next_shift this d

/-- At a renamed local, the grafted text gives one identifier for the local and the suffix. -/
theorem next_graft {o o₀ d : Nat} {pre name old new : List Char}
    (hsk : Skips vocab ⟨o, pre ++ ('@' :: name) ++ old⟩ ⟨o₀, ('@' :: name) ++ old⟩)
    (hname : Rule.IsName name) (hdelim : Rule.Delimits name old) (hg : Grafted s old new) :
    next Rule.standard vocab ⟨o + d, pre ++ ('@' :: name) ++ s.chars ++ new⟩ =
      .ok (some (Rule.wordToken vocab (String.ofList (('@' :: name) ++ s.chars))
          ⟨o₀ + d, o₀ + d + utf8Length (('@' :: name) ++ s.chars)⟩,
        ⟨o₀ + d + utf8Length (('@' :: name) ++ s.chars), new⟩)) := by
  obtain ⟨x, name', rfl⟩ := List.exists_cons_of_ne_nil hname.1
  have hg' : Grafted s ('@' :: x :: (name' ++ old)) ('@' :: x :: (name' ++ s.chars ++ new)) := by
    simpa using Grafted.graft hname hdelim hg
  obtain ⟨r₀, hr₀, hsk'⟩ := hsk.agree (g := pre) (hname.2 x (by simp)) hg' (by simp) (by simp)
  obtain rfl : r₀ = [] := by simpa using hr₀
  have hsk'' := hsk'.shift d
  simp only [List.nil_append] at hsk''
  refine next_of_skips (by simpa using hsk'') (by simp) ?_
  simpa using @scan_graft vocab s (o₀ + d) _ _ _ hname hdelim hg

/-- Quoted code whose contents were grafted gives one quoted-code token holding them. -/
theorem next_code {o o₀ d : Nat} {pre inner inner' rest rest' : List Char}
    (hsk : Skips vocab ⟨o, pre ++ '(' :: (inner ++ ')' :: rest)⟩
      ⟨o₀, '(' :: (inner ++ ')' :: rest)⟩)
    (hp : parenLength ('(' :: (inner ++ ')' :: rest)) = some (inner.length + 2))
    (hg : Grafted s inner inner') (hrest : Grafted s rest rest') :
    next Rule.standard vocab ⟨o + d, pre ++ '(' :: (inner' ++ ')' :: rest')⟩ =
      .ok (some
        ({ kind := .symbol, value := .string (String.ofList inner'),
           span := some ⟨o₀ + d + 1, o₀ + d + 1 + utf8Length inner'⟩, tags := Tags.quoted },
         ⟨o₀ + d + utf8Length ('(' :: inner' ++ [')']), rest'⟩)) := by
  have hall : Grafted s ('(' :: (inner ++ ')' :: rest)) ('(' :: (inner' ++ ')' :: rest')) :=
    .keep '(' (hg.append (.keep ')' hrest) (by simp; decide))
  -- the skipped text before the code is the same on both sides
  have hsk' : Skips vocab ⟨o, pre ++ '(' :: (inner' ++ ')' :: rest')⟩
      ⟨o₀, '(' :: (inner' ++ ')' :: rest')⟩ := by
    rcases hall.split with heq | ⟨g, x, w, w', hw, hw', hx, hg'⟩
    · rw [heq]
      exact hsk
    · obtain ⟨r₀, hr₀, hsk'⟩ := hsk.agree (g := pre ++ g) hx hg' (by simp [hw]) (by simp [hw])
      obtain rfl : r₀ = g := List.append_cancel_right (hr₀.symm.trans hw)
      simpa [hw'] using hsk'
  exact next_of_skips (by simpa using hsk'.shift d) (by simp) (scan_code hg hp)

end Scan

end Concatenative
