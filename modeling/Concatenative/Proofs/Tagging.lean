import Concatenative.Proofs.Pointing

/-!
# What the stack and the registers hold

Tokens of three kinds come out of the scanner, but only one kind ever reaches the stack: a
symbol is pushed, an operator token is invoked and a local is renamed away or refused. The
tags a symbol carries follow its value: a number carries the number tag alone, a boolean the
boolean tag alone, and a string the string tag, with the code tag too when it is quoted code
(`Tags.fits`). Operators make symbols tagged by their type (`Token.symbol`) and otherwise only
move, copy and store tokens they were given, so the stack, the registers and the code of
defined operators hold such values and nothing else, in every machine a session reaches.

## Main results

* `Scan.next_isValue` — every symbol the scanner makes is a value.
* `Machine.Reachable.holds_values` — a reachable machine holds values only, on its stack, in
  its registers and as the code of its defined operators.
* `stack_and_registers_hold_values` — the stack and the registers of every machine a session
  reaches hold symbols whose tags agree with their values.
-/

namespace Concatenative

-- ---------------------------------------------------------------------------
-- Values
-- ---------------------------------------------------------------------------

/-- Whether tags agree with a value: a number carries the number tag alone, a boolean the
boolean tag alone, and a string the string tag, with the code tag when it is quoted code. -/
def Tags.fits (tags : Tags) : Value → Bool
  | .number _ => tags == { number := true }
  | .boolean _ => tags == { boolean := true }
  | .string _ => tags == { string := true } || tags == Tags.quoted

/-- A token that is a value: a symbol whose tags agree with its value. -/
def Token.IsValue (t : Token) : Prop :=
  t.kind = .symbol ∧ t.tags.fits t.value = true

instance (t : Token) : Decidable t.IsValue :=
  inferInstanceAs (Decidable (_ ∧ _))

namespace Token

/-- What an operator makes is a value. -/
theorem symbol_isValue (v : Value) : (Token.symbol v).IsValue := by
  refine ⟨rfl, ?_⟩
  cases v <;> rfl

example : (Token.symbol (.boolean true)).IsValue ∧ ¬(Token.operator "dup").IsValue := by
  decide

end Token

-- ---------------------------------------------------------------------------
-- The scanner makes values
-- ---------------------------------------------------------------------------

namespace Rule

/-- A standard rule that builds a symbol builds a value: strings, booleans and numbers carry
their own tag; identifiers that are no operator are strings. -/
theorem standard_build_isValue {r : Rule} (hr : r ∈ standard) {cs : List Char} {span : Span}
    {vocab : Vocabulary} {t : Token} (h : r.build cs span vocab = some t)
    (hk : t.kind = .symbol) : t.IsValue := by
  rcases standard_build_cases hr h with ⟨s, -, rfl⟩ | ⟨-, rfl⟩ | rfl | rfl | rfl
  · exact ⟨rfl, rfl⟩
  · -- a local is no symbol
    cases hk
  · exact ⟨rfl, rfl⟩
  · exact ⟨rfl, rfl⟩
  · -- nor is an operator
    cases hk

end Rule

namespace Scan

variable {v : Vocabulary} {c c' : Cursor} {t : Token}

theorem quotedCode_isValue (c : Cursor) (n : Nat) : (quotedCode c n).IsValue :=
  ⟨rfl, rfl⟩

theorem scan_isValue (h : scan Rule.standard v c = .ok (some t, c')) (hk : t.kind = .symbol) :
    t.IsValue := by
  unfold scan at h
  split at h
  · cases h
  · split at h
    · cases h
    · -- quoted code
      simp only [Except.ok.injEq, Prod.mk.injEq, Option.some.injEq] at h
      rw [← h.1]
      exact quotedCode_isValue c _
  · split at h
    · cases h
    · rename_i rule n hn
      simp only [Except.ok.injEq, Prod.mk.injEq] at h
      exact Rule.standard_build_isValue (longest_spec hn).1 h.1 hk

/-- Every symbol the scanner makes is a value. -/
theorem next_isValue (h : next Rule.standard v c = .ok (some (t, c'))) (hk : t.kind = .symbol) :
    t.IsValue := by
  induction c using next.induct Rule.standard v with
  | case1 c hne =>
    rw [next, dif_pos hne] at h
    cases h
  | case2 c hne e hs =>
    rw [next_of_scan_error hne hs] at h
    cases h
  | case3 c hne t' c₁ hs =>
    rw [next_of_scan_some hne hs] at h
    simp only [Except.ok.injEq, Option.some.injEq, Prod.mk.injEq] at h
    obtain ⟨rfl, rfl⟩ := h
    exact scan_isValue hs hk
  | case4 c hne c₁ hs ih =>
    rw [next_of_scan_none hne hs] at h
    exact ih h

end Scan

/-- Placing a scanned token in the program moves its span and origin only. -/
theorem Evaluation.place_isValue (edits : Edits) (origin : Origin) {t : Token}
    (ht : t.IsValue) : (Evaluation.place edits origin t).IsValue := by
  unfold Evaluation.place
  split <;> exact ht

-- ---------------------------------------------------------------------------
-- Evaluation keeps values on the stack and in the registers
-- ---------------------------------------------------------------------------

namespace Evaluation.Invariant

/-- The machine holds values only: on its stack, in its registers, and as the code of its
defined operators, from which `define-op` and `alias-op` fill the table. -/
def holdsValues : Invariant where
  machine m := (∀ t ∈ m.stack.toList, t.IsValue) ∧
    (∀ name t, m.memory.get? name = some t → t.IsValue) ∧
    ∀ name op, m.ops.get? name = some op → ∀ code, op.behaviour = .defined code → code.IsValue
  token t := t.IsValue
  caller _ := True
  text _ _ := True
  allowed _ := True
  stack _ hm := hm.1
  restack _ _ hm hs := ⟨hs, hm.2⟩
  load _ name t hm h := hm.2.1 name t h
  store _ name _ hm ht := ⟨hm.1, Directory.forall_get?_insert hm.2.1 name ht, hm.2.2⟩
  forget _ name hm := ⟨hm.1, Directory.forall_get?_erase hm.2.1 name, hm.2.2⟩
  code _ name op code hm h hb := hm.2.2 name op h code hb
  install _ name _ hm hop := ⟨hm.1, hm.2.1, Directory.forall_get?_insert hm.2.2 name hop⟩
  remove _ name hm := ⟨hm.1, hm.2.1, Directory.forall_get?_erase hm.2.2 name⟩
  print _ _ hm := hm
  count _ hm := hm
  symbol v := Token.symbol_isValue v
  caller_of_token _ _ := trivial
  named _ _ := trivial
  source _ _ := trivial
  fault _ _ _ := trivial
  hygiene_error _ _ _ _ _ _ _ := trivial
  scan_error _ _ _ _ _ _ _ _ _ _ _ _ _ := trivial
  placed _ _ _ o _ E _ _ _ _ _ _ _ hn :=
    ⟨trivial, fun hk => place_isValue E o (Scan.next_isValue hn hk)⟩

/-- A fresh machine holds no token, and its table no defined code. -/
theorem holdsValues_fresh : holdsValues.machine {} :=
  Machine.fresh_tokens Token.IsValue

end Evaluation.Invariant

/-- Every machine a session reaches holds values only, on its stack, in its registers and as the
code of its defined operators. -/
theorem Machine.Reachable.holds_values {m : Machine} (h : m.Reachable) :
    Evaluation.Invariant.holdsValues.machine m :=
  (h.holds Evaluation.Invariant.holdsValues_fresh fun _ => trivial).2

/-- In every machine a session reaches, whatever programs it entered and whether they failed,
the stack and the registers hold symbols only, never an operator token or a local, and each
carries the tags of its value: the number tag alone on a number, the boolean tag alone on a
boolean, and the string tag on a string, with the code tag when it is quoted code. -/
theorem stack_and_registers_hold_values {m : Machine} (h : m.Reachable) :
    (∀ t ∈ m.stack.toList, t.kind = .symbol ∧ t.tags.fits t.value = true) ∧
      ∀ name t, m.memory.get? name = some t → t.kind = .symbol ∧ t.tags.fits t.value = true :=
  ⟨h.holds_values.1, h.holds_values.2.1⟩

/-- A program that stores a number under a name and leaves a boolean on the stack leaves a
machine that holds values. -/
theorem values_after_storing :
    Machine.Reachable (({} : Machine).enter "1 'x store true").2 ∧
      (∀ t ∈ (({} : Machine).enter "1 'x store true").2.stack.toList,
          t.kind = .symbol ∧ t.tags.fits t.value = true) ∧
        ∀ name t, (({} : Machine).enter "1 'x store true").2.memory.get? name = some t →
          t.kind = .symbol ∧ t.tags.fits t.value = true :=
  have h : Machine.Reachable (({} : Machine).enter "1 'x store true").2 := .enter _ .fresh
  ⟨h, stack_and_registers_hold_values h⟩

end Concatenative
