import Concatenative.Proofs.Running
import Concatenative.Proofs.Tagging

/-!
# Packing the stack and running it back

`pack` replaces the stack by one string, the texts of its items joined by blanks, a string
written in parentheses (`Token.serialize`), and `eval` runs a string as a program. One after
the other they give the stack back when the text of each item scans back to it
(`Value.Packable`): a boolean; a finite number whose text reads back to it; a string balanced in
parentheses, whose text is then one quoted code. A number is written as positional digits with
a minus sign when negative (`Spelling.render_numberText`), which the number rule reads whole
and which no other rule reads further; that reading the digits gives back the number itself is
a property of the decimal conversions, which are opaque here, so it is a hypothesis on each
number. Strings come back as quoted code, and no token keeps a span.

The words `pack` and `eval` have to name their built-ins for this: after `'eval del-op` the
word `eval` is a string, and `pack eval` leaves the packed text and that string.

## Main results

* `Scan.tokens_go_packed` — the packed text of packable values scans to one token for each,
  giving it back.
* `pack_eval_restores` — on every reachable machine whose items are packable and whose table
  holds the built-ins under `pack` and `eval`, `pack eval` gives back the items and changes
  nothing else but the counter.
* `pack_eval_after_deleting_eval` — with `eval` deleted, `pack eval` does not restore the stack.
-/

namespace Concatenative

/-- Text of a number laid out positionally: digits, with a point and more digits when there is
a fraction. -/
inductive Positional : List Char → Prop
  | whole {ds : List Char} : ds ≠ [] → (∀ c ∈ ds, c.isDigit = true) → Positional ds
  | fraction {ds fs : List Char} : ds ≠ [] → fs ≠ [] → (∀ c ∈ ds, c.isDigit = true) →
      (∀ c ∈ fs, c.isDigit = true) → Positional (ds ++ '.' :: fs)

namespace Positional

variable {cs : List Char}

theorem isNumberChar (h : Positional cs) : ∀ c ∈ cs, Rule.isNumberChar c = true := by
  cases h with
  | whole _ hds => exact fun c hc => Rule.isNumberChar_of_isDigit (hds c hc)
  | fraction _ _ hds hfs =>
    intro c hc
    simp only [List.mem_append, List.mem_cons] at hc
    rcases hc with hc | rfl | hc
    · exact Rule.isNumberChar_of_isDigit (hds c hc)
    · rfl
    · exact Rule.isNumberChar_of_isDigit (hfs c hc)

/-- Positional text starts with a digit. -/
theorem head_isDigit (h : Positional cs) : ∃ c r, cs = c :: r ∧ c.isDigit = true := by
  cases h with
  | whole hne hds =>
    obtain ⟨c, r, rfl⟩ := List.exists_cons_of_ne_nil hne
    exact ⟨c, r, rfl, hds c (List.mem_cons_self ..)⟩
  | fraction hne _ hds _ =>
    obtain ⟨c, r, rfl⟩ := List.exists_cons_of_ne_nil hne
    exact ⟨c, r ++ '.' :: _, rfl, hds c (List.mem_cons_self ..)⟩

end Positional

namespace Rule

theorem takeWhile_isDigit_of_all {ds : List Char} (h : ∀ c ∈ ds, c.isDigit = true) :
    ds.takeWhile Char.isDigit = ds :=
  List.takeWhile_eq_self_iff.mpr h

/-- The number rule reads all of positional text, after a sign of length `sign`. -/
theorem unsignedLength_positional {cs : List Char} (h : Positional cs) (sign : Nat) :
    unsignedLength sign cs = some (sign + cs.length) := by
  cases h with
  | whole hne hds =>
    have hw : (cs.takeWhile Char.isDigit).length = cs.length := by
      rw [takeWhile_isDigit_of_all hds]
    have hpos : cs.length ≠ 0 := by simpa using hne
    simp only [unsignedLength, hw, List.drop_length, fractionLength, nonempty, hpos, if_false,
      Option.map_some, exponentLength, Nat.add_zero]
  | @fraction ds fs hne hfne hds hfs =>
    have hw : ((ds ++ '.' :: fs).takeWhile Char.isDigit).length = ds.length := by
      rw [takeWhile_append_stop (by simp), takeWhile_isDigit_of_all hds]
    have hf : (fs.takeWhile Char.isDigit).length = fs.length := by
      rw [takeWhile_isDigit_of_all hfs]
    have hfpos : fs.length ≠ 0 := by simpa using hfne
    have hend : (ds ++ '.' :: fs).drop (ds.length + 1 + fs.length) = [] := by
      simp only [List.drop_eq_nil_iff, List.length_append, List.length_cons]
      omega
    simp only [unsignedLength, hw, List.drop_left, fractionLength, hf, hfpos, if_false,
      Option.map_some, hend, exponentLength, Nat.add_zero, List.length_append, List.length_cons]
    congr 1
    omega

end Rule

theorem Decimal.positional_text (d : Decimal) : Positional d.positional.toList := by
  have hds : ∀ c ∈ Nat.toDigits 10 d.digits, c.isDigit = true :=
    fun c hc => Nat.isDigit_of_mem_toDigits (by decide) (by decide) hc
  have hne : Nat.toDigits 10 d.digits ≠ [] := List.ne_nil_of_length_pos Nat.length_toDigits_pos
  unfold Decimal.positional
  dsimp only
  split_ifs with h1 h2
  · -- a point, zeros, then the digits
    rw [String.toList_ofList]
    show Positional (['0'] ++ '.' :: (List.replicate _ '0' ++ _))
    refine Positional.fraction (by simp) (by simp [hne])
      (fun c hc => by rw [List.mem_singleton.mp hc]; rfl) ?_
    intro c hc
    rcases List.mem_append.mp hc with hc | hc
    · rw [List.eq_of_mem_replicate hc]
      rfl
    · exact hds c hc
  · -- the point among the digits
    rw [String.toList_ofList]
    refine Positional.fraction ?_ ?_ (fun c hc => hds c (List.mem_of_mem_take hc))
      (fun c hc => hds c (List.mem_of_mem_drop hc))
    · simp only [ne_eq, List.take_eq_nil_iff, hne, or_false]
      omega
    · simp only [ne_eq, List.drop_eq_nil_iff, not_le]
      omega
  · -- the digits, then zeros
    rw [String.toList_ofList]
    refine Positional.whole (by simp [hne]) ?_
    intro c hc
    rcases List.mem_append.mp hc with hc | hc
    · exact hds c hc
    · rw [List.eq_of_mem_replicate hc]
      rfl

theorem Binary64.isNaN_of_isFinite {x : Binary64} (h : x.isFinite = true) : x.isNaN = false := by
  simp only [Binary64.isFinite, bne_iff_ne, ne_eq] at h
  simp [Binary64.isNaN, h]

/-- Text of a number: positional text, with a minus sign before it when negative. -/
def NumberText (p : List Char) : Prop :=
  ∃ body, Positional body ∧ (p = body ∨ p = '-' :: body)

theorem Spelling.render_numberText {x : Binary64} (hx : x.isFinite = true) :
    NumberText (Spelling.value.render x).toList := by
  have hnan := Binary64.isNaN_of_isFinite hx
  by_cases hz : x.isZero = true
  · -- zero is written `0`, whatever its sign
    have h0 : Spelling.value.render x = "0" := by
      simp [Spelling.render, Spelling.value, hnan, hx, hz]
    exact ⟨['0'], .whole (by simp) (fun c hc => by rw [List.mem_singleton.mp hc]; rfl),
      .inl (by rw [h0]; decide)⟩
  · refine ⟨_, Decimal.positional_text x.interval.shortest, ?_⟩
    cases hn : x.negative
    · left
      simp [Spelling.render, hnan, hx, hz, hn]
    · right
      simp [Spelling.render, hnan, hx, hz, hn]

theorem NumberText.isNumberChar {p : List Char} (h : NumberText p) :
    ∀ c ∈ p, Rule.isNumberChar c = true := by
  obtain ⟨body, hb, rfl | rfl⟩ := h
  · exact hb.isNumberChar
  · intro c hc
    rcases List.mem_cons.mp hc with rfl | hc
    · rfl
    · exact hb.isNumberChar c hc

/-- Number text starts with a digit or a minus sign. -/
theorem NumberText.head {p : List Char} (h : NumberText p) :
    ∃ a r, p = a :: r ∧ (a.isDigit = true ∨ a = '-') := by
  obtain ⟨body, hb, rfl | rfl⟩ := h
  · obtain ⟨a, r, rfl, ha⟩ := hb.head_isDigit
    exact ⟨a, r, rfl, .inl ha⟩
  · exact ⟨'-', body, rfl, .inr rfl⟩

namespace Rule

/-- The number rule reads all of a number's text, up to a character that no number holds. -/
theorem numberLength_numberText {p z : List Char} (hp : NumberText p)
    (hz : ∀ c ∈ z.head?, isNumberChar c = false) : numberLength (p ++ z) = some p.length := by
  rw [← numberLength_takeWhile, takeWhile_append_stop hz,
    List.takeWhile_eq_self_iff.mpr hp.isNumberChar, numberLength_eq]
  obtain ⟨body, hb, rfl | rfl⟩ := hp
  · obtain ⟨a, r, rfl, ha⟩ := hb.head_isDigit
    have hplus : a ≠ '+' := fun h => by subst h; exact absurd ha (by decide)
    have hminus : a ≠ '-' := fun h => by subst h; exact absurd ha (by decide)
    rw [signOf_other (by simp [hplus]) (by simp [hminus]), unsignedLength_positional hb, Nat.zero_add]
  · rw [show signOf ('-' :: body) = (1, body) from rfl, unsignedLength_positional hb,
      List.length_cons, Nat.add_comm]

end Rule

/-- A character a number's text starts with opens nothing but a number. -/
theorem numberStart_marks {a : Char} (ha : a.isDigit = true ∨ a = '-') :
    isBlank a = false ∧ a ≠ '(' ∧ a ≠ '/' ∧ a ≠ '"' ∧ a ≠ '\'' ∧ a ≠ '@' ∧ a ≠ 't' ∧ a ≠ 'f' := by
  rcases ha with ha | rfl
  · have hne : ∀ b : Char, b.isDigit = false → a ≠ b := fun b hb h => by
      subst h
      simp_all
    exact ⟨Rule.isBlank_of_isDigit ha, hne _ rfl, hne _ rfl, hne _ rfl, hne _ rfl, hne _ rfl,
      hne _ rfl, hne _ rfl⟩
  · decide

namespace Value

/-- A value whose packed text scans back to it: a boolean; a finite number whose text reads
back to it; a string balanced in parentheses. -/
def Packable : Value → Prop
  | .number x => x.isFinite = true ∧ (Literal.read (Spelling.value.render x).toList).value = x
  | .boolean _ => True
  | .string s => Balanced s.toList

instance (v : Value) : Decidable v.Packable :=
  match v with
  | .number _ => inferInstanceAs (Decidable (_ ∧ _))
  | .boolean _ => inferInstanceAs (Decidable True)
  | .string s => inferInstanceAs (Decidable (Balanced s.toList))

/-- The tags a value comes back with when its packed text is scanned: a string comes back as
quoted code, anything else with the tag of its type. -/
def unpackedTags : Value → Tags
  | .string _ => Tags.quoted
  | v => Tags.ofValue v

end Value

/-- `t` is what scanning the packed text of `v` gives back: a symbol with `v`'s value and the
tags of that value's text. -/
def Token.Unpacks (v t : Token) : Prop :=
  t.kind = .symbol ∧ t.value = v.value ∧ t.tags = v.value.unpackedTags

/-- The identifier rule reads no further than a blank. -/
theorem Rule.identifier_le_of_blank {w z : List Char} (hz : ∀ c ∈ z.head?, c = ' ') {m : Nat}
    (h : Rule.identifier.matchLength (w ++ z) = some m) : m ≤ w.length := by
  have hstop : (w ++ z).takeWhile Rule.isWordChar = w.takeWhile Rule.isWordChar :=
    Rule.takeWhile_append_stop fun c hc => by rw [hz c hc]; rfl
  simp only [Rule.identifier, hstop, Rule.nonempty] at h
  split_ifs at h
  cases h
  exact (List.takeWhile_sublist _).length_le

namespace Scan

variable {v : Vocabulary} {o : Nat}

/-- A number's text before a blank or the end is one number token, read from that text. -/
theorem next_number {p z : List Char} (hp : NumberText p) (hz : ∀ c ∈ z.head?, c = ' ') :
    next Rule.standard v ⟨o, p ++ z⟩ =
      .ok (some (
        { kind := .symbol, value := .number (Literal.read p).value,
          span := some ⟨o, o + utf8Length p⟩, tags := { number := true } },
        ⟨o + utf8Length p, z⟩)) := by
  obtain ⟨a, r, hpa, ha⟩ := hp.head
  obtain ⟨hb, hparen, h1, h2, h3, h4, ht, hf⟩ := numberStart_marks ha
  -- a number's first character opens no blank, comment, quote, local or boolean
  have hpre : ∀ q ∈ [Rule.blank, Rule.lineComment, Rule.blockComment, Rule.doubleQuoted,
      Rule.singleQuoted, Rule.localName, Rule.boolean], q.matchLength (p ++ z) = none := by
    rw [hpa, List.cons_append]
    intro q hq
    rcases List.mem_cons.mp hq with rfl | hq
    · exact Rule.blank_cons _ hb
    rcases List.mem_append.mp (show q ∈ [Rule.lineComment, Rule.blockComment, Rule.doubleQuoted,
        Rule.singleQuoted, Rule.localName] ++ [Rule.boolean] from hq) with hq | hq
    · exact Rule.marked_none _ h1 h2 h3 h4 q hq
    · rw [List.mem_singleton.mp hq]
      exact Rule.boolean_cons _ ht hf
  -- the identifier rule stops at the blank after the number
  have hpost : ∀ q ∈ [Rule.identifier], ∀ m, q.matchLength (p ++ z) = some m → m ≤ p.length := by
    simp only [List.mem_singleton, forall_eq]
    exact fun m => Rule.identifier_le_of_blank hz
  have hlen : 0 < p.length := by simp [hpa]
  have hlong : longest ([Rule.blank, Rule.lineComment, Rule.blockComment, Rule.doubleQuoted,
      Rule.singleQuoted, Rule.localName, Rule.boolean] ++ Rule.number :: [Rule.identifier])
      (p ++ z) = some (Rule.number, p.length) :=
    longest_winner (Rule.numberLength_numberText hp fun c hc => by rw [hz c hc]; rfl) hlen
      (by simp) hpre hpost
  have hscan : scan Rule.standard v ⟨o, p ++ z⟩ = _ :=
    scan_longest (by simp [hpa]) (by simp [hpa, hparen]) hlong
  rw [List.take_left, List.drop_left] at hscan
  exact next_of_scan_some (by simp [hpa]) hscan

/-- `true` or `false` before a blank or the end is a boolean token. -/
theorem next_boolean (b : Bool) {z : List Char} (hz : ∀ c ∈ z.head?, c = ' ') :
    next Rule.standard v ⟨o, (Value.boolean b).text.toList ++ z⟩ =
      .ok (some (
        { kind := .symbol, value := .boolean b,
          span := some ⟨o, o + utf8Length (Value.boolean b).text.toList⟩,
          tags := { boolean := true } },
        ⟨o + utf8Length (Value.boolean b).text.toList, z⟩)) := by
  have hpost : ∀ q ∈ [Rule.number, Rule.identifier], ∀ m,
      q.matchLength ((Value.boolean b).text.toList ++ z) = some m →
        m ≤ (Value.boolean b).text.toList.length := by
    simp only [List.mem_cons, List.not_mem_nil, or_false]
    rintro q (rfl | rfl) m hm
    · -- a boolean's first letter starts no number
      cases b <;> cases hm
    · exact Rule.identifier_le_of_blank hz hm
  have hpre : ∀ q ∈ [Rule.blank, Rule.lineComment, Rule.blockComment, Rule.doubleQuoted,
      Rule.singleQuoted, Rule.localName], q.matchLength ((Value.boolean b).text.toList ++ z) = none := by
    simp only [List.mem_cons, List.not_mem_nil, or_false]
    rintro q (rfl | rfl | rfl | rfl | rfl | rfl) <;> cases b <;> rfl
  have hlong : longest ([Rule.blank, Rule.lineComment, Rule.blockComment, Rule.doubleQuoted,
      Rule.singleQuoted, Rule.localName] ++ Rule.boolean :: [Rule.number, Rule.identifier])
      ((Value.boolean b).text.toList ++ z) = some (Rule.boolean, (Value.boolean b).text.toList.length) :=
    longest_winner (by cases b <;> rfl) (by cases b <;> decide) (by simp) hpre hpost
  obtain ⟨a, r, hw, ha⟩ : ∃ a r, (Value.boolean b).text.toList = a :: r ∧ a ≠ '(' := by
    cases b
    · exact ⟨_, _, rfl, by decide⟩
    · exact ⟨_, _, rfl, by decide⟩
  have hne : (Value.boolean b).text.toList ++ z ≠ [] := by simp [hw]
  have hscan : scan Rule.standard v ⟨o, (Value.boolean b).text.toList ++ z⟩ = _ :=
    scan_longest hne (by simpa [hw] using ha) hlong
  rw [List.take_left, List.drop_left] at hscan
  rw [next_of_scan_some hne hscan]
  cases b <;> rfl

/-- A value's packed text before a blank or the end is one token that gives the value back. -/
theorem next_serialize {t : Token} (hk : t.kind = .symbol) (hv : t.value.Packable)
    {z : List Char} (hz : ∀ c ∈ z.head?, c = ' ') :
    ∃ t', next Rule.standard v ⟨o, t.serialize.toList ++ z⟩ =
      .ok (some (t', ⟨o + utf8Length t.serialize.toList, z⟩)) ∧ t.Unpacks t' := by
  obtain ⟨kind, value, span, tags, origin⟩ := t
  simp only at hk
  subst hk
  cases value with
  | number x =>
    obtain ⟨hfin, hread⟩ := hv
    refine ⟨_, next_number (Spelling.render_numberText hfin) hz, rfl, ?_, rfl⟩
    show Value.number (Literal.read (Spelling.value.render x).toList).value = Value.number x
    rw [hread]
  | boolean b => exact ⟨_, next_boolean b hz, rfl, rfl, rfl⟩
  | string s =>
    -- a string is written in parentheses, which its balance keeps together
    have htext : (Token.serialize ⟨.symbol, .string s, span, tags, origin⟩).toList ++ z =
        '(' :: (s.toList ++ ')' :: z) := by
      simp [Token.serialize]
    have hoff : utf8Length (Token.serialize ⟨.symbol, .string s, span, tags, origin⟩).toList =
        utf8Length s.toList + 2 := by
      simp only [Token.serialize, String.toList_append, utf8Length_append]
      simp only [show "(".toList = ['('] from rfl, show ")".toList = [')'] from rfl,
        utf8Length_cons, utf8Length_nil, show '('.utf8Size = 1 from rfl,
        show ')'.utf8Size = 1 from rfl]
      omega
    rw [htext, next_balanced hv z v o, hoff, String.ofList_toList]
    exact ⟨_, rfl, rfl, rfl, rfl⟩

/-- A packable value's text starts with a character that is no blank. -/
theorem serialize_head {t : Token} (hk : t.kind = .symbol) (hv : t.value.Packable) :
    ∃ a r, t.serialize.toList = a :: r ∧ isBlank a = false := by
  obtain ⟨kind, value, span, tags, origin⟩ := t
  simp only at hk
  subst hk
  cases value with
  | number x =>
    obtain ⟨a, r, hr, ha⟩ := (Spelling.render_numberText hv.1).head
    exact ⟨a, r, hr, (numberStart_marks ha).1⟩
  | boolean b =>
    cases b
    · exact ⟨'f', ['a', 'l', 's', 'e'], show "false".toList = _ by decide, by decide⟩
    · exact ⟨'t', ['r', 'u', 'e'], show "true".toList = _ by decide, by decide⟩
  | string s => exact ⟨'(', s.toList ++ [')'], by simp [Token.serialize], by decide⟩

/-- Packed text starts with the text of its first value. -/
theorem packed_head {u : Token} (rest : List Token) {a : Char} {r : List Char}
    (ha : u.serialize.toList = a :: r) :
    (" ".intercalate ((u :: rest).map Token.serialize)).toList.head? = some a := by
  cases rest <;> simp [String.intercalate_cons_cons, ha]

/-- The packed text of values scans to tokens that give them back, one for each, in order. -/
theorem tokens_go_packed (v : Vocabulary) :
    ∀ (vs : List Token) (o : Nat), (∀ t ∈ vs, t.kind = .symbol ∧ t.value.Packable) →
      ∃ ts, tokens.go Rule.standard v ⟨o, (" ".intercalate (vs.map Token.serialize)).toList⟩ =
        (ts, none) ∧ List.Forall₂ Token.Unpacks vs ts
  | [], o, _ => ⟨[], tokens_go_none (by rw [next, dif_pos (by simp)]), .nil⟩
  | [t], o, h => by
    obtain ⟨hk, hv⟩ := h t (List.mem_singleton_self t)
    obtain ⟨t', hn, hu⟩ := next_serialize (v := v) (o := o) hk hv (z := []) (by simp)
    rw [List.append_nil] at hn
    refine ⟨[t'], ?_, .cons hu .nil⟩
    rw [List.map_singleton, String.intercalate_singleton, tokens_go_next hn,
      tokens_go_none (by rw [next, dif_pos rfl])]
  | t :: u :: rest, o, h => by
    obtain ⟨hk, hv⟩ := h t (List.mem_cons_self ..)
    have htext : (" ".intercalate ((t :: u :: rest).map Token.serialize)).toList =
        t.serialize.toList ++ ' ' :: (" ".intercalate ((u :: rest).map Token.serialize)).toList := by
      simp [String.intercalate_cons_cons]
    obtain ⟨t', hn, hu⟩ := next_serialize (v := v) (o := o) hk hv
      (z := ' ' :: (" ".intercalate ((u :: rest).map Token.serialize)).toList) (by simp)
    -- the values after the blank scan on their own
    obtain ⟨ts, hgo, hrel⟩ := tokens_go_packed v (u :: rest) (o + utf8Length t.serialize.toList + 1)
      fun x hx => h x (List.mem_cons_of_mem _ hx)
    obtain ⟨hku, hvu⟩ := h u (List.mem_cons_of_mem _ (List.mem_cons_self ..))
    obtain ⟨a, r, ha, hb⟩ := serialize_head hku hvu
    have hskip := next_blank (v := v) (o := o + utf8Length t.serialize.toList)
      (q := (" ".intercalate ((u :: rest).map Token.serialize)).toList)
      (by rw [packed_head rest ha]; exact fun c hc => by cases hc; exact hb)
    cases hrel with
    | cons hux hrest =>
      rename_i x xs
      obtain ⟨c₁, hn₁, hgo₁⟩ := next_of_tokens_go_cons hgo
      refine ⟨t' :: x :: xs, ?_, .cons hu (.cons hux hrest)⟩
      rw [htext, tokens_go_next hn, tokens_go_next (hskip.trans hn₁), hgo₁]

end Scan

namespace Scan

/-- `pack eval` under a vocabulary that has both words: two operator tokens. -/
theorem next_pack_eval {v : Vocabulary} (hpack : v "pack" = true) (heval : v "eval" = true) :
    next Rule.standard v (Cursor.start "pack eval") =
        .ok (some ((Token.operator "pack").placed (some ⟨0, 4⟩), ⟨4, [' ', 'e', 'v', 'a', 'l']⟩)) ∧
      next Rule.standard v ⟨4, [' ', 'e', 'v', 'a', 'l']⟩ =
        .ok (some ((Token.operator "eval").placed (some ⟨5, 9⟩), ⟨9, []⟩)) ∧
      next Rule.standard v ⟨9, []⟩ = .ok none := by
  have hcs : "pack eval".toList = ['p', 'a', 'c', 'k', ' ', 'e', 'v', 'a', 'l'] := by decide
  refine ⟨?_, ?_, by rw [next, dif_pos rfl]⟩
  · rw [Cursor.start, hcs, next_word (by decide) (by decide)
      (by decide : Rule.identifier.matchLength _ = some 4)
      (by decide) (by decide)]
    rw [show String.ofList (['p', 'a', 'c', 'k', ' ', 'e', 'v', 'a', 'l'].take 4) = "pack" by decide,
      show utf8Length (['p', 'a', 'c', 'k', ' ', 'e', 'v', 'a', 'l'].take 4) = 4 by decide]
    simp [Rule.wordToken, hpack]
  · exact next_blank_eval heval 4

end Scan

theorem Token.symbols_of_unpacks {vs ts : List Token} (h : List.Forall₂ Token.Unpacks vs ts) :
    ∀ t ∈ ts, t.kind = .symbol := by
  induction h with
  | nil => exact fun t ht => absurd ht List.not_mem_nil
  | cons hu _ ih =>
    intro t ht
    rcases List.mem_cons.mp ht with rfl | ht
    · exact hu.1
    · exact ih t ht

-- ---------------------------------------------------------------------------
-- `pack eval`
-- ---------------------------------------------------------------------------

open Evaluation

/-- On every machine a session reaches, whose items are each a boolean, a finite number whose
text reads back to it, or a string balanced in parentheses, and whose table holds the built-ins
under `pack` and `eval`, the program `pack eval` succeeds and leaves one token for each item, in
order: a symbol with the item's value, tagged as quoted code when it is a string and by its type
otherwise, with no span. The registers, the table and the output stay as they were. -/
theorem pack_eval_restores {m : Machine} (hm : m.Reachable)
    (hpack : m.ops.get? "pack" = some (Operator.builtin (.primitive .pack)))
    (heval : m.ops.get? "eval" = some (Operator.builtin (.control .eval)))
    (hvals : ∀ t ∈ m.stack.toList, t.value.Packable) :
    ∃ ts : List Token,
      m.enter "pack eval" = (.ok ts.getLast?, { m with stack := Stack.ofList ts, uid := m.uid + 2 }) ∧
        List.Forall₂ (fun v t => t.kind = .symbol ∧ t.value = v.value ∧
          t.tags = v.value.unpackedTags ∧ t.span = none) m.stack.toList ts := by
  -- the items are values, so their packed text scans back to them
  have hitems : ∀ t ∈ m.stack.toList, t.kind = .symbol ∧ t.value.Packable :=
    fun t ht => ⟨(hm.holds_values.1 t ht).1, hvals t ht⟩
  obtain ⟨ts, htoks, hrel⟩ := Scan.tokens_go_packed m.ops.contains m.stack.toList 0 hitems
  -- the program is the operator `pack`, a blank and the operator `eval`
  have hvpack : m.ops.contains "pack" = true := by
    rw [Directory.contains_eq_isSome_get?, hpack]
    rfl
  have hveval : m.ops.contains "eval" = true := by
    rw [Directory.contains_eq_isSome_get?, heval]
    rfl
  obtain ⟨h₁, h₂, h₃⟩ := Scan.next_pack_eval hvpack hveval
  have hprog : Scan.tokens Rule.standard m.ops.contains "pack eval" =
      ([(Token.operator "pack").placed (some ⟨0, 4⟩), (Token.operator "eval").placed (some ⟨5, 9⟩)],
        none) := by
    show Scan.tokens.go _ _ (Cursor.start "pack eval") = _
    rw [Scan.tokens_go_next h₁, Scan.tokens_go_next h₂, Scan.tokens_go_none h₃]
  -- `pack` leaves one string, which `eval` runs
  have hpacked : (execute (999999 + 1) (place {} .source ((Token.operator "pack").placed (some ⟨0, 4⟩)))).run.run
      { m with uid := m.uid + 1 } =
        (.ok (), { m with
          uid := m.uid + 1
          stack := Stack.ofList [Token.symbol (.string (" ".intercalate (m.stack.toList.map Token.serialize)))] }) := by
    rw [execute_operator (by rw [place_kind]; rfl)
      (by simpa [Token.text, Token.placed, Token.operator, Value.text] using hpack), invoke_pack]
  have heval' : (execute (999999 + 1) (place {} .source ((Token.operator "eval").placed (some ⟨5, 9⟩)))).run.run
      { m with
        uid := m.uid + 1
        stack := Stack.ofList [Token.symbol (.string (" ".intercalate (m.stack.toList.map Token.serialize)))] } =
        (.ok (), { m with stack := Stack.ofList (ts.map (place {} .detached)), uid := m.uid + 2 }) := by
    rw [execute_operator (by rw [place_kind]; rfl)
      (by simpa [Token.text, Token.placed, Token.operator, Value.text] using heval)]
    exact invoke_eval_symbols 999999 _ { m with uid := m.uid + 1 } htoks (Token.symbols_of_unpacks hrel)
  have hrun : (runFrom (999999 + 1) {} .source (Cursor.start "pack eval")).run.run { m with uid := m.uid + 1 } =
      (.ok (), { m with stack := Stack.ofList (ts.map (place {} .detached)), uid := m.uid + 2 }) := by
    rw [runFrom_of_next_some (m := { m with uid := m.uid + 1 }) h₁ hpacked,
      runFrom_of_next_some (m := { m with
        uid := m.uid + 1
        stack := Stack.ofList [Token.symbol (.string (" ".intercalate (m.stack.toList.map Token.serialize)))] })
        h₂ heval',
      runFrom_of_next_none (m := { m with stack := Stack.ofList (ts.map (place {} .detached)), uid := m.uid + 2 }) h₃]
  refine ⟨ts.map (place {} .detached), ?_, ?_⟩
  · rw [enter_of_runFrom (by rw [hprog])
      (by simp [topLocals, hprog, Token.placed, Token.operator]) hrun]
    simp [Stack.peek?, Stack.ofList]
  · rw [List.forall₂_map_right_iff]
    exact hrel.imp fun v t hu => ⟨by rw [place_kind]; exact hu.1, by rw [place_value]; exact hu.2.1,
      by rw [place_tags]; exact hu.2.2, place_detached_span t⟩

/-- A number, a boolean, a word that names no operator and quoted code holding a string,
parentheses and a comment mark come back from `pack eval`, the word as quoted code. -/
theorem pack_eval_restores_code :
    (Machine.Reachable (({} : Machine).enter "3 true word (a \"b (c)\" // d)").2 ∧
      (({} : Machine).enter "3 true word (a \"b (c)\" // d)").2.ops.get? "pack" =
        some (Operator.builtin (.primitive .pack)) ∧
      (({} : Machine).enter "3 true word (a \"b (c)\" // d)").2.ops.get? "eval" =
        some (Operator.builtin (.control .eval)) ∧
      ∀ t ∈ (({} : Machine).enter "3 true word (a \"b (c)\" // d)").2.stack.toList, t.value.Packable) ∧
    ∃ ts : List Token,
      (({} : Machine).enter "3 true word (a \"b (c)\" // d)").2.enter "pack eval" =
          (.ok ts.getLast?, { (({} : Machine).enter "3 true word (a \"b (c)\" // d)").2 with
            stack := Stack.ofList ts
            uid := (({} : Machine).enter "3 true word (a \"b (c)\" // d)").2.uid + 2 }) ∧
        List.Forall₂ (fun v t => t.kind = .symbol ∧ t.value = v.value ∧
          t.tags = v.value.unpackedTags ∧ t.span = none)
          (({} : Machine).enter "3 true word (a \"b (c)\" // d)").2.stack.toList ts := by
  have hscan : (Scan.tokens Rule.standard Table.standard.contains "3 true word (a \"b (c)\" // d)").2 = none ∧
      (∀ t ∈ (Scan.tokens Rule.standard Table.standard.contains "3 true word (a \"b (c)\" // d)").1,
        t.kind = .symbol) ∧
      ∀ t ∈ (Scan.tokens Rule.standard Table.standard.contains "3 true word (a \"b (c)\" // d)").1,
        t.value.Packable := by
    decide +kernel
  obtain ⟨hstop, hsym, hvals⟩ := hscan
  -- the program pushes its three values and leaves the table as it was
  have hstate : (({} : Machine).enter "3 true word (a \"b (c)\" // d)").2 =
      { stack := Stack.ofList ((Scan.tokens Rule.standard Table.standard.contains
          "3 true word (a \"b (c)\" // d)").1.map (place {} .source)), uid := 1 } := by
    show ((evaluateIn depthLimit "3 true word (a \"b (c)\" // d)" .source).run.run {}).2 = _
    rw [evaluateIn_symbols (m := {}) (Prod.ext rfl hstop) hsym, Stack.pushAll_empty]
  have hm : Machine.Reachable (({} : Machine).enter "3 true word (a \"b (c)\" // d)").2 := .enter _ .fresh
  have hpack : (({} : Machine).enter "3 true word (a \"b (c)\" // d)").2.ops.get? "pack" =
      some (Operator.builtin (.primitive .pack)) := by
    rw [hstate]
    exact Table.standard_get?_of_ofName? (by decide)
  have heval : (({} : Machine).enter "3 true word (a \"b (c)\" // d)").2.ops.get? "eval" =
      some (Operator.builtin (.control .eval)) := by
    rw [hstate]
    exact Table.standard_get?_of_ofName? (by decide)
  have hpackable : ∀ t ∈ (({} : Machine).enter "3 true word (a \"b (c)\" // d)").2.stack.toList,
      t.value.Packable := by
    rw [hstate, Stack.toList_ofList]
    intro t ht
    obtain ⟨u, hu, rfl⟩ := List.mem_map.mp ht
    rw [place_value]
    exact hvals u hu
  exact ⟨⟨hm, hpack, heval, hpackable⟩, pack_eval_restores hm hpack heval hpackable⟩

namespace Scan

/-- A text whose scan stops cleanly after two tokens of known kinds and texts, one `next` at a
time. -/
theorem next_of_tokens_pair {v : Vocabulary} {text : String} {k₁ k₂ : Kind} {x₁ x₂ : String}
    (hstop : (tokens Rule.standard v text).2 = none)
    (hlex : (tokens Rule.standard v text).1.map (fun t => (t.kind, t.text)) =
      [(k₁, x₁), (k₂, x₂)]) :
    ∃ t₁ t₂ c₁ c₂, next Rule.standard v (Cursor.start text) = .ok (some (t₁, c₁)) ∧
      next Rule.standard v c₁ = .ok (some (t₂, c₂)) ∧ next Rule.standard v c₂ = .ok none ∧
      t₁.kind = k₁ ∧ t₁.text = x₁ ∧ t₂.kind = k₂ ∧ t₂.text = x₂ := by
  obtain ⟨t₁, t₂, hts⟩ := List.length_eq_two.mp (by simpa using congrArg List.length hlex)
  rw [hts] at hlex
  simp only [List.map_cons, List.map_nil, List.cons.injEq, Prod.mk.injEq, and_true] at hlex
  obtain ⟨⟨hk₁, hx₁⟩, hk₂, hx₂⟩ := hlex
  obtain ⟨c₁, hn₁, hgo₁⟩ := next_of_tokens_go_cons (Prod.ext hts hstop)
  obtain ⟨c₂, hn₂, hgo₂⟩ := next_of_tokens_go_cons hgo₁
  exact ⟨t₁, t₂, c₁, c₂, hn₁, hn₂, next_of_tokens_go_nil hgo₂, hk₁, hx₁, hk₂, hx₂⟩

end Scan

/-- Once `eval` is deleted, `pack eval` does not give the stack back: on an empty stack it leaves
the packed text, empty, and the string `eval`. -/
theorem pack_eval_after_deleting_eval :
    (({} : Machine).enter "'eval del-op").2.Reachable ∧
      (({} : Machine).enter "'eval del-op").2.stack.toList = [] ∧
      ((({} : Machine).enter "'eval del-op").2.enter "pack eval").2.stack.toList.map Token.text =
        ["", "eval"] := by
  -- the first program: the string `eval`, then `del-op`
  have hscan₁ : (Scan.tokens Rule.standard Table.standard.contains "'eval del-op").2 = none ∧
      (Scan.tokens Rule.standard Table.standard.contains "'eval del-op").1.map
        (fun t => (t.kind, t.text)) = [(.symbol, "eval"), (.operator, "del-op")] ∧
      topLocals Table.standard.contains "'eval del-op" = [] := by
    decide +kernel
  obtain ⟨hstop₁, hlex₁, hloc₁⟩ := hscan₁
  obtain ⟨t₁, t₂, c₁, c₂, hn₁, hn₂, hn₃, hk₁, hx₁, hk₂, hx₂⟩ := Scan.next_of_tokens_pair hstop₁ hlex₁
  have hdel : Table.standard.get? "del-op" = some (Operator.builtin (.primitive .delOp)) :=
    Table.standard_get?_of_ofName? (by decide)
  have hrun₁ : (runFrom (999999 + 1) {} .source (Cursor.start "'eval del-op")).run.run
      { uid := 1 } = (.ok (), { ops := Table.standard.erase "eval", uid := 1 }) := by
    rw [runFrom_of_next_some (m := { uid := 1 }) hn₁
        (by rw [execute_symbol _ (by rw [place_kind, hk₁])]; rfl),
      runFrom_of_next_some (m := { stack := ({} : Stack Token).push (place {} .source t₁), uid := 1 })
        hn₂ (by
          rw [execute_operator (by rw [place_kind, hk₂]) (by rw [place_text, hx₂]; exact hdel),
            invoke_delOp _ _ _ rfl, place_text, hx₁]),
      -- the table has changed, but the scan had already stopped
      runFrom_of_next_none (m := { ops := Table.standard.erase "eval", uid := 1 })
        (Scan.next_vocab_none hn₃ _)]
  have hfirst : ({} : Machine).enter "'eval del-op" =
      (.ok none, { ops := Table.standard.erase "eval", uid := 1 }) :=
    enter_of_runFrom (m := {}) hstop₁ hloc₁ hrun₁
  -- the second program: `pack`, then the string `eval`
  have hscan₂ : (Scan.tokens Rule.standard (Table.standard.erase "eval").contains "pack eval").2 = none ∧
      (Scan.tokens Rule.standard (Table.standard.erase "eval").contains "pack eval").1.map
        (fun t => (t.kind, t.text)) = [(.operator, "pack"), (.symbol, "eval")] ∧
      topLocals (Table.standard.erase "eval").contains "pack eval" = [] := by
    decide +kernel
  obtain ⟨hstop₂, hlex₂, hloc₂⟩ := hscan₂
  obtain ⟨u₁, u₂, d₁, d₂, hm₁, hm₂, hm₃, hk₃, hx₃, hk₄, hx₄⟩ := Scan.next_of_tokens_pair hstop₂ hlex₂
  have hpack : (Table.standard.erase "eval").get? "pack" = some (Operator.builtin (.primitive .pack)) := by
    rw [Directory.get?_erase, if_neg (by decide)]
    exact Table.standard_get?_of_ofName? (by decide)
  have hpacked : (execute (999999 + 1) (place {} .source u₁)).run.run
      { ops := Table.standard.erase "eval", uid := 2 } =
        (.ok (),
          { ops := Table.standard.erase "eval", uid := 2,
            stack := Stack.ofList [Token.symbol (.string "")] }) := by
    rw [execute_operator (by rw [place_kind, hk₃]) (by rw [place_text, hx₃]; exact hpack),
      invoke_pack]
    rfl
  have hrun₂ : (runFrom (999999 + 1) {} .source (Cursor.start "pack eval")).run.run
      { ops := Table.standard.erase "eval", uid := 2 } =
        (.ok (),
          { ops := Table.standard.erase "eval", uid := 2,
            stack := (Stack.ofList [Token.symbol (.string "")]).push (place {} .source u₂) }) := by
    rw [runFrom_of_next_some (m := { ops := Table.standard.erase "eval", uid := 2 }) hm₁ hpacked,
      runFrom_of_next_some
        (m := { ops := Table.standard.erase "eval", uid := 2,
                stack := Stack.ofList [Token.symbol (.string "")] }) hm₂
        (by rw [execute_symbol _ (by rw [place_kind, hk₄])]; rfl),
      runFrom_of_next_none hm₃]
  have hsecond : ({ ops := Table.standard.erase "eval", uid := 1 } : Machine).enter "pack eval" =
      (.ok (some (place {} .source u₂)),
        { ops := Table.standard.erase "eval", uid := 2,
          stack := (Stack.ofList [Token.symbol (.string "")]).push (place {} .source u₂) }) :=
    enter_of_runFrom (m := { ops := Table.standard.erase "eval", uid := 1 }) hstop₂ hloc₂ hrun₂
  refine ⟨.enter _ .fresh, ?_, ?_⟩
  · rw [hfirst]
    rfl
  · rw [hfirst]
    show (({ ops := Table.standard.erase "eval", uid := 1 } : Machine).enter "pack eval").2.stack.toList.map
      Token.text = _
    rw [hsecond]
    simp only [Stack.toList_push, Stack.toList_ofList, List.cons_append, List.nil_append,
      List.map_cons, List.map_nil, place_text, hx₄]
    rfl

end Concatenative
