import Concatenative.Proofs.Packing

/-!
# Text moved to the right

Quoted code that runs is program text read again from a byte further right. This module says
what moving a text `n` bytes right does to what evaluation makes of it.

Moving. `Origin.displace`, `Token.displace` and `Error.displace` move an origin, the span and
origin of a token, and the span of an error; kind, value, tags, cause and message stay. Locating
through a moved origin is locating and then moving (`Origin.locate_displace`), so errors
relocated and tokens placed through a moved origin come out moved (`Error.relocate_displace`,
`Evaluation.place_displace`).

Text without `@`. The mark of a local is `@`, and a value whose text has none is `Unmarked`.
Numbers and booleans are; every token scanned from text without `@` is, comes from no other
text and is no local (`Scan.next_fresh`), and hygiene leaves such text as it is
(`Evaluation.hygiene_unmarked`).

Built-ins. The built-ins read values and serializations and look at spans only to place their
errors: on moved operands they give the same results and the errors moved
(`Binary.apply_displace`, `Range.values_displace`, `parseArity_displace`), and what they make
of unmarked values is unmarked (`Binary.apply_unmarked`, `unmarked_intercalate`).
-/

namespace Concatenative

-- ---------------------------------------------------------------------------
-- Text moved to the right
-- ---------------------------------------------------------------------------

namespace Origin

/-- The same text placed `n` bytes further right in the program: the program itself becomes
the text `n` bytes into it, an anchor moves, and any other origin moves with its parent. -/
def displace (n : Nat) : Origin → Origin
  | source => within n {} source
  | detached => detached
  | anchored a => anchored (a.shift n)
  | within k edits parent => within k edits (parent.displace n)

/-- What a moved origin locates is what the origin locates, moved. -/
theorem locate_displace (n : Nat) (o : Origin) (s : Span) :
    (o.displace n).locate s = (o.locate s).map (·.shift n) := by
  induction o generalizing s with
  | source => simp [displace, locate, Edits.mapBack_empty]
  | detached => rfl
  | anchored a => rfl
  | within k edits parent ih => rw [displace, locate, locate, ih]

end Origin

namespace Token

/-- The token placed `n` bytes further right: its span and the origin of its text move, its
kind, value and tags stay. -/
def displace (n : Nat) (t : Token) : Token :=
  { t with span := t.span.map (·.shift n), origin := t.origin.map (Origin.displace n) }

variable (n : Nat) (t : Token)

@[simp] theorem kind_displace : (t.displace n).kind = t.kind := rfl
@[simp] theorem value_displace : (t.displace n).value = t.value := rfl
@[simp] theorem tags_displace : (t.displace n).tags = t.tags := rfl
@[simp] theorem span_displace : (t.displace n).span = t.span.map (·.shift n) := rfl
@[simp] theorem text_displace : (t.displace n).text = t.text := rfl
@[simp] theorem truthy_displace : (t.displace n).truthy = t.truthy := rfl
@[simp] theorem serialize_displace : (t.displace n).serialize = t.serialize := rfl
@[simp] theorem source_displace : (t.displace n).source = t.source := rfl

@[simp] theorem symbol_displace (v : Value) : (Token.symbol v).displace n = Token.symbol v := rfl

/-- A moved token's text comes from its origin, moved. -/
theorem textOrigin_displace : (t.displace n).textOrigin = t.textOrigin.displace n := by
  obtain ⟨kind, value, span, tags, origin⟩ := t
  cases origin with
  | some o => rfl
  | none => cases span <;> rfl

end Token

namespace Error

/-- The error attributed to its span moved `n` bytes right; cause, code and message stay. -/
def displace (n : Nat) (e : Error) : Error :=
  { e with span := e.span.map (·.shift n) }

@[simp] theorem code_displace (n : Nat) (e : Error) : (e.displace n).code = e.code := rfl
@[simp] theorem message_displace (n : Nat) (e : Error) : (e.displace n).message = e.message :=
  rfl

/-- Relocating through a moved origin moves the relocated error. -/
theorem relocate_displace (n : Nat) (e : Error) (o : Origin) :
    e.relocate (o.displace n).locate = (e.relocate o.locate).displace n := by
  simp only [relocate, displace, Origin.locate_displace, Option.map_bind]
  rfl

end Error

/-- Defined code moved `n` bytes right; a built-in stays. -/
def Behaviour.displace (n : Nat) : Behaviour → Behaviour
  | native b => native b
  | defined code => defined (code.displace n)

/-- The operator with its defined code moved `n` bytes right. -/
def Operator.displace (n : Nat) (op : Operator) : Operator :=
  { op with behaviour := op.behaviour.displace n }

@[simp] theorem Operator.arity_displace (n : Nat) (op : Operator) :
    (op.displace n).arity = op.arity := rfl

@[simp] theorem Operator.displace_builtin (n : Nat) (b : Builtin) :
    (Operator.builtin b).displace n = Operator.builtin b := rfl

/-- Placing a scanned token, which comes from no other text, through a moved origin gives the
token placed through the origin, moved: its span and the origin of quoted code move together. -/
theorem Evaluation.place_displace (n : Nat) (edits : Edits) (o : Origin) {t : Token}
    (ht : t.origin = none) :
    Evaluation.place edits (o.displace n) t = (Evaluation.place edits o t).displace n := by
  have hlocate : (Origin.within 0 edits (o.displace n)).locate =
      fun s => ((Origin.within 0 edits o).locate s).map (·.shift n) :=
    funext (Origin.locate_displace n (.within 0 edits o))
  unfold Evaluation.place
  split
  · simp only [Token.displace, hlocate, Option.map_bind, Option.map_map]
    rfl
  · simp only [Token.displace, hlocate, Option.map_bind, ht, Option.map_none]
    rfl

-- ---------------------------------------------------------------------------
-- Text without the mark of a local
-- ---------------------------------------------------------------------------

/-- A value whose text holds no `@`, the mark of a local: no local can be scanned from it. -/
def Value.Unmarked (v : Value) : Prop :=
  '@' ∉ v.text.toList

/-- A token whose value is unmarked. -/
def Token.Unmarked (t : Token) : Prop :=
  t.value.Unmarked

/-- An operator whose defined code, if any, is unmarked. -/
def Operator.Unmarked (op : Operator) : Prop :=
  ∀ code, op.behaviour = .defined code → code.Unmarked

theorem Value.unmarked_number (x : Binary64) : (Value.number x).Unmarked := by
  show '@' ∉ (Spelling.value.render x).toList
  by_cases hf : x.isFinite = true
  · -- digits, a point and a sign
    intro h
    have := (Spelling.render_numberText hf).isNumberChar '@' h
    exact absurd this (by decide)
  · -- NaN or an infinity, with or without a sign
    simp only [Spelling.render, Spelling.value, hf, ↓reduceIte, Bool.not_false]
    split
    · decide
    · have hsign : ∀ b : Bool, '@' ∉ ((if b = true then "-" else "") ++ "Infinity").toList := by
        decide
      exact hsign _

theorem Value.unmarked_boolean (b : Bool) : (Value.boolean b).Unmarked := by
  show '@' ∉ (Value.boolean b).text.toList
  cases b <;> decide

@[simp] theorem Operator.unmarked_builtin (b : Builtin) : (Operator.builtin b).Unmarked :=
  fun _ h => nomatch h

/-- A token's source is its value's text. -/
theorem Token.source_eq_text (t : Token) : t.source = t.value.text := by
  obtain ⟨kind, value, span, tags, origin⟩ := t
  cases value <;> cases kind <;> rfl

-- ---------------------------------------------------------------------------
-- Stacks seen through a map
-- ---------------------------------------------------------------------------

namespace Stack

variable {α β : Type}

/-- The stack with `f` applied to every item. -/
def map (f : α → β) (s : Stack α) : Stack β :=
  ⟨s.top.map f⟩

variable (f : α → β) (s : Stack α)

@[simp] theorem toList_map : (s.map f).toList = s.toList.map f := by
  simp [map, toList, List.map_reverse]

@[simp] theorem map_push (a : α) : (s.push a).map f = (s.map f).push (f a) := rfl

@[simp] theorem map_pushAll (xs : List α) :
    (s.pushAll xs).map f = (s.map f).pushAll (xs.map f) := by
  simp [map, pushAll, List.map_reverse]

@[simp] theorem map_empty : ({} : Stack α).map f = {} := rfl

@[simp] theorem peek?_map : (s.map f).peek? = s.peek?.map f := by
  simp [map, peek?]

@[simp] theorem size_map : (s.map f).size = s.size := by
  simp [map, size]

theorem pop?_map : (s.map f).pop? = s.pop?.map fun p => (f p.1, p.2.map f) := by
  obtain ⟨top⟩ := s
  cases top <;> rfl

theorem popN?_map (n : Nat) :
    (s.map f).popN? n = (s.popN? n).map fun p => (p.1.map f, p.2.map f) := by
  have hsize : (s.map f).size = s.size := by simp [size, map]
  unfold popN?
  rw [hsize]
  split
  · simp [map, List.map_reverse, List.map_take, List.map_drop]
  · rfl

end Stack

-- ---------------------------------------------------------------------------
-- Scanning text without `@`
-- ---------------------------------------------------------------------------

/-- A string of some of the characters of a text without `@` has none. -/
theorem Value.unmarked_string {cs ds : List Char} (hcs : '@' ∉ cs) (hds : ds ⊆ cs) :
    (Value.string (String.ofList ds)).Unmarked := by
  intro h
  simp only [Value.text, String.toList_ofList] at h
  exact hcs (hds h)

/-- A standard rule builds, from text without `@`, a token whose value has none. -/
theorem Rule.standard_build_unmarked {r : Rule} (hr : r ∈ Rule.standard) {cs : List Char}
    {span : Span} {vocab : Vocabulary} {t : Token} (h : r.build cs span vocab = some t)
    (hcs : '@' ∉ cs) : t.Unmarked := by
  rcases Rule.standard_build_cases hr h with ⟨s, hs, rfl⟩ | ⟨-, rfl⟩ | rfl | rfl | rfl
  · exact Value.unmarked_string hcs hs
  · exact Value.unmarked_string hcs (List.Subset.refl _)
  · exact Value.unmarked_boolean _
  · exact Value.unmarked_number _
  · -- an operator's value is its own word
    exact Value.unmarked_string hcs (List.Subset.refl _)

namespace Scan

variable {v : Vocabulary} {c c' : Cursor} {t : Token}

/-- A scan of text without `@` makes a token of no other text, whose value has no `@`. -/
theorem scan_fresh (h : scan Rule.standard v c = .ok (some t, c')) (hc : '@' ∉ c.rest) :
    t.origin = none ∧ t.Unmarked := by
  unfold scan at h
  split at h
  · cases h
  · split at h
    · cases h
    · -- quoted code holds some of the characters
      simp only [Except.ok.injEq, Prod.mk.injEq, Option.some.injEq] at h
      obtain ⟨rfl, -⟩ := h
      refine ⟨rfl, Value.unmarked_string hc ?_⟩
      exact List.Subset.trans (List.dropLast_sublist _).subset
        (List.Subset.trans (List.drop_subset _ _) (List.take_subset _ _))
  · split at h
    · cases h
    · rename_i rule n hn
      simp only [Except.ok.injEq, Prod.mk.injEq] at h
      exact ⟨Rule.standard_build_origin (longest_spec hn).1 h.1,
        Rule.standard_build_unmarked (longest_spec hn).1 h.1
          fun hm => hc (List.mem_of_mem_take hm)⟩

theorem next_origin_unmarked (h : next Rule.standard v c = .ok (some (t, c')))
    (hc : '@' ∉ c.rest) : t.origin = none ∧ t.Unmarked := by
  induction c using next.induct Rule.standard v with
  | case1 c hne =>
    rw [next, dif_pos hne] at h
    cases h
  | case2 c hne e hs =>
    rw [next_of_scan_error hne hs] at h
    cases h
  | case3 c hne t' c₁ hs =>
    rw [next_of_scan_some hne hs] at h
    cases h
    exact scan_fresh hs hc
  | case4 c hne c₁ hs ih =>
    rw [next_of_scan_none hne hs] at h
    obtain ⟨skip, body, close, hrest, -⟩ := scan_laid hne hs
    exact ih h fun hm => hc (by rw [hrest]; simp [hm])

/-- From text without `@` the scanner makes tokens of no other text whose values have no `@`, and
no local, and what is left to scan has no `@` either. -/
theorem next_fresh (h : next Rule.standard v c = .ok (some (t, c'))) (hc : '@' ∉ c.rest) :
    t.origin = none ∧ t.Unmarked ∧ t.kind ≠ .localName ∧ '@' ∉ c'.rest := by
  obtain ⟨skip, body, close, hrest, -, -, -, -, hlocal⟩ := next_laid h
  obtain ⟨horigin, hu⟩ := next_origin_unmarked h hc
  refine ⟨horigin, hu, fun hk => ?_, fun hm => hc (by rw [hrest]; simp [hm])⟩
  -- a local's text starts with its mark
  obtain ⟨⟨name, hb, -, -⟩, -, -⟩ := (hlocal hk).2
  exact hc (by rw [hrest, hb]; simp)

theorem tokens_go_no_locals (c : Cursor) (hc : '@' ∉ c.rest) :
    ∀ t ∈ (tokens.go Rule.standard v c).1, t.kind ≠ .localName := by
  induction c using tokens.go.induct Rule.standard v with
  | case1 c h =>
    rw [tokens.go, h]
    exact fun _ ht => absurd ht List.not_mem_nil
  | case2 c e h =>
    rw [tokens.go, h]
    exact fun _ ht => absurd ht List.not_mem_nil
  | case3 c t c' h ih =>
    rw [tokens.go, h]
    obtain ⟨-, -, hk, hc'⟩ := next_fresh h hc
    intro x hx
    rcases List.mem_cons.mp hx with rfl | hx
    · exact hk
    · exact ih hc' x hx

end Scan

namespace Evaluation

/-- Text without `@` has no local to rename: hygiene leaves it as it is, or fails where its scan
fails, whatever the counter. -/
theorem hygiene_unmarked (ops : Table) {text : String} (uid : Nat) (o : Origin)
    (ht : '@' ∉ text.toList) :
    hygiene ops text uid o = match (Scan.tokens Rule.standard ops.contains text).2 with
      | some e => .error (e.relocate o.locate)
      | none => .ok (text, {}) := by
  cases hstop : (Scan.tokens Rule.standard ops.contains text).2 with
  | some e => exact hygiene_of_tokens_error hstop
  | none =>
    refine hygiene_of_no_locals hstop ?_
    simp only [topLocals, List.map_eq_nil_iff, List.filter_eq_nil_iff, beq_iff_eq]
    exact Scan.tokens_go_no_locals (Cursor.start text) ht

end Evaluation

-- ---------------------------------------------------------------------------
-- The built-ins read values, and spans only to place their errors
-- ---------------------------------------------------------------------------

namespace Binary

variable {n : Nat}

theorem operand_displace (t : Token) :
    operand (t.displace n) = (operand t).mapError (Error.displace n) := by
  obtain ⟨kind, value, span, tags, origin⟩ := t
  cases value <;> rfl

theorem order_displace (a b : Token) :
    order (a.displace n) (b.displace n) = (order a b).mapError (Error.displace n) := by
  obtain ⟨kind, value, span, tags, origin⟩ := a
  obtain ⟨kind', value', span', tags', origin'⟩ := b
  cases value <;> cases value' <;> rfl

theorem operands_displace (a b : Token) :
    operands (a.displace n) (b.displace n) = (operands a b).mapError (Error.displace n) := by
  unfold operands
  rw [operand_displace, operand_displace]
  cases operand a <;> cases operand b <;> rfl

/-- Arithmetic, comparison and logic compute the same value of moved operands; an error moves
with the operand it stands at. -/
theorem apply_displace (op : Binary) (a b : Token) :
    op.apply (a.displace n) (b.displace n) = (op.apply a b).mapError (Error.displace n) := by
  cases op <;> simp only [apply, operands_displace, order_displace]
  case sum =>
    obtain ⟨kind, value, span, tags, origin⟩ := a
    obtain ⟨kind', value', span', tags', origin'⟩ := b
    cases value <;> cases value' <;> rfl
  case difference | product | quotient | power | remainder | xor =>
    cases operands a b <;> rfl
  case less | greater | atLeast | atMost =>
    cases order a b <;> rfl
  case equal | and | or => rfl

/-- Arithmetic, comparison and logic on values without `@` make a value without `@`: joined
texts hold the operands' characters, and logic gives back an operand's value. -/
theorem apply_unmarked {op : Binary} {a b : Token} {v : Value} (ha : a.Unmarked)
    (hb : b.Unmarked) (h : op.apply a b = .ok v) : v.Unmarked := by
  cases v with
  | number x => exact Value.unmarked_number x
  | boolean p => exact Value.unmarked_boolean p
  | string s =>
    -- only joining texts and the logic operators make a string
    have hjoin : '@' ∉ (a.text ++ b.text).toList := by
      simp only [String.toList_append, List.mem_append, not_or]
      exact ⟨ha, hb⟩
    cases op <;> simp only [apply] at h
    case sum =>
      revert h
      split
      · intro h
        cases h
        exact hjoin
      · intro h
        cases h
        exact hjoin
      · cases operands a b <;> intro h <;> cases h
    case difference | product | quotient | power | remainder | xor =>
      revert h
      cases operands a b <;> intro h <;> cases h
    case less | greater | atLeast | atMost =>
      revert h
      cases order a b <;> intro h <;> cases h
    case equal => cases h
    case and =>
      simp only [Except.ok.injEq] at h
      split at h
      · rw [← h]
        exact hb
      · rw [← h]
        exact ha
    case or =>
      simp only [Except.ok.injEq] at h
      split at h
      · rw [← h]
        exact ha
      · rw [← h]
        exact hb

end Binary

namespace Range

variable {n : Nat}

theorem operand_displace (t : Token) (which : String) :
    operand (t.displace n) which = (operand t which).mapError (Error.displace n) := by
  obtain ⟨kind, value, span, tags, origin⟩ := t
  cases value <;> rfl

/-- `range` reads its operands' values; its errors stand where the operator or the operands
do. -/
theorem values_displace (caller start stop step : Token) :
    values (caller.displace n) (start.displace n) (stop.displace n) (step.displace n) =
      (values caller start stop step).mapError (Error.displace n) := by
  unfold values
  rw [operand_displace, operand_displace, operand_displace]
  cases operand start "start" <;> cases operand stop "end" <;> cases operand step "step"
  case ok.ok.ok x y z =>
    -- the checks read the numbers
    simp only [Except.mapError, bind, Except.bind, pure, Except.pure, throw, throwThe,
      MonadExceptOf.throw]
    split_ifs <;> rfl
  all_goals rfl

end Range

/-- An arity is read off the operand's value; the error stands where the operand does. -/
theorem parseArity_displace {n : Nat} (t : Token) :
    parseArity (t.displace n) = (parseArity t).mapError (Error.displace n) := by
  obtain ⟨kind, value, span, tags, origin⟩ := t
  cases value with
  | number x =>
    simp only [parseArity, Token.displace]
    split_ifs <;> rfl
  | boolean b => rfl
  | string s =>
    by_cases hs : s = "none"
    · subst hs
      rfl
    · -- any other string is no arity, on both sides
      have herr : ∀ t : Token, t.value = .string s →
          parseArity t = .error ⟨.invalidArity t.serialize, t.span⟩ := by
        intro t ht
        unfold parseArity
        split
        · simp_all
        · simp_all
        · rfl
      rw [herr _ rfl, herr _ rfl]
      rfl

/-- The text a value without `@` is written as has none. -/
theorem Token.serialize_unmarked {t : Token} (ht : t.Unmarked) : '@' ∉ t.serialize.toList := by
  obtain ⟨kind, value, span, tags, origin⟩ := t
  have ht' : '@' ∉ value.text.toList := ht
  cases kind <;> cases value <;>
    simp_all [Token.serialize, Value.text, String.toList_append]

/-- Texts without `@` joined by blanks have none. -/
theorem unmarked_intercalate : ∀ ss : List String, (∀ s ∈ ss, '@' ∉ s.toList) →
    '@' ∉ (" ".intercalate ss).toList
  | [], _ => by simp
  | [s], h => by
    rw [String.intercalate_singleton]
    exact h s (List.mem_singleton_self s)
  | s :: t :: rest, h => by
    rw [String.intercalate_cons_cons]
    simp only [String.toList_append, List.mem_append, not_or]
    exact ⟨⟨h s (List.mem_cons_self ..), by decide⟩,
      unmarked_intercalate (t :: rest) fun x hx => h x (List.mem_cons_of_mem _ hx)⟩

end Concatenative
