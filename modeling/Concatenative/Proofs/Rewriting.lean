import Concatenative.Syntax.Substitution
import Concatenative.Proofs.Layout
import Concatenative.Proofs.Splicing

/-!
# What a substitution does to its text

`Substitution.run` scans a text, offers its tokens to a replacer and puts each replacement in
place of its token, inside quoted code too when the substitution is deep. The results here say
what comes out in terms of the scanner alone: the tokens offered are the tokens of the text at any
depth (`Scan.within`), and the record replaces the span of each replaced one, counted in the whole
text, by its replacement (`Edits.Replaces`). What `Proofs/Splicing` proves of such records then
holds of every record a substitution makes.

The walk over the tokens of one text keeps an invariant, `Progress.Holds`: what it has copied is a
list of stretches followed by a tail, the same in both texts. A replaced token closes a stretch, a
kept token joins the tail, and quoted code whose contents changed brings the stretches of its
contents, the tail before it joining the first one's gap.

Main results:

* `Substitution.walk_cons` — what the walk does with one token;
* `Substitution.walk_substituted` — what it does with the tokens of a text;
* `Substitution.nested_substituted` — a substitution of a text whose quoted code nests less deep
  than its fuel;
* `Substitution.run_substituted` — the substitution of any text;
* `Substitution.nested_fuel` — fuel beyond the text's length changes nothing;
* `Substitution.run_maps_back` — what the record of a substitution maps back, span by span;
* `Substitution.deletion_maps_back_crossed` — a token replaced by nothing is the one place where a
  span maps back with its ends crossed.
-/

namespace Concatenative

/-- Splitting after a run of characters at the run's byte length gives the run back. -/
theorem splitAtByte_utf8Length (xs ys : List Char) :
    splitAtByte (xs ++ ys) (utf8Length xs) = (xs, ys) := by
  induction xs with
  | nil => cases ys <;> simp [splitAtByte]
  | cons c cs ih =>
    have hpos := c.utf8Size_pos
    rw [List.cons_append, splitAtByte, if_neg (by simp only [utf8Length_cons]; omega)]
    simp only [utf8Length_cons, Nat.add_sub_cancel_left, ih]

namespace Substitution

-- ---------------------------------------------------------------------------
-- What a substitution should give
-- ---------------------------------------------------------------------------

/-- The replaced ones among tokens, each paired with the offset of the text it was scanned from:
its span counted in the outer text, and its replacement. -/
def replacements (replace : Token → Option String) (toks : List (Nat × Token)) :
    List (Span × String) :=
  toks.filterMap fun bt => (replace bt.2).bind fun r => bt.2.span.map fun s => (s.shift bt.1, r)

@[simp] theorem replacements_nil (replace : Token → Option String) :
    replacements replace [] = [] := rfl

@[simp] theorem replacements_append (replace : Token → Option String)
    (xs ys : List (Nat × Token)) :
    replacements replace (xs ++ ys) = replacements replace xs ++ replacements replace ys := by
  simp [replacements]

theorem replacements_singleton (replace : Token → Option String) {t : Token} {s : Span}
    (hspan : t.span = some s) (base : Nat) :
    replacements replace [(base, t)] = ((replace t).map fun r => (s.shift base, r)).toList := by
  cases h : replace t <;> simp [replacements, h, hspan]

/-- What a substitution of `text`, which starts at byte `base` of an outer text, gave: when it
succeeded, the tokens offered are the tokens of the text at any depth, and the record replaces
the span of each replaced one by its replacement. -/
def Substituted (vocab : Vocabulary) (replace : Token → Option String) (deep : Bool) (base : Nat)
    (text : String) (result : List Token × Except Error (String × Edits)) : Prop :=
  ∀ new e, result.2 = .ok (new, e) →
    result.1 = (Scan.within vocab deep base (Cursor.start text)).map Prod.snd ∧
      e.Replaces base text.toList new.toList
        (replacements replace (Scan.within vocab deep base (Cursor.start text)))

-- ---------------------------------------------------------------------------
-- The invariant of the walk
-- ---------------------------------------------------------------------------

/-- What the walk has copied is the stretches `ss` followed by `tail`, in the old text and in the
new, and the record holds the stretches' splices. -/
structure Progress.Holds (p : Progress) (ss : List Stretch) (tail : List Char) : Prop where
  splices : p.edits.splices.toList = splicesOf 0 ss
  out : p.out.toList = ss.flatMap Stretch.after ++ tail
  copied : p.copied = utf8Length (ss.flatMap Stretch.before ++ tail)

theorem Progress.holds_start (text : String) :
    Progress.Holds { rest := text.toList } [] [] :=
  ⟨rfl, rfl, rfl⟩

/-- `take` at a token laid out after the run `gap`: the run is copied, and what is left starts
after the token. -/
theorem take_laid {p : Progress} {gap body rest : List Char} (hrest : p.rest = gap ++ body ++ rest) :
    take p ⟨p.copied + utf8Length gap, p.copied + utf8Length gap + utf8Length body⟩ =
      (gap, body, ⟨p.out ++ String.ofList gap, rest,
        p.copied + utf8Length gap + utf8Length body, p.edits⟩) := by
  obtain ⟨out, rest₀, copied, edits⟩ := p
  dsimp only at hrest ⊢
  subst hrest
  have hlen : Span.length ⟨copied + utf8Length gap, copied + utf8Length gap + utf8Length body⟩ =
      utf8Length body := by
    simp only [Span.length]
    omega
  simp only [take, Nat.add_sub_cancel_left, List.append_assoc, splitAtByte_utf8Length, hlen,
    Progress.emit]

namespace Progress.Holds

variable {p : Progress} {ss : List Stretch} {tail gap body rest : List Char}

/-- The byte where the walk writes next. -/
theorem utf8ByteSize_out (h : p.Holds ss tail) :
    (p.out ++ String.ofList gap).utf8ByteSize =
      utf8Length (ss.flatMap Stretch.after) + utf8Length (tail ++ gap) := by
  rw [utf8ByteSize_eq_utf8Length, String.toList_append, h.out, String.toList_ofList]
  simp only [utf8Length_append]
  omega

/-- A token kept as it was joins the tail. -/
theorem keep (h : p.Holds ss tail) :
    Progress.Holds ⟨p.out ++ String.ofList gap ++ String.ofList body, rest,
      p.copied + utf8Length gap + utf8Length body, p.edits⟩ ss (tail ++ gap ++ body) := by
  refine ⟨h.splices, ?_, ?_⟩
  · simp [h.out]
  · simp only [h.copied, utf8Length_append]
    omega

/-- A replaced token closes a stretch, whose gap is the tail and the run before the token. -/
theorem replace (h : p.Holds ss tail) (r : String) :
    Progress.Holds ⟨p.out ++ String.ofList gap ++ r, rest,
      p.copied + utf8Length gap + utf8Length body,
      p.edits.push ⟨(p.out ++ String.ofList gap).utf8ByteSize, utf8Length body, r.utf8ByteSize⟩⟩
      (ss ++ [⟨tail ++ gap, body, r.toList⟩]) [] := by
  refine ⟨?_, ?_, ?_⟩
  · rw [Edits.push, Array.toList_push, h.splices, splicesOf_append, splicesOf_cons,
      splicesOf_nil, utf8ByteSize_out h, utf8ByteSize_eq_utf8Length]
    simp only [Nat.zero_add]
  · simp [h.out, Stretch.after]
  · simp only [h.copied, List.flatMap_append, List.flatMap_cons, List.flatMap_nil,
      Stretch.before, List.append_nil, utf8Length_append]
    omega

/-- Quoted code whose contents changed brings the stretches of its contents; the tail and the run
before the code join the first one's gap, and the contents' tail is the new tail. -/
theorem descend (h : p.Holds ss tail) {iss : List Stretch} {itail : List Char} {text : String}
    {inner : Edits} (hne : iss ≠ []) (hs : inner.splices.toList = splicesOf 0 iss)
    (hbody : body = iss.flatMap Stretch.before ++ itail)
    (htext : text.toList = iss.flatMap Stretch.after ++ itail) :
    Progress.Holds ⟨p.out ++ String.ofList gap ++ text, rest,
      p.copied + utf8Length gap + utf8Length body,
      p.edits.appendShifted inner (p.out ++ String.ofList gap).utf8ByteSize⟩
      (ss ++ Stretch.widen (tail ++ gap) iss) itail := by
  refine ⟨?_, ?_, ?_⟩
  · have hadd := splicesOf_add 0
      (utf8Length (ss.flatMap Stretch.after) + utf8Length (tail ++ gap)) iss
    rw [Nat.zero_add] at hadd
    rw [Edits.appendShifted, Array.toList_append, Array.toList_map, h.splices, hs,
      splicesOf_append, Stretch.splicesOf_widen _ _ hne, utf8ByteSize_out h, Nat.zero_add, hadd]
  · simp [h.out, htext, Stretch.flatMap_after_widen _ hne]
  · simp only [h.copied, hbody, List.flatMap_append, Stretch.flatMap_before_widen _ hne,
      utf8Length_append]
    omega

end Progress.Holds

-- ---------------------------------------------------------------------------
-- The walk
-- ---------------------------------------------------------------------------

section Walk

variable {vocab : Vocabulary} {replace : Token → Option String} {deep : Bool}
  {inner : String → List Token × Except Error (String × Edits)} {n : Nat}

/-- What the walk does with a token laid out after the run `gap`: it keeps the token, replaces
it, or, for quoted code in a deep walk, substitutes inside it; and goes on with the rest. -/
theorem walk_step {t : Token} {ts : List Token} {p p' : Progress} {seen : List Token}
    {gap body rest : List Char} (hrest : p.rest = gap ++ body ++ rest)
    (hspan : t.span = some ⟨p.copied + utf8Length gap, p.copied + utf8Length gap + utf8Length body⟩)
    (hwalk : walk replace deep inner (t :: ts) p = (seen, .ok p')) :
    ((deep && t.isCode) = false ∧ replace t = none ∧ ∃ seen₁, seen = t :: seen₁ ∧
      walk replace deep inner ts ⟨p.out ++ String.ofList gap ++ String.ofList body, rest,
        p.copied + utf8Length gap + utf8Length body, p.edits⟩ = (seen₁, .ok p')) ∨
    (∃ r, (deep && t.isCode) = false ∧ replace t = some r ∧ ∃ seen₁, seen = t :: seen₁ ∧
      walk replace deep inner ts ⟨p.out ++ String.ofList gap ++ r, rest,
        p.copied + utf8Length gap + utf8Length body,
        p.edits.push ⟨(p.out ++ String.ofList gap).utf8ByteSize, utf8Length body,
          r.utf8ByteSize⟩⟩ = (seen₁, .ok p')) ∨
    (∃ iseen text ie, (deep && t.isCode) = true ∧
      inner (String.ofList body) = (iseen, .ok (text, ie)) ∧ ∃ seen₁, seen = iseen ++ seen₁ ∧
      walk replace deep inner ts
        (if ie.size = 0 then ⟨p.out ++ String.ofList gap ++ String.ofList body, rest,
            p.copied + utf8Length gap + utf8Length body, p.edits⟩
          else ⟨p.out ++ String.ofList gap ++ text, rest,
            p.copied + utf8Length gap + utf8Length body,
            p.edits.appendShifted ie (p.out ++ String.ofList gap).utf8ByteSize⟩) =
        (seen₁, .ok p')) := by
  rw [walk, hspan] at hwalk
  simp only [take_laid hrest, Progress.emit, Progress.record, Progress.recordShifted] at hwalk
  have hlength : Span.length ⟨p.copied + utf8Length gap,
      p.copied + utf8Length gap + utf8Length body⟩ = utf8Length body := by
    simp only [Span.length]
    omega
  by_cases hc : (deep && t.isCode) = true
  · -- quoted code: the walk goes on only if the substitution inside succeeded
    rw [if_pos hc] at hwalk
    rcases hres : inner (String.ofList body) with ⟨iseen, ires⟩
    rw [hres] at hwalk
    cases ires with
    | error err => simp at hwalk
    | ok res =>
      obtain ⟨text, ie⟩ := res
      simp only at hwalk
      obtain ⟨hseen, hw⟩ := Prod.mk.inj hwalk
      exact .inr (.inr ⟨iseen, text, ie, hc, rfl, _, hseen.symm, Prod.ext rfl hw⟩)
  · rw [if_neg hc] at hwalk
    have hc' : (deep && t.isCode) = false := by simpa using hc
    rcases hr : replace t with _ | r
    · simp only [hr] at hwalk
      obtain ⟨hseen, hw⟩ := Prod.mk.inj hwalk
      exact .inl ⟨hc', rfl, _, hseen.symm, Prod.ext rfl hw⟩
    · simp only [hr, hlength] at hwalk
      obtain ⟨hseen, hw⟩ := Prod.mk.inj hwalk
      exact .inr (.inl ⟨r, hc', rfl, _, hseen.symm, Prod.ext rfl hw⟩)

/-- What the walk does with one token laid out after the run `gap`: it moves past the token to a
progress that holds the invariant with more stretches, whose regions are the token's
replacements at any depth, and offers the tokens the token stands for. -/
theorem walk_cons
    (hinner : ∀ base (body : List Char), body.length < n →
      Substituted vocab replace deep base (String.ofList body) (inner (String.ofList body)))
    (base : Nat) {t : Token} {ts : List Token} {p p' : Progress} {ss : List Stretch}
    {tail gap body rest : List Char} {seen : List Token}
    (h : p.Holds ss tail) (hrest : p.rest = gap ++ body ++ rest) (hlen : p.rest.length ≤ n)
    (hspan : t.span = some ⟨p.copied + utf8Length gap, p.copied + utf8Length gap + utf8Length body⟩)
    (hcode : t.tags.code = true → gap ≠ []) (hscan : t.Scanned body rest)
    (hwalk : walk replace deep inner (t :: ts) p = (seen, .ok p')) :
    ∃ ss₁ tail₁ p₁ seen₁, p₁.Holds (ss ++ ss₁) tail₁ ∧ p₁.rest = rest ∧
      p₁.copied = p.copied + utf8Length gap + utf8Length body ∧
      tail ++ gap ++ body = ss₁.flatMap Stretch.before ++ tail₁ ∧
      regionsOf (base + utf8Length (ss.flatMap Stretch.before)) ss₁ =
        replacements replace (Scan.opened vocab deep base t) ∧
      walk replace deep inner ts p₁ = (seen₁, .ok p') ∧
      seen = (Scan.opened vocab deep base t).map Prod.snd ++ seen₁ := by
  have hcopied := h.copied
  simp only [utf8Length_append] at hcopied
  rcases walk_step hrest hspan hwalk with
    ⟨hc, hr, seen₁, rfl, hw⟩ | ⟨r, hc, hr, seen₁, rfl, hw⟩ |
      ⟨iseen, text, iedits, hc, hres, seen₁, rfl, hw⟩
  · -- kept
    have hopen : Scan.opened vocab deep base t = [(base, t)] := by
      simp [Scan.opened, hc]
    refine ⟨[], tail ++ gap ++ body, _, _, by simpa using h.keep, rfl, rfl, by simp, ?_, hw, ?_⟩
    · simp [hopen, replacements_singleton replace hspan, hr]
    · rw [hopen]
      rfl
  · -- replaced
    have hopen : Scan.opened vocab deep base t = [(base, t)] := by
      simp [Scan.opened, hc]
    refine ⟨[⟨tail ++ gap, body, r.toList⟩], [], _, _, h.replace r, rfl, rfl,
      by simp [Stretch.before], ?_, hw, ?_⟩
    · simp only [hopen, replacements_singleton replace hspan, hr, regionsOf_cons,
        regionsOf_nil, Option.map_some, Option.toList_some, String.ofList_toList,
        List.cons.injEq, Prod.mk.injEq, Span.shift, Span.mk.injEq, utf8Length_append,
        and_true]
      omega
    · rw [hopen]
      rfl
  · -- quoted code: its contents are substituted as a text of their own
    have hc' : t.tags.code = true := by
      simp only [Token.isCode, Bool.and_eq_true] at hc
      exact hc.2
    have hgap := hcode hc'
    have hval := (hscan.code hc').1
    have hopen : Scan.opened vocab deep base t =
        Scan.within vocab deep (base + (p.copied + utf8Length gap))
          (Cursor.start (String.ofList body)) := by
      simp [Scan.opened, hc, hspan, Token.text, hval, Value.text]
    have hshort : body.length < n := by
      have hgap' : 0 < gap.length := List.length_pos_iff.mpr hgap
      rw [hrest] at hlen
      simp only [List.length_append] at hlen
      omega
    obtain ⟨hseen, iss, itail, his, hbody, htext, hreg⟩ :=
      hinner (base + (p.copied + utf8Length gap)) body hshort text iedits (by rw [hres])
    rw [hres] at hseen
    rw [String.toList_ofList] at hbody
    simp only at hseen
    by_cases hsize : iedits.size = 0
    · -- nothing inside changed: the code is copied as it was
      have hiss : iss = [] := by
        rw [← List.length_eq_zero_iff, ← length_splicesOf 0, ← his]
        simpa [Edits.size] using hsize
      subst hiss
      rw [if_pos hsize] at hw
      refine ⟨[], tail ++ gap ++ body, _, _, by simpa using h.keep, rfl, rfl, by simp, ?_, hw, ?_⟩
      · rw [hopen, ← hreg]
        rfl
      · rw [hopen, ← hseen]
    · -- the contents' stretches join the outer ones
      have hne : iss ≠ [] := by
        rintro rfl
        exact hsize (by simpa [Edits.size] using his)
      rw [if_neg hsize] at hw
      refine ⟨Stretch.widen (tail ++ gap) iss, itail, _, _, h.descend hne his hbody htext, rfl,
        rfl, ?_, ?_, hw, ?_⟩
      · rw [Stretch.flatMap_before_widen _ hne, hbody]
        simp
      · rw [Stretch.regionsOf_widen _ _ hne, hopen, ← hreg]
        congr 1
        simp only [utf8Length_append]
        omega
      · rw [hopen, ← hseen]

/-- The walk over tokens laid out over what is left of the old text: it ends holding the
invariant with more stretches, whose regions are the tokens' replacements at any depth, and it
offers the tokens at any depth. The induction is on the tokens, one `walk_cons` a step. -/
theorem walk_substituted
    (hinner : ∀ base (body : List Char), body.length < n →
      Substituted vocab replace deep base (String.ofList body) (inner (String.ofList body)))
    (base : Nat) :
    ∀ (ts : List Token) (p p' : Progress) (ss : List Stretch) (tail : List Char)
      (seen : List Token), p.Holds ss tail → Laid p.rest p.copied ts → p.rest.length ≤ n →
      walk replace deep inner ts p = (seen, .ok p') →
      ∃ ss' tail', p'.Holds (ss ++ ss') tail' ∧
        tail ++ p.rest = ss'.flatMap Stretch.before ++ tail' ++ p'.rest ∧
        regionsOf (base + utf8Length (ss.flatMap Stretch.before)) ss' =
          replacements replace (ts.flatMap (Scan.opened vocab deep base)) ∧
        seen = (ts.flatMap (Scan.opened vocab deep base)).map Prod.snd
  | [], p, p', ss, tail, seen, h, _, _, hwalk => by
    rw [walk, Prod.mk.injEq, Except.ok.injEq] at hwalk
    obtain ⟨rfl, rfl⟩ := hwalk
    exact ⟨[], tail, by simpa using h, by simp, by simp, by simp⟩
  | t :: ts, p, p', ss, tail, seen, h, hlaid, hlen, hwalk => by
    obtain ⟨gap, body, rest, hrest, hspan, hcode, hscan, hlaid'⟩ := hlaid.uncons
    obtain ⟨ss₁, tail₁, p₁, seen₁, h₁, hrest₁, hcopied₁, hold₁, hreg₁, hwalk₁, rfl⟩ :=
      walk_cons hinner base h hrest hlen hspan hcode hscan hwalk
    have hlen₁ : p₁.rest.length ≤ n := by
      rw [hrest] at hlen
      simp only [hrest₁, List.length_append] at hlen ⊢
      omega
    obtain ⟨ss₂, tail₂, h₂, hold₂, hreg₂, rfl⟩ := walk_substituted hinner base ts p₁ p'
      (ss ++ ss₁) tail₁ seen₁ h₁ (by rw [hrest₁, hcopied₁]; exact hlaid') hlen₁ hwalk₁
    refine ⟨ss₁ ++ ss₂, tail₂, by simpa using h₂, ?_, ?_, by simp⟩
    · calc tail ++ p.rest = (tail ++ gap ++ body) ++ p₁.rest := by simp [hrest, hrest₁]
        _ = ss₁.flatMap Stretch.before ++ (tail₁ ++ p₁.rest) := by simp [hold₁]
        _ = (ss₁ ++ ss₂).flatMap Stretch.before ++ tail₂ ++ p'.rest := by simp [hold₂]
    · rw [List.flatMap_cons, replacements_append, regionsOf_append, hreg₁, ← hreg₂]
      simp [utf8Length_append, Nat.add_assoc]

/-- The walk reads `inner` only at the contents of quoted code, which are shorter than what is
left of the text: two functions that agree on shorter texts walk alike. -/
theorem walk_congr {inner' : String → List Token × Except Error (String × Edits)}
    (hinner : ∀ x : String, x.length < n → inner x = inner' x) :
    ∀ (ts : List Token) (p : Progress), Laid p.rest p.copied ts → p.rest.length ≤ n →
      walk replace deep inner ts p = walk replace deep inner' ts p
  | [], _, _, _ => rfl
  | t :: ts, p, hlaid, hlen => by
    obtain ⟨gap, body, rest, hrest, hspan, hcode, -, hlaid'⟩ := hlaid.uncons
    have hrest_len : rest.length ≤ n := by
      rw [hrest] at hlen
      simp only [List.length_append] at hlen
      omega
    -- past the token the walk stands at the rest of the text, whichever way it went
    have ih : ∀ q : Progress, q.rest = rest →
        q.copied = p.copied + utf8Length gap + utf8Length body →
        walk replace deep inner ts q = walk replace deep inner' ts q := by
      intro q hq hc
      exact walk_congr hinner ts q (by rw [hq, hc]; exact hlaid') (by rw [hq]; exact hrest_len)
    rw [walk, walk, hspan]
    simp only [take_laid hrest]
    split
    · rename_i hc
      have hgap : gap ≠ [] := hcode (by simp only [Token.isCode, Bool.and_eq_true] at hc; exact hc.2)
      have hshort : (String.ofList body).length < n := by
        have := List.length_pos_iff.mpr hgap
        rw [hrest] at hlen
        simp only [List.length_append, String.length_ofList] at hlen ⊢
        omega
      rw [hinner _ hshort]
      split
      · rfl
      · split <;> rw [ih _ rfl rfl]
    · split <;> rw [ih _ rfl rfl]

end Walk

-- ---------------------------------------------------------------------------
-- Substituting a text
-- ---------------------------------------------------------------------------

/-- A substitution whose fuel exceeds the length of its text: quoted code is shorter than the
text it stands in, so the fuel still exceeds the length of the code's text one level down. -/
theorem nested_substituted (vocab : Vocabulary) (replace : Token → Option String) (deep : Bool) :
    ∀ (depth base : Nat) (text : String), text.length < depth →
      Substituted vocab replace deep base text
        (nested Rule.standard vocab replace deep depth text)
  | 0, _, _, hd => absurd hd (Nat.not_lt_zero _)
  | depth + 1, base, text, hd => by
    intro new e hres
    have hinner : ∀ base (body : List Char), body.length < depth →
        Substituted vocab replace deep base (String.ofList body)
          (nested Rule.standard vocab replace deep depth (String.ofList body)) :=
      fun base body hbody =>
        nested_substituted vocab replace deep depth base (String.ofList body) (by simpa using hbody)
    have hlaid := Scan.tokens_laid vocab text
    rcases htoks : Scan.tokens Rule.standard vocab text with ⟨toks, stop⟩
    rw [htoks] at hlaid
    rcases hw : walk replace deep (nested Rule.standard vocab replace deep depth) toks
      { rest := text.toList } with ⟨seen, result⟩
    rw [nested, htoks] at hres ⊢
    simp only [hw] at hres ⊢
    cases result with
    | error err => simp at hres
    | ok p' =>
      cases stop with
      | some err => simp at hres
      | none =>
        simp only [Except.ok.injEq, Prod.mk.injEq] at hres
        obtain ⟨rfl, rfl⟩ := hres
        obtain ⟨ss, tail, h, hold, hreg, hseen⟩ := walk_substituted hinner base toks
          { rest := text.toList } p' [] [] seen (Progress.holds_start text) hlaid
          (by rw [String.length_toList]; omega) hw
        have hwithin : Scan.within vocab deep base (Cursor.start text) =
            toks.flatMap (Scan.opened vocab deep base) := by
          rw [Scan.within_eq, ← Scan.tokens, htoks]
        refine ⟨by rw [hwithin, hseen], ss, tail ++ p'.rest, by simpa using h.splices, ?_, ?_, ?_⟩
        · simpa using hold
        · simp [h.out]
        · simpa [hwithin] using hreg

/-- Every substitution of a text that succeeds offers the tokens of the text at any depth and
replaces the span of each replaced one, counted in the whole text, by its replacement. -/
theorem run_substituted (vocab : Vocabulary) (replace : Token → Option String) (deep : Bool)
    (text : String) :
    Substituted vocab replace deep 0 text (run Rule.standard vocab replace deep text) :=
  nested_substituted vocab replace deep (text.length + 1) 0 text (Nat.lt_succ_self _)

/-- Fuel beyond the length of a text changes nothing: quoted code is shorter than the text it
stands in, so every level below has fuel to spare as well. -/
theorem nested_fuel (vocab : Vocabulary) (replace : Token → Option String) (deep : Bool) :
    ∀ (depth : Nat) (text : String), text.length < depth →
      nested Rule.standard vocab replace deep depth text = run Rule.standard vocab replace deep text
  | 0, _, hd => absurd hd (Nat.not_lt_zero _)
  | depth + 1, text, hd => by
    -- both walks read the substitution inside only at texts shorter than `text`
    have hinner : ∀ x : String, x.length < text.length →
        nested Rule.standard vocab replace deep depth x =
          nested Rule.standard vocab replace deep text.length x := by
      intro x hx
      rw [nested_fuel vocab replace deep depth x (by omega),
        nested_fuel vocab replace deep text.length x hx]
    have hlaid := Scan.tokens_laid vocab text
    rw [run, nested, nested]
    rcases htoks : Scan.tokens Rule.standard vocab text with ⟨toks, stop⟩
    rw [htoks] at hlaid
    simp only
    rw [walk_congr hinner toks { rest := text.toList } hlaid String.length_toList.le]

/-- A substitution that replaces nothing gives its text back, with no edits, when it
succeeds. -/
theorem run_unchanged {vocab : Vocabulary} {replace : Token → Option String} {deep : Bool}
    (hnone : ∀ t, replace t = none) {text new : String} {e : Edits}
    (h : (run Rule.standard vocab replace deep text).2 = .ok (new, e)) : new = text ∧ e = {} := by
  obtain ⟨-, ss, tail, hs, hold, hnew, hreg⟩ := run_substituted vocab replace deep text new e h
  have hnil : replacements replace (Scan.within vocab deep 0 (Cursor.start text)) = [] := by
    simp [replacements, hnone]
  obtain rfl : ss = [] := by
    rw [hnil] at hreg
    cases ss with
    | nil => rfl
    | cons s ss => simp [regionsOf_cons] at hreg
  simp only [List.flatMap_nil, List.nil_append] at hold hnew
  refine ⟨String.toList_inj.mp (hnew.trans hold.symm), ?_⟩
  obtain ⟨splices⟩ := e
  simp only [splicesOf_nil, Array.toList_eq_nil_iff] at hs
  subst hs
  rfl

-- ---------------------------------------------------------------------------
-- Mapping the new text back
-- ---------------------------------------------------------------------------

/-- A substitution that succeeds offers the tokens of its text at any depth, and its record
replaces the span of each replaced one, counted in the whole text, by its replacement. The record's
splices are in text order and end inside the new text. Every span of the new text maps back to a
span whose ends lie inside the old text; its start comes no later than its end unless the span is
empty and sits on a token replaced by nothing; a span that touches no replacement keeps its length
and its bytes; and the text that replaced a token, when it is not empty, maps back to exactly that
token's span. -/
theorem run_maps_back {vocab : Vocabulary} {replace : Token → Option String} {deep : Bool}
    {text new : String} {e : Edits}
    (h : (run Rule.standard vocab replace deep text).2 = .ok (new, e)) :
    (run Rule.standard vocab replace deep text).1 =
        (Scan.within vocab deep 0 (Cursor.start text)).map Prod.snd ∧
      e.Replaces 0 text.toList new.toList
        (replacements replace (Scan.within vocab deep 0 (Cursor.start text))) ∧
      e.splices.toList.Pairwise (fun s t => s.pos + s.inserted ≤ t.pos) ∧
      (∀ s ∈ e.splices.toList, s.pos + s.inserted ≤ new.utf8ByteSize) ∧
      (∀ a b, a ≤ b → b ≤ new.utf8ByteSize →
        (e.mapBack ⟨a, b⟩).start ≤ text.utf8ByteSize ∧
        (e.mapBack ⟨a, b⟩).stop ≤ text.utf8ByteSize ∧
        ((a < b ∨ ∀ s ∈ e.splices.toList, s.pos = a → s.inserted = 0 → s.removed = 0) →
          (e.mapBack ⟨a, b⟩).start ≤ (e.mapBack ⟨a, b⟩).stop) ∧
        ((∀ s ∈ e.splices.toList, ¬ s.Touches a b) →
          (e.mapBack ⟨a, b⟩).stop = (e.mapBack ⟨a, b⟩).start + (b - a) ∧
          byteSlice (utf8Bytes text.toList) (e.mapBack ⟨a, b⟩).start (e.mapBack ⟨a, b⟩).stop =
            byteSlice (utf8Bytes new.toList) a b)) ∧
      ∀ sp r, (sp, r) ∈ e.splices.toList.zip
          (replacements replace (Scan.within vocab deep 0 (Cursor.start text))) →
        0 < sp.inserted → e.mapBack ⟨sp.pos, sp.pos + sp.inserted⟩ = r.1 := by
  obtain ⟨hseen, hrep⟩ := run_substituted vocab replace deep text new e h
  have hdesc := hrep.describes
  have hnew := utf8ByteSize_eq_utf8Length new
  have hold := utf8ByteSize_eq_utf8Length text
  refine ⟨hseen, hrep, hdesc.ordered.1, fun s hs => hnew ▸ hdesc.ordered.2 s hs,
    fun a b hab hb => ?_, fun sp r hmem hins => hrep.mapBack_inserted hmem hins⟩
  have hbound := hdesc.mapBack_le hab (hnew ▸ hb)
  exact ⟨hold ▸ hbound.1, hold ▸ hbound.2, hdesc.mapBack_start_le hab,
    hdesc.mapBack_untouched hab⟩

/-- An `Except` whose value, as an option, is `a`, is `a`. -/
theorem Except.eq_ok_of_toOption {ε α : Type} {x : Except ε α} {a : α}
    (h : x.toOption = some a) : x = .ok a := by
  cases x <;> simp_all [Except.toOption]

/-- Replacing the one token of `b` by `c`. -/
theorem run_maps_back_replaced :
    (run Rule.standard (fun _ => false) (fun t => if t.text = "b" then some "c" else none) false
        "b").2 = .ok ("c", ⟨#[⟨0, 1, 1⟩]⟩) ∧
      (∀ s ∈ (⟨#[⟨0, 1, 1⟩]⟩ : Edits).splices.toList, s.pos + s.inserted ≤ "c".utf8ByteSize) ∧
      ∀ a b, a ≤ b → b ≤ "c".utf8ByteSize →
        ((⟨#[⟨0, 1, 1⟩]⟩ : Edits).mapBack ⟨a, b⟩).start ≤ "b".utf8ByteSize := by
  have h : (run Rule.standard (fun _ => false)
      (fun t => if t.text = "b" then some "c" else none) false "b").2 =
        .ok ("c", ⟨#[⟨0, 1, 1⟩]⟩) :=
    Except.eq_ok_of_toOption (by decide +kernel)
  have hmap := run_maps_back h
  exact ⟨h, hmap.2.2.2.1, fun a b hab hb => (hmap.2.2.2.2.1 a b hab hb).1⟩

/-- A token replaced by nothing leaves a splice that inserted nothing, and the empty span where it
stood maps back with its ends crossed: to the end of the token, then its start. -/
theorem deletion_maps_back_crossed :
    ((run Rule.standard (fun _ => false) (fun t => if t.text = "b" then some "" else none) false
        "b").1.map Token.span = [some ⟨0, 1⟩]) ∧
      (run Rule.standard (fun _ => false) (fun t => if t.text = "b" then some "" else none) false
        "b").2 = .ok ("", ⟨#[⟨0, 1, 0⟩]⟩) ∧
      (⟨#[⟨0, 1, 0⟩]⟩ : Edits).mapBack ⟨0, 0⟩ = ⟨1, 0⟩ :=
  ⟨by decide +kernel, Except.eq_ok_of_toOption (by decide +kernel), by decide +kernel⟩

end Substitution

end Concatenative
