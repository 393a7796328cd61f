import Mathlib.Data.List.Chain
import Mathlib.Logic.Relation
import Concatenative.Proofs.Classifying
import Concatenative.Proofs.Pointing

/-!
# Spans that trace back to the program

Evaluation gives every token it runs, and every error it raises, a span of the program: the span
where the token was scanned, mapped back through the origin of the text it was scanned from. This
module says which span that is.

Quoted code descends from the program through any number of levels, each renamed by hygiene
before it is scanned (`Evaluation.Descends`). `Faithful P loc T` says that the map `loc` places
every token a scan of `T` meets, at every depth of quoted code, on a run of `P` that is the
token's own run with the hygiene suffixes taken out (`Suffixed`). The program is placed so by its
own origin (`Faithful.slice`), and one level of renaming keeps that (`Faithful.rescans`) unless a
renamed local ends in a backslash right before a line break, where the backslash would escape
the suffix. A program without a backslash right before a line break has none at any depth
(`NoEscapedBreak`), so every token scanned from quoted code below it is placed on the run of its
own text (`Evaluation.Descends.faithful`).

Text evaluated from any other token, one that came from no other text, has an origin that puts
every span at that token's span, or nowhere when the token has none, as for the values `pack`
and `+` make; every level of quoted code below it keeps that answer
(`Evaluation.Descends.locate_const`). Only quoted code carries an origin, so these are all the
tokens that are not quoted code (`Evaluation.Invariant.codeCarriesOrigin`).

## Main results

* `Faithful.rescans` — one level of renaming keeps the placement of a text's tokens;
* `Evaluation.Descends.faithful` — every text below the program through quoted code is placed;
* `run_spans_trace_back` — the spans a run reports lie inside the program; a token scanned
  through quoted code is placed on its own run less the suffixes, when no backslash stands right
  before a line break; and text evaluated from any other token reports that token's span alone.
-/

namespace Concatenative

-- ---------------------------------------------------------------------------
-- Suffixes and escaped line breaks
-- ---------------------------------------------------------------------------

/-- `new` is `old` with hygiene's suffixes put in, by any number of renamings. -/
def Suffixed (old new : List Char) : Prop :=
  Relation.ReflTransGen (fun a b => ∃ uid, Grafted (uidSuffix uid) a b) old new

/-- No backslash stands right before a line break. -/
def NoEscapedBreak (cs : List Char) : Prop :=
  cs.IsChain fun a b => ¬ (a = '\\' ∧ b = '\n')

instance (cs : List Char) : Decidable (NoEscapedBreak cs) :=
  inferInstanceAs (Decidable (List.IsChain _ cs))

namespace NoEscapedBreak

variable {cs : List Char}

theorem of_run (h : NoEscapedBreak cs) {l : List Char} (hl : l <:+: cs) : NoEscapedBreak l :=
  List.IsChain.infix h hl

/-- Characters that are no backslash may come before a text without an escaped line break. -/
theorem append_of_ne {pre : List Char} (hpre : ∀ c ∈ pre, c ≠ '\\') (h : NoEscapedBreak cs) :
    NoEscapedBreak (pre ++ cs) := by
  induction pre with
  | nil => exact h
  | cons c pre ih =>
    refine List.IsChain.cons (ih fun d hd => hpre d (List.mem_cons_of_mem c hd)) ?_
    intro _ _ hbreak
    exact hpre c (List.mem_cons_self ..) hbreak.1

/-- Renaming goes wrong only at a backslash right before a line break, which this text lacks. -/
theorem safe (h : NoEscapedBreak cs) (renamed : String → Bool) : Suffix.Safe renamed cs := by
  intro name _ hlast hinfix
  have hchain : NoEscapedBreak (name ++ ['\n']) := h.of_run hinfix
  exact (List.isChain_append.mp hchain).2.2 '\\' hlast '\n' rfl ⟨rfl, rfl⟩

end NoEscapedBreak

/-- Grafting a suffix puts in no escaped line break: the suffix holds no backslash, and it starts
with `@`. -/
theorem Grafted.noEscapedBreak {s : Suffix} {old new : List Char} (h : Grafted s old new)
    (hold : NoEscapedBreak old) : NoEscapedBreak new := by
  induction h with
  | nil => exact hold
  | keep c h ih =>
    rw [NoEscapedBreak, List.isChain_cons] at hold ⊢
    rw [h.head?_eq]
    exact ⟨hold.1, ih hold.2⟩
  | graft _ _ _ ih =>
    have hparts := List.isChain_append.mp hold
    have hchars : ∀ c ∈ s.chars, c ≠ '\\' := by
      intro c hc
      have hinert := s.inert_chars c hc
      simp only [Rule.isInert, Bool.and_eq_true, bne_iff_ne, ne_eq] at hinert
      exact hinert.1.2
    rw [List.append_assoc]
    refine List.isChain_append.mpr
      ⟨hparts.1, NoEscapedBreak.append_of_ne hchars (ih hparts.2.1), ?_⟩
    -- the name ends before the suffix's `@`, which is no line break
    intro _ _ y hy hbreak
    have hat : y = '@' := by simpa [Suffix.chars] using hy.symm
    exact absurd (hat.symm.trans hbreak.2) (by decide)

theorem Suffixed.noEscapedBreak {old new : List Char} (h : Suffixed old new)
    (hold : NoEscapedBreak old) : NoEscapedBreak new := by
  induction h with
  | refl => exact hold
  | tail _ hstep ih =>
    obtain ⟨_, hg⟩ := hstep
    exact hg.noEscapedBreak ih

-- ---------------------------------------------------------------------------
-- Tokens met along a scan
-- ---------------------------------------------------------------------------

namespace Span.Covers

variable {x : Span} {cs body : List Char}

theorem body_run {off : Nat} (h : x.Covers cs off body) : body <:+: cs := by
  obtain ⟨pre, post, rfl, -⟩ := h
  exact ⟨pre, post, rfl⟩

theorem within (h : x.Covers cs 0 body) : Span.Within cs x := by
  obtain ⟨pre, post, rfl, rfl⟩ := h
  simpa using Span.Within.slice pre body post

/-- A span of the covered run, moved to where the run starts, lies inside the whole text. -/
theorem within_shift (h : x.Covers cs 0 body) {y : Span} (hy : Span.Within body y) :
    Span.Within cs (y.shift x.start) := by
  obtain ⟨pre, post, rfl, rfl⟩ := h
  simpa using hy.shift pre post

end Span.Covers

namespace Scan

variable {vocab v : Vocabulary} {text : String} {c c' : Cursor} {t : Token}

/-- A token met along the scan of a text covers a run of it, and quoted code holds that run. -/
theorem Reaches.covers (hc : Reaches text c) (hn : next Rule.standard v c = .ok (some (t, c'))) :
    ∃ x body, t.span = some x ∧ x.Covers text.toList 0 body ∧
      (t.isCode = true → t.value = .string (String.ofList body)) := by
  obtain ⟨-, pre, body, post, hsplit, hspan, hcode⟩ := (next_within hc.within hn).2
  exact ⟨_, body, hspan, ⟨pre, post, hsplit, by simp⟩, hcode⟩

theorem Reaches.covers_at (hc : Reaches text c) (hn : next Rule.standard v c = .ok (some (t, c')))
    {x : Span} (hx : t.span = some x) :
    ∃ body, x.Covers text.toList 0 body ∧
      (t.isCode = true → t.value = .string (String.ofList body)) := by
  obtain ⟨x₀, body, hx₀, hcov, hcode⟩ := hc.covers hn
  obtain rfl := Option.some.inj (hx₀.symm.trans hx)
  exact ⟨body, hcov, hcode⟩

/-- Quoted code met along a scan covers, at its span, the run that spells its own text. -/
theorem Reaches.code_covers (hc : Reaches text c) (hn : next Rule.standard v c = .ok (some (t, c')))
    (hu : t.isCode = true) {x : Span} (hx : t.span = some x) :
    x.Covers text.toList 0 t.text.toList ∧ t.value = .string t.text := by
  obtain ⟨body, hcov, hcode⟩ := hc.covers_at hn hx
  have hv := hcode hu
  have htext : t.text = String.ofList body := by rw [Token.text, hv, Value.text]
  rw [htext, String.toList_ofList]
  exact ⟨hcov, hv⟩

theorem reaches_of_mem_tokens_go (hc : Reaches text c)
    (h : t ∈ (tokens.go Rule.standard vocab c).1) :
    ∃ c₀ c₀', Reaches text c₀ ∧ next Rule.standard vocab c₀ = .ok (some (t, c₀')) := by
  induction c using tokens.go.induct Rule.standard vocab with
  | case1 c hn =>
    rw [tokens_go_none hn] at h
    cases h
  | case2 c e hn =>
    rw [tokens_go_of_next_error hn] at h
    cases h
  | case3 c t' c₁ hn ih =>
    rw [tokens_go_next hn, List.mem_cons] at h
    rcases h with rfl | h
    · exact ⟨c, c₁, hc, hn⟩
    · exact ih (.step vocab hc hn) h

/-- Every token of the scan of a whole text is met along it. -/
theorem reaches_of_mem_tokens (h : t ∈ (tokens Rule.standard vocab text).1) :
    ∃ c c', Reaches text c ∧ next Rule.standard vocab c = .ok (some (t, c')) :=
  reaches_of_mem_tokens_go .start h

/-- A token met along a scan whose vocabulary changes from step to step is alike to a token of
the scan of the whole text under any one vocabulary. -/
theorem Reaches.alike_mem (hc : Reaches text c) (hn : next Rule.standard v c = .ok (some (t, c')))
    (v₀ : Vocabulary) : ∃ t₀ ∈ (tokens Rule.standard v₀ text).1, Substitution.Alike t₀ t := by
  obtain ⟨r, hr⟩ := next_realize c
  rw [hr v] at hn
  rcases r with e | _ | ⟨f, c₁⟩
  · cases hn
  · cases hn
  · simp only [Except.map, realizeNext, Option.map_some, Except.ok.injEq, Option.some.injEq,
      Prod.mk.injEq] at hn
    obtain ⟨rfl, rfl⟩ := hn
    -- what was found there is a token under `v₀` too
    have hn₀ : next Rule.standard v₀ c = .ok (some (f.realize v₀, c₁)) := by
      rw [hr v₀]
      rfl
    refine ⟨f.realize v₀, hc.tokens_go_subset v₀ _ ?_, f.lexeme_realize v₀ v,
      f.isCode_realize v₀ v⟩
    rw [tokens_go_next hn₀]
    exact List.mem_cons_self ..

/-- Whether a text scans to its end does not depend on the vocabulary. -/
theorem tokens_stop_vocab (v v' : Vocabulary) (text : String) :
    (tokens Rule.standard v text).2 = (tokens Rule.standard v' text).2 := by
  obtain ⟨found, stop, h⟩ := tokens_realize text
  rw [h v, h v']

end Scan

namespace Suffix

variable {s : Suffix} {vocab : Vocabulary} {renamed : String → Bool}

/-- A token that renames another is quoted code only if the other is. -/
theorem Renames.isCode_of {t t' : Token} (h : s.Renames vocab renamed t t')
    (hc : t'.isCode = true) : t.isCode = true := by
  cases h with
  | keep => exact hc
  | graft sp =>
    -- the word of a new name is an operator or a string, never quoted code
    revert hc
    unfold Rule.wordToken
    split <;> exact nofun
  | code _ _ _ hcode => exact hcode

theorem Rescans.tokens_ok {text text' : String} {e : Edits}
    (h : s.Rescans vocab renamed text text' e) :
    (Scan.tokens Rule.standard vocab text).2 = none := by
  obtain ⟨htoks, -, -, -, -⟩ := h
  rw [htoks]

end Suffix

-- ---------------------------------------------------------------------------
-- Placing a text's tokens in the program
-- ---------------------------------------------------------------------------

/-- `loc` places the text `T` in the program `P`. Every token a scan of `T` meets, under any
vocabulary, has its span placed by `loc` on a span of `P` covering the token's run in `T` with
the suffixes taken out; and `loc`, moved to where quoted code found there stands, places the
code's text the same way whenever that text scans. -/
inductive Faithful (P : List Char) : (Span → Option Span) → String → Prop
  | intro {loc : Span → Option Span} {T : String} :
      (∀ c v u c' x, Scan.Reaches T c → Scan.next Rule.standard v c = .ok (some (u, c')) →
        u.span = some x → ∃ y body body', loc x = some y ∧ y.Covers P 0 body ∧
          x.Covers T.toList 0 body' ∧ Suffixed body body') →
      (∀ c v u c' x, Scan.Reaches T c → Scan.next Rule.standard v c = .ok (some (u, c')) →
        u.isCode = true → u.span = some x → ∀ v', (Scan.tokens Rule.standard v' u.text).2 = none →
          Faithful P (fun y => loc (y.shift x.start)) u.text) →
      Faithful P loc T

namespace Faithful

variable {P : List Char} {loc : Span → Option Span} {T : String} {c c' : Cursor} {v : Vocabulary}
  {u : Token} {x : Span}

theorem places (h : Faithful P loc T) (hc : Scan.Reaches T c)
    (hn : Scan.next Rule.standard v c = .ok (some (u, c'))) (hx : u.span = some x) :
    ∃ y body body', loc x = some y ∧ y.Covers P 0 body ∧ x.Covers T.toList 0 body' ∧
      Suffixed body body' := by
  cases h with
  | intro htop _ => exact htop c v u c' x hc hn hx

theorem inner (h : Faithful P loc T) (hc : Scan.Reaches T c)
    (hn : Scan.next Rule.standard v c = .ok (some (u, c'))) (hu : u.isCode = true)
    (hx : u.span = some x) {v' : Vocabulary}
    (hok : (Scan.tokens Rule.standard v' u.text).2 = none) :
    Faithful P (fun y => loc (y.shift x.start)) u.text := by
  cases h with
  | intro _ hcode => exact hcode c v u c' x hc hn hu hx v' hok

/-- Only the spans inside the text matter to a placement. -/
theorem congr {loc' : Span → Option Span} (h : Faithful P loc T)
    (hagree : ∀ y, Span.Within T.toList y → loc y = loc' y) : Faithful P loc' T := by
  induction h generalizing loc' with
  | intro htop _ ih =>
    refine .intro (fun c v u c' x hc hn hx => ?_) (fun c v u c' x hc hn hu hx v' hok => ?_)
    · obtain ⟨y, body, body', hy, hP, hT, hs⟩ := htop c v u c' x hc hn hx
      exact ⟨y, body, body', (hagree x hT.within).symm.trans hy, hP, hT, hs⟩
    · -- a span of the code's text, moved to where the code stands, lies inside the text
      exact ih c v u c' x hc hn hu hx v' hok fun y hy =>
        hagree _ ((hc.code_covers hn hu hx).1.within_shift hy)

/-- A run of the program is placed by moving its spans to where the run starts, and so is every
text of quoted code inside it, at any depth. The induction is on a bound of the text's length:
quoted code is shorter than the text it stands in. -/
theorem slice (P : List Char) :
    ∀ (n : Nat) (T : String) (pre post : List Char) (loc : Span → Option Span),
      T.length < n → P = pre ++ T.toList ++ post →
      (∀ y, loc y = some (y.shift (utf8Length pre))) → Faithful P loc T
  | 0, _, _, _, _, hn, _, _ => absurd hn (Nat.not_lt_zero _)
  | n + 1, T, pre, post, loc, hn, hP, hloc => by
    refine .intro (fun c v u c' x hc hnext hx => ?_) (fun c v u c' x hc hnext hu hx _ _ => ?_)
    · obtain ⟨body, ⟨a, b, hT, rfl⟩, -⟩ := hc.covers_at hnext hx
      refine ⟨_, body, body, hloc _, ⟨pre ++ a, b ++ post, by simp [hP, hT], ?_⟩,
        ⟨a, b, hT, rfl⟩, .refl⟩
      simp only [Span.shift, utf8Length_append, Span.mk.injEq]
      omega
    · obtain ⟨⟨a, b, hT, rfl⟩, -⟩ := hc.code_covers hnext hu hx
      -- the code's text is shorter than what was left to scan, so than the text
      have hlen : u.text.length < n := by
        have hshort := Scan.next_code_text_length hnext hu
        obtain ⟨done, hrest, -⟩ := hc.within
        have := congrArg List.length hrest
        simp only [Cursor.start, String.length_toList, List.length_append] at hshort this
        omega
      refine slice P n u.text (pre ++ a) (b ++ post) _ hlen (by rw [hP, hT]; simp)
        fun y => ?_
      rw [hloc]
      simp only [Span.shift, utf8Length_append, Nat.zero_add, Option.some.injEq, Span.mk.injEq]
      omega

/-- The program is placed by its own origin. -/
theorem source (P : String) : Faithful P.toList Origin.source.locate P :=
  slice P.toList (P.length + 1) P [] [] _ (Nat.lt_succ_self _) (by simp)
    fun y => by simp [Origin.locate]

/-- One level of renaming keeps a placement: the renamed text is placed by mapping its spans
back through the record of the renaming first. The induction is on the renaming, level by level
of quoted code. -/
theorem rescans {uid : Nat} {vocab : Vocabulary} {renamed : String → Bool} {R : String}
    {e : Edits} (h : (uidSuffix uid).Rescans vocab renamed T R e) :
    ∀ {loc : Span → Option Span}, Faithful P loc T → Faithful P (fun y => loc (e.mapBack y)) R := by
  induction h with
  | @intro T R e ts ts' htoks htoks' hfor hemb hinner ih =>
    intro loc hF
    -- each token met in the renamed text is alike to one that stands beside a token of `T`,
    -- whose span maps back from it
    have hbeside : ∀ {c v u c' x}, Scan.Reaches R c →
        Scan.next Rule.standard v c = .ok (some (u, c')) → u.span = some x →
        ∃ t u₀ c₀ c₀', (t, u₀) ∈ ts.zip ts' ∧ Substitution.Alike u₀ u ∧ u₀.span = some x ∧
          t.span = some (e.mapBack x) ∧ Scan.Reaches T c₀ ∧
          Scan.next Rule.standard vocab c₀ = .ok (some (t, c₀')) := by
      intro c v u c' x hc hn hx
      obtain ⟨u₀, hu₀, halike⟩ := hc.alike_mem hn vocab
      replace hu₀ : u₀ ∈ ts' := by simpa [htoks'] using hu₀
      obtain ⟨t, hmem⟩ : ∃ t, (t, u₀) ∈ ts.zip ts' := by
        obtain ⟨i, hi, rfl⟩ := List.getElem_of_mem hu₀
        have hlen := hfor.length_eq
        exact ⟨ts[i], List.mem_iff_getElem.mpr ⟨i, by simp [hlen, hi], by simp⟩⟩
      have ht : t ∈ (Scan.tokens Rule.standard vocab T).1 := by
        rw [htoks]
        exact (List.of_mem_zip hmem).1
      obtain ⟨c₀, c₀', hc₀, hn₀⟩ := Scan.reaches_of_mem_tokens ht
      have hx₀ : u₀.span = some x := halike.span_eq.trans hx
      have htx : t.span = some (e.mapBack x) := by
        rw [← (List.forall₂_zip hfor hmem).2.1, hx₀]
        rfl
      exact ⟨t, u₀, c₀, c₀', hmem, halike, hx₀, htx, hc₀, hn₀⟩
    refine .intro (fun c v u c' x hc hn hx => ?_) (fun c v u c' x hc hn hu hx v' hok => ?_)
    · obtain ⟨t, u₀, c₀, c₀', hmem, -, hx₀, ht, hc₀, hn₀⟩ := hbeside hc hn hx
      obtain ⟨y, b, b₁, hy, hP, hT, hs⟩ := hF.places hc₀ hn₀ ht
      obtain ⟨body, body', hb, hb', hg⟩ := (List.forall₂_zip hfor hmem).2.2 _ _ ht hx₀
      obtain rfl := hT.unique hb
      exact ⟨y, b, body', hy, hP, hb', hs.tail ⟨uid, hg⟩⟩
    · obtain ⟨t, u₀, c₀, c₀', hmem, halike, hx₀, ht, hc₀, hn₀⟩ := hbeside hc hn hx
      have hu₀ : u₀.isCode = true := halike.2.trans hu
      have htc : t.isCode = true := (List.forall₂_zip hfor hmem).1.isCode_of hu₀
      have htext : u.text = u₀.text := halike.text_eq.symm
      have hok₀ : (Scan.tokens Rule.standard vocab u₀.text).2 = none := by
        rw [Scan.tokens_stop_vocab vocab v', ← htext, hok]
      -- the code's text was renamed on its own, with the edits the outer record holds
      have hres := hinner t u₀ hmem htc (.inr hok₀)
      have hFu := ih t u₀ hmem htc (.inr hok₀) (hF.inner hc₀ hn₀ htc ht hres.tokens_ok)
      rw [htext]
      refine hFu.congr fun y hy => ?_
      obtain ⟨⟨a, b, -, hx₁⟩, -⟩ := hc.code_covers hn hu hx
      have hstop : y.stop ≤ utf8Length u.text.toList := htext ▸ hy.stop_le
      rw [hemb t u₀ hmem htc _ _ ht hx₀ y hy.1 (by rw [hx₁]; simp only; omega)]

/-- Hygiene keeps the placement of a text without a backslash right before a line break: the
renamed text is placed through the record of the renaming. -/
theorem hygiene {ops : Table} {uid : Nat} {o : Origin} {R : String} {E : Edits}
    (hT : NoEscapedBreak T.toList)
    (hF : ∀ v, (Scan.tokens Rule.standard v T).2 = none → Faithful P loc T)
    (hh : Evaluation.hygiene ops T uid o = .ok (R, E)) :
    Faithful P (fun y => loc (E.mapBack y)) R := by
  have hres := rescans_of_hygiene hh (hT.safe _)
  exact rescans hres (hF _ hres.tokens_ok)

end Faithful

-- ---------------------------------------------------------------------------
-- Texts below a text through quoted code
-- ---------------------------------------------------------------------------

namespace Evaluation

/-- The texts evaluation meets below the text `T₀`, evaluated from `o₀`, through quoted code
alone, each with the origin it is evaluated from: `T₀` itself, and the text of each piece of
quoted code that the scan of a renaming of one of them meets, placed where the code stands. -/
inductive Descends (T₀ : String) (o₀ : Origin) : String → Origin → Prop
  | refl : Descends T₀ o₀ T₀ o₀
  | code {T : String} {o : Origin} {ops : Table} {uid : Nat} {R : String} {E : Edits}
      {c c' : Cursor} {v : Vocabulary} {u : Token} :
      Descends T₀ o₀ T o → hygiene ops T uid o = .ok (R, E) → Scan.Reaches R c →
      Scan.next Rule.standard v c = .ok (some (u, c')) → u.isCode = true →
      Descends T₀ o₀ (place E o u).source (place E o u).textOrigin

theorem place_span (E : Edits) (o : Origin) (u : Token) :
    (place E o u).span = u.span.bind (Origin.within 0 E o).locate := by
  unfold place
  split <;> rfl

theorem place_isCode (E : Edits) (o : Origin) (u : Token) : (place E o u).isCode = u.isCode := by
  unfold place
  split <;> rfl

/-- Quoted code that a scan meets at `x` runs its own text, from where it stands in the text
scanned. -/
theorem place_code {R : String} {c c' : Cursor} {v : Vocabulary} {u : Token}
    (hc : Scan.Reaches R c) (hn : Scan.next Rule.standard v c = .ok (some (u, c')))
    (hu : u.isCode = true) {x : Span} (hx : u.span = some x) (E : Edits) (o : Origin) :
    (place E o u).source = u.text ∧ (place E o u).textOrigin = .within x.start E o := by
  have hv := (hc.code_covers hn hu hx).2
  simp [place, hu, hx, Token.source, Token.textOrigin, hv]

/-- Each level below a text whose origin puts every span at `sp` puts every span there too: it
maps back into the level above. -/
theorem Descends.locate_const {T₀ : String} {o₀ : Origin} {sp : Option Span}
    (h₀ : ∀ y, o₀.locate y = sp) {T : String} {o : Origin} (h : Descends T₀ o₀ T o) :
    ∀ y, o.locate y = sp := by
  induction h with
  | refl => exact h₀
  | code _ _ hc hn hu ih =>
    obtain ⟨x, -, hx, -⟩ := hc.covers hn
    rw [(place_code hc hn hu hx _ _).2]
    exact fun y => ih _

/-- Below a program without a backslash right before a line break, every text met through
quoted code has none either, and its origin places it in the program whenever it scans. The
induction is on the descent; each level of renaming is `Faithful.rescans`. -/
theorem Descends.faithful {P : String} (hP : NoEscapedBreak P.toList) {T : String} {o : Origin}
    (h : Descends P .source T o) :
    NoEscapedBreak T.toList ∧
      ∀ v, (Scan.tokens Rule.standard v T).2 = none → Faithful P.toList o.locate T := by
  induction h with
  | refl => exact ⟨hP, fun _ _ => Faithful.source P⟩
  | @code T o ops uid R E c c' v u _ hh hc hn hu ih =>
    obtain ⟨hT, hF⟩ := ih
    have hR := Faithful.hygiene hT hF hh
    obtain ⟨x, -, hx, -⟩ := hc.covers hn
    obtain ⟨hsource, horigin⟩ := place_code hc hn hu hx E o
    rw [hsource, horigin]
    refine ⟨?_, fun v' hok => hR.inner hc hn hu hx hok⟩
    -- the code's text is a run of the program with suffixes put in
    obtain ⟨y, b, b', -, hy, hx', hs⟩ := hR.places hc hn hx
    obtain rfl := hx'.unique (hc.code_covers hn hu hx).1
    exact hs.noEscapedBreak (hP.of_run hy.body_run)

/-- Evaluating `T` from `o` reports no span but `sp`: the errors of its hygiene and of the scan
of the renamed text carry no other span, and every token found there is placed at `sp`. -/
def ReportsOnly (sp : Option Span) (T : String) (o : Origin) : Prop :=
  (∀ ops uid e, hygiene ops T uid o = .error e → ∀ s, e.span = some s → sp = some s) ∧
    ∀ ops uid R E, hygiene ops T uid o = .ok (R, E) →
      (∀ c v e, Scan.Reaches R c → Scan.next Rule.standard v c = .error e →
        ∀ s, (e.relocate (Origin.within 0 E o).locate).span = some s → sp = some s) ∧
      ∀ c v u c', Scan.Reaches R c → Scan.next Rule.standard v c = .ok (some (u, c')) →
        (place E o u).span = sp

/-- A text whose origin puts every span at `sp` reports no other span. -/
theorem reportsOnly_of_locate {sp : Option Span} {T : String} {o : Origin}
    (h : ∀ y, o.locate y = sp) : ReportsOnly sp T o := by
  refine ⟨fun ops uid e he s hs => ?_, fun ops uid R E _ => ⟨fun c v e _ _ s hs => ?_,
    fun c v u c' hc hn => ?_⟩⟩
  · obtain ⟨e₀, rfl, -⟩ := hygiene_error_within he
    obtain ⟨x, -, hx⟩ := Option.bind_eq_some_iff.mp hs
    rw [← hx, h]
  · obtain ⟨x, -, hx⟩ := Option.bind_eq_some_iff.mp hs
    rw [← hx]
    exact (h _).symm
  · obtain ⟨x, -, hx, -⟩ := hc.covers hn
    rw [place_span, hx, Option.bind_some]
    exact h _

end Evaluation

/-- A token that came from no other text is evaluated from its own span, or from nowhere. -/
theorem Token.locate_textOrigin {t : Token} (h : t.origin = none) (y : Span) :
    t.textOrigin.locate y = t.span := by
  cases hs : t.span <;> simp [Token.textOrigin, h, hs, Origin.locate]

-- ---------------------------------------------------------------------------
-- Only quoted code carries an origin
-- ---------------------------------------------------------------------------

namespace Evaluation.Invariant

/-- Only quoted code carries an origin: every other token the machine holds, on its stack, in
its registers or as the code of a defined operator, came from no other text. -/
def codeCarriesOrigin : Invariant where
  machine m := (∀ t ∈ m.stack.toList, t.isCode = false → t.origin = none) ∧
    (∀ name t, m.memory.get? name = some t → t.isCode = false → t.origin = none) ∧
    ∀ name op, m.ops.get? name = some op → ∀ code, op.behaviour = .defined code →
      code.isCode = false → code.origin = none
  token t := t.isCode = false → t.origin = none
  caller _ := True
  text _ _ := True
  allowed _ := True
  stack _ hm := hm.1
  restack _ _ hm hs := ⟨hs, hm.2⟩
  load _ name t hm h := hm.2.1 name t h
  store _ name _ hm ht := ⟨hm.1, Directory.forall_get?_insert hm.2.1 name ht, hm.2.2⟩
  forget _ name hm := ⟨hm.1, Directory.forall_get?_erase hm.2.1 name, hm.2.2⟩
  code _ name op code hm h hb := hm.2.2 name op h code hb
  install _ name _ hm hop := ⟨hm.1, hm.2.1, Directory.forall_get?_insert hm.2.2 name hop⟩
  remove _ name hm := ⟨hm.1, hm.2.1, Directory.forall_get?_erase hm.2.2 name⟩
  print _ _ hm := hm
  count _ hm := hm
  symbol _ _ := rfl
  caller_of_token _ _ := trivial
  named _ _ := trivial
  source _ _ := trivial
  fault _ _ _ := trivial
  hygiene_error _ _ _ _ _ _ _ := trivial
  scan_error _ _ _ _ _ _ _ _ _ _ _ _ _ := trivial
  placed _ _ _ o _ E _ _ _ hc _ t _ hn := by
    refine ⟨trivial, fun _ hcode => ?_⟩
    -- a token that is not quoted code is placed with its own origin, and the scanner gives none
    have hkeep : place E o t = { t with span := t.span.bind (Origin.within 0 E o).locate } := by
      simp [place, show t.isCode = false by rwa [place_isCode] at hcode]
    rw [hkeep]
    exact (Scan.next_within hc.within hn).2.1

theorem codeCarriesOrigin_fresh : codeCarriesOrigin.machine {} :=
  Machine.fresh_tokens fun t => t.isCode = false → t.origin = none

end Evaluation.Invariant

/-- In every machine a session reaches, only quoted code carries an origin. -/
theorem Machine.Reachable.codeCarriesOrigin {m : Machine} (h : m.Reachable) :
    Evaluation.Invariant.codeCarriesOrigin.machine m :=
  (h.holds Evaluation.Invariant.codeCarriesOrigin_fresh fun _ => trivial).2

-- ---------------------------------------------------------------------------
-- The spans of a run
-- ---------------------------------------------------------------------------

/-- The spans a run reports trace back to the program. They lie inside it, their ends in order
and on character boundaries. When no backslash of the program stands right before a line break,
a token scanned from a text that descends from the program through quoted code alone, renamed
at every level, is placed on a run of the program that is the token's own run with the suffixes
of the renamings taken out. Text evaluated from a token that came from no other text (a string,
a number, or a value an operator made, as `pack` and `+` make) reports that token's span and no
other, so none when it has none; and in every machine a session reaches, every token that is
not quoted code, on the stack, in a register or as the code of an operator, is such a token. -/
theorem run_spans_trace_back (P : String) :
    ((∀ e, run P = .error e → ∀ s, e.span = some s → Span.Within P.toList s) ∧
      ∀ out, run P = .ok out →
        (∀ t ∈ out.stack, ∀ s, t.span = some s → Span.Within P.toList s) ∧
          ∀ entry ∈ out.memory, ∀ s, entry.2.span = some s → Span.Within P.toList s) ∧
    (NoEscapedBreak P.toList → ∀ T o, Evaluation.Descends P .source T o →
      ∀ ops uid R E, Evaluation.hygiene ops T uid o = .ok (R, E) →
        ∀ c v u c' x, Scan.Reaches R c → Scan.next Rule.standard v c = .ok (some (u, c')) →
          u.span = some x → ∃ y body body', (Evaluation.place E o u).span = some y ∧
            y.Covers P.toList 0 body ∧ x.Covers R.toList 0 body' ∧ Suffixed body body') ∧
    (∀ t₀ : Token, t₀.origin = none → ∀ T o, Evaluation.Descends t₀.source t₀.textOrigin T o →
      Evaluation.ReportsOnly t₀.span T o) ∧
    ∀ m : Machine, m.Reachable →
      (∀ t ∈ m.stack.toList, t.isCode = false → t.origin = none) ∧
      (∀ name t, m.memory.get? name = some t → t.isCode = false → t.origin = none) ∧
      ∀ name op, m.ops.get? name = some op → ∀ code, op.behaviour = .defined code →
        code.isCode = false → code.origin = none := by
  refine ⟨run_spans_within P, fun hP T o hdesc ops uid R E hh c v u c' x hc hn hx => ?_,
    fun t₀ ht₀ T o hdesc => ?_, fun m hm => hm.codeCarriesOrigin⟩
  · -- the renamed text is placed through its origin and the record of its renaming
    obtain ⟨hT, hF⟩ := hdesc.faithful hP
    rw [Evaluation.place_span, hx, Option.bind_some]
    simpa [Origin.locate] using (Faithful.hygiene hT hF hh).places hc hn hx
  · exact Evaluation.reportsOnly_of_locate (hdesc.locate_const (Token.locate_textOrigin ht₀))

end Concatenative
