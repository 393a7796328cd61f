import Mathlib.Data.List.Forall2
import Concatenative.Proofs.Vocabulary
import Concatenative.Proofs.Rewriting
import Concatenative.Machine.Evaluation

/-!
# Renaming locals and scanning again

Hygiene renames locals by a deep substitution that puts a suffix `@` and digits after each
renamed local, and evaluation then scans the renamed text. This module shows that the second
scan finds the tokens of the first one, in order: a renamed local becomes the word of its new
name, quoted code keeps its place with its contents renamed the same way, and every other token
comes back as it was, each over the run of its old token with the suffix grafted. The record of
the substitution maps each token's span back to the span of the token it comes from, and inside
quoted code it maps back as the record of renaming the code's text on its own, moved to where
the code stands (`Suffix.editsOf`, `Edits.EmbedsIn`).

The one case where this fails is a renamed local whose name ends in a backslash right before a
line break (`Suffix.Safe` rules it out): inside a string the backslash would escape the suffix.

## Main results

* `walk_rescans` — the walk over the tokens of a text, step by step beside the scan of the text
  it writes.
* `nested_rescans` — a deep substitution with the renaming, at every level of quoted code.
* `Suffix.Rescans.refl` — a text nothing renames scans again to itself.
-/

namespace Concatenative

-- ---------------------------------------------------------------------------
-- The renaming and what it should give
-- ---------------------------------------------------------------------------

/-- Inside the span `x'` of a new text, the map `back` to the old text is the record `inner`,
moved from `x'` to the span `x` of the old text: the record of a text edited piece by piece
holds the record of each piece. -/
def Edits.EmbedsIn (inner : Edits) (back : Span → Span) (x x' : Span) : Prop :=
  ∀ y : Span, y.start ≤ y.stop → x'.start + y.stop ≤ x'.stop →
    back (y.shift x'.start) = (inner.mapBack y).shift x.start

namespace Suffix

/-- The replacer that puts the suffix after every local named in `renamed`. -/
def rename (s : Suffix) (renamed : String → Bool) (t : Token) : Option String :=
  if t.kind == .localName && renamed t.text then some (t.text ++ String.ofList s.chars) else none

/-- No renamed local in `text` ends in a backslash right before a line break. -/
def Safe (renamed : String → Bool) (text : List Char) : Prop :=
  ∀ name : List Char, renamed (String.ofList name) = true → name.getLast? = some '\\' →
    ¬ (name ++ ['\n']) <:+: text

theorem Safe.infix {renamed : String → Bool} {text inner : List Char} (h : Safe renamed text)
    (hin : inner <:+: text) : Safe renamed inner :=
  fun name hname hlast hinner => h name hname hlast (hinner.trans hin)

/-- How a token of the renamed text stands to the token it comes from. -/
inductive Renames (s : Suffix) (vocab : Vocabulary) (renamed : String → Bool) :
    Token → Token → Prop
  /-- A token that is not renamed and holds no code keeps everything but its span. -/
  | keep {t : Token} (sp : Option Span) : s.rename renamed t = none → t.isCode = false →
      Renames s vocab renamed t { t with span := sp }
  /-- A renamed local becomes the word of its new name. -/
  | graft {t : Token} {r : String} (sp : Span) : s.rename renamed t = some r →
      Renames s vocab renamed t (Rule.wordToken vocab r sp)
  /-- Quoted code keeps its kind and tags; its text is renamed inside. -/
  | code {t : Token} (text : String) (sp : Option Span) : s.rename renamed t = none →
      t.isCode = true → Grafted s t.text.toList text.toList →
      Renames s vocab renamed t { t with value := .string text, span := sp }

/-- The edits of renaming `text` on its own, at every depth, or none when that renaming
fails. -/
def editsOf (s : Suffix) (vocab : Vocabulary) (renamed : String → Bool) (text : String) : Edits :=
  match (Substitution.run Rule.standard vocab (s.rename renamed) true text).2 with
  | .ok (_, e) => e
  | .error _ => {}

/-- A token of the old text and the token of the new text that stands for it: the run the second
one's span covers, counted from byte `nb`, is the run the first one's covers, counted from byte
`ob`, with the suffix grafted. -/
def Relexed (s : Suffix) (old : List Char) (ob : Nat) (new : List Char) (nb : Nat)
    (t t' : Token) : Prop :=
  ∀ x x', t.span = some x → t'.span = some x' →
    ∃ body body', x.Covers old ob body ∧ x'.Covers new nb body' ∧ Grafted s body body'

/-- `text'` scans to the tokens of `text`, one for one: each token of `text'` renames the token
of `text` it stands beside, the edits `e` map its span back onto that token's span, and its
span covers that token's run with the suffix grafted. Inside quoted code, `e` maps back as the
edits of renaming the code's text on its own do, moved to where the code stands; and the same
holds of that text and what it became, with those edits, as long as one of the two scans. -/
inductive Rescans (s : Suffix) (vocab : Vocabulary) (renamed : String → Bool) :
    String → String → Edits → Prop
  | intro {text text' : String} {e : Edits} {ts ts' : List Token} :
      Scan.tokens Rule.standard vocab text = (ts, none) →
      Scan.tokens Rule.standard vocab text' = (ts', none) →
      List.Forall₂ (fun t t' => s.Renames vocab renamed t t' ∧ t'.span.map e.mapBack = t.span ∧
        s.Relexed text.toList 0 text'.toList 0 t t') ts ts' →
      (∀ t t', (t, t') ∈ ts.zip ts' → t.isCode = true → ∀ x x', t.span = some x →
        t'.span = some x' → (s.editsOf vocab renamed t.text).EmbedsIn e.mapBack x x') →
      (∀ t t', (t, t') ∈ ts.zip ts' → t.isCode = true →
        (Scan.tokens Rule.standard vocab t.text).2 = none ∨
          (Scan.tokens Rule.standard vocab t'.text).2 = none →
        Rescans s vocab renamed t.text t'.text (s.editsOf vocab renamed t.text)) →
      Rescans s vocab renamed text text' e

end Suffix

-- ---------------------------------------------------------------------------
-- Scanning facts
-- ---------------------------------------------------------------------------

namespace Scan

variable {vocab : Vocabulary}

/-- Skipped text lies between the two cursors. -/
theorem Skips.rest_eq {c c₀ : Cursor} (h : Skips vocab c c₀) :
    ∃ pre, c.rest = pre ++ c₀.rest ∧ c₀.offset = c.offset + utf8Length pre := by
  induction h with
  | refl c => exact ⟨[], rfl, by simp⟩
  | step hne hs _ ih =>
    obtain ⟨skip, body, close, hrest, hoff, -⟩ := scan_laid hne hs
    obtain ⟨pre, hpre, hoff'⟩ := ih
    refine ⟨skip ++ body ++ close ++ pre, by rw [hrest, hpre]; simp, ?_⟩
    rw [hoff', hoff]
    simp only [utf8Length_append]
    omega

end Scan

namespace Laid

/-- The spans of tokens laid out from byte `off` start there or later. -/
theorem span_le {cs : List Char} {off : Nat} {ts : List Token} (h : Laid cs off ts) :
    ∀ t ∈ ts, ∀ sp, t.span = some sp → off ≤ sp.start ∧ sp.start ≤ sp.stop := by
  induction h with
  | nil => simp
  | @cons gap body rest off t ts hspan _ _ _ ih =>
    intro t' ht' sp hsp
    rcases List.mem_cons.mp ht' with rfl | ht'
    · rw [hspan, Option.some.injEq] at hsp
      subst hsp
      exact ⟨Nat.le_add_right _ _, Nat.le_add_right _ _⟩
    · have := ih t' ht' sp hsp
      omega

/-- Quoted code laid out over `cs` holds a string shorter than `cs`. -/
theorem code_text {cs : List Char} {off : Nat} {ts : List Token} (h : Laid cs off ts) :
    ∀ t ∈ ts, t.isCode = true → t.value = .string t.text ∧ t.text.length < cs.length := by
  induction h with
  | nil => simp
  | @cons gap body rest off t ts _ hcode hscan _ ih =>
    intro t' ht' hc
    rcases List.mem_cons.mp ht' with rfl | ht'
    · have hv := (hscan.code hc).1
      have hgap := List.length_pos_iff.mpr (hcode hc)
      refine ⟨by simp [Token.text, hv, Value.text], ?_⟩
      simp only [Token.text, hv, Value.text, String.length_ofList, List.length_append]
      omega
    · have := ih t' ht' hc
      simp only [List.length_append]
      exact ⟨this.1, by omega⟩

end Laid

theorem Edits.mapBack_empty (sp : Span) : ({} : Edits).mapBack sp = sp := by
  simp [Edits.mapBack_eq, Edits.locateIn]

/-- A record with no splice maps every span to itself. -/
theorem Edits.mapBack_of_size_zero {e : Edits} (h : e.size = 0) (sp : Span) :
    e.mapBack sp = sp := by
  obtain ⟨splices⟩ := e
  obtain rfl : splices = #[] := Array.size_eq_zero_iff.mp h
  exact Edits.mapBack_empty sp

-- ---------------------------------------------------------------------------
-- Nothing renamed
-- ---------------------------------------------------------------------------

namespace Suffix

variable {s : Suffix} {vocab : Vocabulary} {renamed : String → Bool}

theorem rename_eq_some {t : Token} {r : String} (h : s.rename renamed t = some r) :
    t.kind = .localName ∧ renamed t.text = true ∧ r = t.text ++ String.ofList s.chars := by
  simp only [rename] at h
  split_ifs at h with hk
  simp only [Bool.and_eq_true, beq_iff_eq] at hk
  exact ⟨hk.1, hk.2, (Option.some.inj h).symm⟩

/-- The edits of a renaming that succeeds are its own. -/
theorem editsOf_eq {text text' : String} {e : Edits}
    (h : (Substitution.run Rule.standard vocab (s.rename renamed) true text).2 = .ok (text', e)) :
    s.editsOf vocab renamed text = e := by
  rw [editsOf, h]

/-- Renaming nothing edits nothing. -/
theorem editsOf_none (hnone : ∀ x, renamed x = false) (text : String) :
    s.editsOf vocab renamed text = {} := by
  rcases h : (Substitution.run Rule.standard vocab (s.rename renamed) true text).2 with
    e | ⟨text', e⟩
  · rw [editsOf, h]
  · rw [editsOf_eq h]
    exact (Substitution.run_unchanged (fun t => by simp [rename, hnone]) h).2

/-- Quoted code whose text stays stands for itself, wherever it is placed. -/
theorem Renames.code_self {t : Token} (hr : s.rename renamed t = none) (hc : t.isCode = true)
    (hv : t.value = .string t.text) (sp : Option Span) :
    s.Renames vocab renamed t { t with span := sp } := by
  have h := @Renames.code s vocab renamed t t.text sp hr hc (Grafted.refl _)
  rwa [← hv] at h

/-- A token that nothing renamed stands for itself. -/
theorem Renames.self {t : Token} (hr : s.rename renamed t = none)
    (hcode : t.isCode = true → t.value = .string t.text) : s.Renames vocab renamed t t := by
  cases hc : t.isCode
  · exact Renames.keep t.span hr hc
  · exact Renames.code_self hr hc (hcode hc) t.span

/-- Runs standing after `pre` and `pre'` still cover the same runs in the longer texts. -/
theorem Relexed.prepend {old new : List Char} {ob nb : Nat} {t t' : Token} (pre pre' : List Char)
    (h : s.Relexed old (ob + utf8Length pre) new (nb + utf8Length pre') t t') :
    s.Relexed (pre ++ old) ob (pre' ++ new) nb t t' := by
  intro x x' hx hx'
  obtain ⟨body, body', hb, hb', hg⟩ := h x x' hx hx'
  exact ⟨body, body', hb.prepend pre, hb'.prepend pre', hg⟩

/-- A text that scans, when nothing is renamed, scans again to itself, at every depth. The
induction is on a bound of the text's length: quoted code is shorter than its text. -/
theorem Rescans.refl (hnone : ∀ x, renamed x = false) :
    ∀ (n : Nat) (text : String), text.length < n →
      (Scan.tokens Rule.standard vocab text).2 = none → s.Rescans vocab renamed text text {}
  | 0, _, hn, _ => absurd hn (Nat.not_lt_zero _)
  | n + 1, text, hn, hok => by
    rcases htoks : Scan.tokens Rule.standard vocab text with ⟨ts, stop⟩
    rw [htoks] at hok
    subst hok
    have hlaid := Scan.tokens_laid vocab text
    rw [htoks] at hlaid
    have hr : ∀ t : Token, s.rename renamed t = none := fun t => by simp [rename, hnone]
    have hsame : ∀ t t', (t, t') ∈ ts.zip ts → t = t' :=
      fun t t' hmem => List.forall₂_zip (List.forall₂_same.mpr fun _ _ => rfl) hmem
    refine .intro htoks htoks ?_ ?_ ?_
    · refine List.forall₂_same.mpr fun t ht => ⟨Renames.self (hr t) ?_, ?_, ?_⟩
      · exact fun hc => (hlaid.code_text t ht hc).1
      · cases t.span <;> simp [Edits.mapBack_empty]
      · intro x x' hx hx'
        obtain rfl : x = x' := Option.some.inj (hx.symm.trans hx')
        obtain ⟨body, hb, -⟩ := hlaid.covers t ht x hx
        exact ⟨body, body, hb, hb, Grafted.refl body⟩
    · intro t t' hmem _ x x' hx hx' y _ _
      obtain rfl := hsame t t' hmem
      obtain rfl : x = x' := Option.some.inj (hx.symm.trans hx')
      simp [editsOf_none hnone, Edits.mapBack_empty]
    · intro t t' hmem hc hok'
      obtain rfl := hsame t t' hmem
      have hlen := (hlaid.code_text t (List.of_mem_zip hmem).1 hc).2
      rw [String.length_toList] at hlen
      rw [editsOf_none hnone]
      exact Rescans.refl hnone n t.text (by omega) (hok'.elim id id)

end Suffix

-- ---------------------------------------------------------------------------
-- Stretches that graft the suffix
-- ---------------------------------------------------------------------------

namespace Stretch

/-- Where a span of the new text lands in the old one, through stretches laid out from byte `nb`
of the new text and byte `ob` of the old. -/
def mapSpan (nb ob : Nat) (ss : List Stretch) (sp : Span) : Span :=
  ⟨locate nb ob ss sp.start false, locate nb ob ss sp.stop true⟩

theorem mem_widen {pre : List Char} {ss : List Stretch} {s : Stretch} (h : s ∈ widen pre ss) :
    ∃ s₀ ∈ ss, s.old = s₀.old ∧ s.new = s₀.new := by
  cases ss with
  | nil => simp [widen] at h
  | cons s₀ ss =>
    rcases List.mem_cons.mp h with rfl | h
    · exact ⟨s₀, List.mem_cons_self .., rfl, rfl⟩
    · exact ⟨s, List.mem_cons_of_mem _ h, rfl, rfl⟩

/-- Stretches that each append `sfx` grow the text. -/
theorem utf8Length_before_le {sfx : List Char} :
    ∀ {ss : List Stretch}, (∀ s ∈ ss, s.new = s.old ++ sfx) →
      utf8Length (ss.flatMap before) ≤ utf8Length (ss.flatMap after)
  | [], _ => by simp
  | s :: ss, h => by
    have ih := utf8Length_before_le fun t ht => h t (List.mem_cons_of_mem _ ht)
    simp only [List.flatMap_cons, utf8Length_append, utf8Length_before, utf8Length_after,
      h s (List.mem_cons_self ..)]
    omega

/-- A span inside a widened piece, mapped back through the stretches from the piece on, is where
the piece's own edits map it back to, moved to where the piece starts in the old text. -/
theorem mapSpan_nested {ie : Edits} {iss post : List Stretch}
    (his : ie.splices.toList = splicesOf 0 iss) (hiss : iss ≠ []) {k : Nat}
    (hpost : ∀ s ∈ post.head?, k ≤ utf8Length s.gap ∧ s.new ≠ []) (nb ob : Nat) (g : List Char)
    {y : Span} (hy : y.start ≤ y.stop) (hk : y.stop ≤ utf8Length (iss.flatMap after) + k) :
    mapSpan nb ob (widen g iss ++ post) (y.shift (nb + utf8Length g)) =
      (ie.mapBack y).shift (ob + utf8Length g) := by
  rw [Edits.mapBack_eq_locate his]
  simp only [mapSpan, Span.shift, Nat.add_comm _ (nb + utf8Length g)]
  rw [locate_nested false hiss hpost _ _ _ (by omega), locate_nested true hiss hpost _ _ _ hk]
  simp only [Span.mk.injEq]
  omega

end Stretch

namespace Suffix

variable {s : Suffix} {vocab : Vocabulary} {renamed : String → Bool}

/-- A token of the renamed text beside the token of the old text it comes from: it renames it,
and its span lands on the old token's span through the stretches `ss` laid out from bytes `nb`
and `ob`. Quoted code scans again to the old code's tokens with the edits of renaming its text
on its own, and inside the code the stretches map back as those edits do, moved to where the
code stands. -/
def Follows (s : Suffix) (vocab : Vocabulary) (renamed : String → Bool) (nb ob : Nat)
    (ss : List Stretch) (t t' : Token) : Prop :=
  s.Renames vocab renamed t t' ∧ t'.span.map (Stretch.mapSpan nb ob ss) = t.span ∧
    (t.isCode = true → s.Rescans vocab renamed t.text t'.text (s.editsOf vocab renamed t.text) ∧
      ∀ x x', t.span = some x → t'.span = some x' →
        (s.editsOf vocab renamed t.text).EmbedsIn (Stretch.mapSpan nb ob ss) x x')

/-- A token past some stretches that each insert text follows through the stretches after
them. -/
theorem Follows.append {nb ob : Nat} {pre post : List Stretch} {t t' : Token}
    (hnew : ∀ st ∈ pre, st.new ≠ [])
    (hsp : ∀ sp, t'.span = some sp →
      nb + utf8Length (pre.flatMap Stretch.after) ≤ sp.start ∧ sp.start ≤ sp.stop)
    (h : s.Follows vocab renamed (nb + utf8Length (pre.flatMap Stretch.after))
      (ob + utf8Length (pre.flatMap Stretch.before)) post t t') :
    s.Follows vocab renamed nb ob (pre ++ post) t t' := by
  -- from the first stretch of `post` on, both layouts place a position alike
  have hmap : ∀ y : Span, nb + utf8Length (pre.flatMap Stretch.after) ≤ y.start → y.start ≤ y.stop →
      Stretch.mapSpan nb ob (pre ++ post) y =
        Stretch.mapSpan (nb + utf8Length (pre.flatMap Stretch.after))
          (ob + utf8Length (pre.flatMap Stretch.before)) post y := fun y h1 h2 => by
    simp only [Stretch.mapSpan, Stretch.locate_append false post nb ob pre _ hnew h1,
      Stretch.locate_append true post nb ob pre _ hnew (Nat.le_trans h1 h2)]
  refine ⟨h.1, ?_, fun hc => ⟨(h.2.2 hc).1, fun x x' hx hx' y hy hy' => ?_⟩⟩
  · rw [← h.2.1]
    cases hs : t'.span with
    | none => rfl
    | some sp =>
      obtain ⟨h1, h2⟩ := hsp sp hs
      rw [Option.map_some, Option.map_some, hmap sp h1 h2]
  · obtain ⟨h1, -⟩ := hsp x' hx'
    rw [hmap _ (by simp only [Span.shift]; omega) (by simp only [Span.shift]; omega)]
    exact (h.2.2 hc).2 x x' hx hx' y hy hy'

/-- What a deep substitution with the renaming made of the text `old`: the text `new` and the
record `e`, laid out as stretches that each append the suffix; `new` is `old` grafted, and it
scans again to `old`'s tokens. -/
def RenamedTo (s : Suffix) (vocab : Vocabulary) (renamed : String → Bool) (old : List Char)
    (new : String) (e : Edits) : Prop :=
  (∃ ss tail, e.splices.toList = splicesOf 0 ss ∧ old = ss.flatMap Stretch.before ++ tail ∧
      new.toList = ss.flatMap Stretch.after ++ tail ∧ ∀ st ∈ ss, st.new = st.old ++ s.chars) ∧
    Grafted s old new.toList ∧ s.Rescans vocab renamed (String.ofList old) new e

/-- Where the walk stands beside the scan of the old text at cursor `c`: the walk holds the
stretches `ss` and the tail `tail`, its rest is `pend` (a closing parenthesis the scan has
passed) followed by the cursor's rest, and the new text is `d` bytes longer than the old so
far. -/
structure Aligned (renamed : String → Bool) (n : Nat) (c : Cursor) (p : Substitution.Progress)
    (ss : List Stretch) (tail pend : List Char) (d : Nat) : Prop where
  holds : p.Holds ss tail
  rest : p.rest = pend ++ c.rest
  offset : c.offset = p.copied + utf8Length pend
  out : utf8Length p.out.toList = p.copied + d
  length : p.rest.length ≤ n
  safe : Safe renamed p.rest

/-- What a walk over `ts` that ended at `p'` gave: more stretches, each appending the suffix,
after the first of which the tail still stands; a new text whose rest `Y'` is the cursor's rest
grafted; and the scan of `Y'`, moved by `d` bytes, finds tokens that follow `ts` one for one,
each over a run of `Y'` that is its old token's run grafted. -/
def Rewalked (s : Suffix) (vocab : Vocabulary) (renamed : String → Bool) (ts : List Token)
    (c : Cursor) (p p' : Substitution.Progress) (ss : List Stretch) (tail pend : List Char)
    (d : Nat) : Prop :=
  ∃ Y' ts' ss' tail', p'.Holds (ss ++ ss') tail' ∧
    tail ++ p.rest = ss'.flatMap Stretch.before ++ tail' ++ p'.rest ∧
    p'.out.toList ++ p'.rest = p.out.toList ++ pend ++ Y' ∧ Grafted s c.rest Y' ∧
    Scan.tokens.go Rule.standard vocab ⟨c.offset + d, Y'⟩ = (ts', none) ∧
    List.Forall₂ (s.Follows vocab renamed (utf8Length (ss.flatMap Stretch.after))
      (utf8Length (ss.flatMap Stretch.before)) ss') ts ts' ∧
    List.Forall₂ (s.Relexed c.rest c.offset Y' (c.offset + d)) ts ts' ∧
    (∀ st ∈ ss', st.new = st.old ++ s.chars) ∧ (∀ st ∈ ss'.head?, tail <+: st.gap)

/-- Every walk over `ts` from `p` that succeeds gives what `Rewalked` says. -/
def Rewalks (s : Suffix) (vocab : Vocabulary) (renamed : String → Bool)
    (inner : String → List Token × Except Error (String × Edits)) (ts : List Token) (c : Cursor)
    (p : Substitution.Progress) (ss : List Stretch) (tail pend : List Char) (d : Nat) : Prop :=
  ∀ seen p', Substitution.walk (s.rename renamed) true inner ts p = (seen, .ok p') →
    s.Rewalked vocab renamed ts c p p' ss tail pend d

theorem utf8Length_le_append (a r : List Char) : utf8Length a ≤ utf8Length (a ++ r) := by
  simp [utf8Length_append]

/-- The first of stretches that each append the suffix inserts text, and a position up to the
end of what stands before its gap lies in the gap. -/
theorem head_within {ss : List Stretch} {pre : List Char}
    (hgrow : ∀ st ∈ ss, st.new = st.old ++ s.chars) (hhead : ∀ st ∈ ss.head?, pre <+: st.gap)
    {k : Nat} (hk : k ≤ utf8Length pre) :
    ∀ st ∈ ss.head?, k ≤ utf8Length st.gap ∧ st.new ≠ [] := by
  intro st hst
  obtain ⟨r, hr⟩ := hhead st hst
  refine ⟨Nat.le_trans hk (hr ▸ utf8Length_le_append pre r), ?_⟩
  rw [hgrow st (List.mem_of_mem_head? hst)]
  simp [Suffix.chars]

section Steps

variable {inner : String → List Token × Except Error (String × Edits)} {n : Nat}
  {t : Token} {ts : List Token} {c c₁ : Cursor} {p p' : Substitution.Progress}
  {ss : List Stretch} {tail pend : List Char} {d : Nat}

/-- What stands after a run of the walk's rest is no longer than the rest, and as safe. -/
theorem Aligned.suffix (ha : Aligned renamed n c p ss tail pend d) {rest : List Char}
    (h : rest <:+ p.rest) : rest.length ≤ n ∧ Safe renamed rest :=
  ⟨h.length_le.trans ha.length, ha.safe.infix h.isInfix⟩

/-- The end of the walk: the scan of the old text found nothing more, nor does the scan of the
new. -/
theorem rewalks_nil (ha : Aligned renamed n c p ss tail pend d)
    (htoks : Scan.tokens.go Rule.standard vocab c = ([], none)) :
    s.Rewalks vocab renamed inner [] c p ss tail pend d := by
  intro seen p' hwalk
  rw [Substitution.walk, Prod.mk.injEq, Except.ok.injEq] at hwalk
  obtain ⟨-, rfl⟩ := hwalk
  have hnone := Scan.next_none_shift (Scan.next_of_tokens_go_nil htoks) d
  refine ⟨c.rest, [], [], tail, by simpa using ha.holds, by simp, by rw [ha.rest]; simp,
    Grafted.refl _, Scan.tokens_go_none hnone, .nil, .nil, by simp, by simp⟩

/-- A token the walk copies as it was (one nothing renames, or quoted code nothing inside
changed), laid out after the run `pre` and, for code, followed by the run `close`: the scan of
the new text finds it moved by `d` bytes. -/
theorem rewalked_keep (ha : Aligned renamed n c p ss tail pend d)
    (ih : ∀ {p₁ : Substitution.Progress} {ss₁ : List Stretch} {tail₁ pend₁ : List Char}
      {d₁ : Nat}, Aligned renamed n c₁ p₁ ss₁ tail₁ pend₁ d₁ →
        s.Rewalks vocab renamed inner ts c₁ p₁ ss₁ tail₁ pend₁ d₁)
    (hnext : Scan.next Rule.standard vocab c = .ok (some (t, c₁)))
    {pre body close : List Char} (hcrest : c.rest = pre ++ body ++ close ++ c₁.rest)
    (hoff₁ : c₁.offset = c.offset + utf8Length (pre ++ body ++ close))
    (hspan : t.span = some ⟨c.offset + utf8Length pre, c.offset + utf8Length pre + utf8Length body⟩)
    (hself : s.Renames vocab renamed t (t.shift d))
    (hinner : t.isCode = true → s.Rescans vocab renamed t.text t.text
      (s.editsOf vocab renamed t.text) ∧ (s.editsOf vocab renamed t.text).size = 0)
    {seen₁ : List Token}
    (hw : Substitution.walk (s.rename renamed) true inner ts
      ⟨p.out ++ String.ofList (pend ++ pre) ++ String.ofList body, close ++ c₁.rest,
        p.copied + utf8Length (pend ++ pre) + utf8Length body, p.edits⟩ = (seen₁, .ok p')) :
    s.Rewalked vocab renamed (t :: ts) c p p' ss tail pend d := by
  have hout := ha.holds.out
  have hcopied := ha.holds.copied
  have hout' := ha.out
  have hoff := ha.offset
  rw [hout] at hout'
  have hoff₁' := hoff₁
  simp only [utf8Length_append] at hout' hcopied hoff₁
  -- the walk past the token stands where the scan does
  have ha₁ : Aligned renamed n c₁
      ⟨p.out ++ String.ofList (pend ++ pre) ++ String.ofList body, close ++ c₁.rest,
        p.copied + utf8Length (pend ++ pre) + utf8Length body, p.edits⟩
      ss (tail ++ (pend ++ pre) ++ body) close d := by
    have hsuf : close ++ c₁.rest <:+ p.rest :=
      ⟨pend ++ pre ++ body, by rw [ha.rest, hcrest]; simp⟩
    refine ⟨ha.holds.keep, rfl, ?_, ?_, (ha.suffix hsuf).1, (ha.suffix hsuf).2⟩
    · simp only [utf8Length_append]
      omega
    · simp only [String.toList_append, String.toList_ofList, utf8Length_append, hout]
      omega
  obtain ⟨Y₁, ts₁, ss₂, tail₂, hh, hold, hnew, hg, htoks, hfol, hrel, hgrow, hhead⟩ :=
    ih ha₁ seen₁ p' hw
  have hn : Scan.next Rule.standard vocab ⟨c.offset, (pre ++ body ++ close) ++ c₁.rest⟩ =
      .ok (some (t, ⟨c₁.offset, c₁.rest⟩)) := by
    rw [← hcrest]
    exact hnext
  -- the token lies in the gap before the next stretch, where positions keep their distance
  have hgap : ∀ q atEnd, c.offset + utf8Length pre + d ≤ q →
      q ≤ c.offset + utf8Length pre + utf8Length body + d →
      Stretch.locate (utf8Length (ss.flatMap Stretch.after))
        (utf8Length (ss.flatMap Stretch.before)) ss₂ q atEnd = q - d := by
    intro q atEnd hq₁ hq₂
    have hk := head_within hgrow hhead (k := q - utf8Length (ss.flatMap Stretch.after))
      (by simp only [utf8Length_append]; omega)
    have e : q = utf8Length (ss.flatMap Stretch.after) +
        (q - utf8Length (ss.flatMap Stretch.after)) := by omega
    rw [e, Stretch.locate_within atEnd hk]
    omega
  refine ⟨pre ++ body ++ close ++ Y₁, t.shift d :: ts₁, ss₂, tail₂, hh, ?_, ?_, ?_, ?_,
    .cons ⟨hself, ?_, fun hc => ⟨(hinner hc).1, ?_⟩⟩ hfol, .cons ?_ ?_, hgrow, ?_⟩
  · rw [ha.rest, hcrest]
    simpa [List.append_assoc] using hold
  · rw [hnew]
    simp [List.append_assoc]
  · rw [hcrest]
    exact hg.prepend (pre ++ body ++ close)
  · rw [Scan.tokens_go_next (Scan.next_keep hn hg), htoks]
  · simp only [Token.shift, hspan, Option.map_some, Span.shift, Stretch.mapSpan]
    rw [hgap _ false (by omega) (by omega), hgap _ true (by omega) (by omega)]
    simp only [Option.some.injEq, Span.mk.injEq]
    omega
  · -- code kept as it was: inside it the stretches map back as the edits of no renaming
    intro x x' hx hx' y hy hy'
    rw [hspan, Option.some.injEq] at hx
    subst hx
    simp only [Token.shift, hspan, Option.map_some, Option.some.injEq] at hx'
    subst hx'
    rw [Edits.mapBack_of_size_zero (hinner hc).2]
    simp only [Span.shift, Stretch.mapSpan] at hy' ⊢
    rw [hgap _ false (by omega) (by omega), hgap _ true (by omega) (by omega)]
    simp only [Span.mk.injEq]
    omega
  · intro x x' hx hx'
    rw [hspan, Option.some.injEq] at hx
    simp only [Token.shift, hspan, Option.map_some, Option.some.injEq] at hx'
    subst hx hx'
    exact ⟨body, body, ⟨pre, close ++ c₁.rest, by rw [hcrest]; simp, rfl⟩,
      ⟨pre, close ++ Y₁, by simp, by simp only [Span.shift]; congr 1 <;> omega⟩, Grafted.refl _⟩
  · -- the tokens after it cover the same runs, counted from further back
    rw [hcrest]
    refine List.Forall₂.imp (fun _ _ h => Relexed.prepend (pre ++ body ++ close)
      (pre ++ body ++ close) ?_) hrel
    rwa [← hoff₁', show c.offset + d + utf8Length (pre ++ body ++ close) = c₁.offset + d by
      rw [hoff₁']; omega]
  · intro st hst
    exact List.IsPrefix.trans ⟨(pend ++ pre) ++ body, by simp⟩ (hhead st hst)

/-- Tokens laid out past some stretches that each insert text follow through the stretches
after them. -/
theorem Follows.forall₂_append {nb ob : Nat} (pre : List Stretch) {post : List Stretch}
    {ts ts' : List Token} (hnew : ∀ st ∈ pre, st.new ≠ [])
    (hsp : ∀ t' ∈ ts', ∀ sp, t'.span = some sp →
      nb + utf8Length (pre.flatMap Stretch.after) ≤ sp.start ∧ sp.start ≤ sp.stop)
    (h : List.Forall₂ (s.Follows vocab renamed (nb + utf8Length (pre.flatMap Stretch.after))
      (ob + utf8Length (pre.flatMap Stretch.before)) post) ts ts') :
    List.Forall₂ (s.Follows vocab renamed nb ob (pre ++ post)) ts ts' := by
  induction h with
  | nil => exact .nil
  | cons hf _ ih =>
    exact .cons (Follows.append hnew (hsp _ (List.mem_cons_self ..)) hf)
      (ih fun t' ht' => hsp t' (List.mem_cons_of_mem _ ht'))

@[simp] theorem wordToken_span (word : String) (sp : Span) :
    (Rule.wordToken vocab word sp).span = some sp := by
  unfold Rule.wordToken
  split <;> rfl

/-- A renamed local, laid out after the run `pre`: the scan of the new text finds the word of
its new name, over the local and the suffix, and the suffix opens a stretch of its own. -/
theorem rewalked_graft (ha : Aligned renamed n c p ss tail pend d)
    (ih : ∀ {p₁ : Substitution.Progress} {ss₁ : List Stretch} {tail₁ pend₁ : List Char}
      {d₁ : Nat}, Aligned renamed n c₁ p₁ ss₁ tail₁ pend₁ d₁ →
        s.Rewalks vocab renamed inner ts c₁ p₁ ss₁ tail₁ pend₁ d₁)
    {pre name : List Char}
    (hsk : Scan.Skips vocab c ⟨c.offset + utf8Length pre, ('@' :: name) ++ c₁.rest⟩)
    (hcrest : c.rest = pre ++ ('@' :: name) ++ c₁.rest)
    (hoff₁ : c₁.offset = c.offset + utf8Length (pre ++ '@' :: name))
    (hspan : t.span = some ⟨c.offset + utf8Length pre,
      c.offset + utf8Length pre + utf8Length ('@' :: name)⟩)
    (hname : Rule.IsName name) (hhead : ∀ x ∈ c₁.rest.head?, Rule.isWordChar x = false)
    (htext : t.text = String.ofList ('@' :: name)) (hcode : t.isCode = false)
    {r : String} (hr : s.rename renamed t = some r) {seen₁ : List Token}
    (hw : Substitution.walk (s.rename renamed) true inner ts
      ⟨p.out ++ String.ofList (pend ++ pre) ++ r, c₁.rest,
        p.copied + utf8Length (pend ++ pre) + utf8Length ('@' :: name),
        p.edits.push ⟨(p.out ++ String.ofList (pend ++ pre)).utf8ByteSize,
          utf8Length ('@' :: name), r.utf8ByteSize⟩⟩ = (seen₁, .ok p')) :
    s.Rewalked vocab renamed (t :: ts) c p p' ss tail pend d := by
  obtain ⟨-, hren, rfl⟩ := rename_eq_some hr
  rw [htext] at hren
  rw [htext, ← String.ofList_append] at hr hw
  -- the safety of the text keeps a line break from following a backslash the suffix ends
  have hdelim : Rule.Delimits name c₁.rest := by
    refine ⟨hhead, fun hlast hnl => ?_⟩
    obtain ⟨rest', hrest'⟩ : ∃ rest', c₁.rest = '\n' :: rest' := by
      cases h : c₁.rest with
      | nil => simp [h] at hnl
      | cons x rest' => simp_all
    refine ha.safe _ hren (by simp [List.getLast?_cons, hlast]) ⟨pend ++ pre, rest', ?_⟩
    rw [ha.rest, hcrest, hrest']
    simp
  have hout := ha.holds.out
  have hcopied := ha.holds.copied
  have hout' := ha.out
  have hoff := ha.offset
  rw [hout] at hout'
  simp only [utf8Length_append, utf8Length_cons] at hout' hcopied hoff₁ hoff
  have hpos : 0 < utf8Length s.chars := by
    simp only [Suffix.chars, utf8Length_cons]
    have := Char.utf8Size_pos '@'
    omega
  have ha₁ : Aligned renamed n c₁
      ⟨p.out ++ String.ofList (pend ++ pre) ++ String.ofList (('@' :: name) ++ s.chars),
        c₁.rest, p.copied + utf8Length (pend ++ pre) + utf8Length ('@' :: name),
        p.edits.push ⟨(p.out ++ String.ofList (pend ++ pre)).utf8ByteSize,
          utf8Length ('@' :: name), (String.ofList (('@' :: name) ++ s.chars)).utf8ByteSize⟩⟩
      (ss ++ [⟨tail ++ (pend ++ pre), '@' :: name,
        (String.ofList (('@' :: name) ++ s.chars)).toList⟩]) [] []
      (d + utf8Length s.chars) := by
    have hsuf : c₁.rest <:+ p.rest := ⟨pend ++ pre ++ '@' :: name, by rw [ha.rest, hcrest]; simp⟩
    refine ⟨ha.holds.replace _, rfl, ?_, ?_, (ha.suffix hsuf).1, (ha.suffix hsuf).2⟩
    · simp only [utf8Length_append, utf8Length_cons, utf8Length_nil]
      omega
    · simp only [String.toList_append, String.toList_ofList, utf8Length_append, utf8Length_cons,
        hout]
      omega
  obtain ⟨Y₁, ts₁, ss₂, tail₂, hh, hold, hnew, hg, htoks, hfol, hrel, hgrow, hhead'⟩ :=
    ih ha₁ seen₁ p' hw
  have hsk' : Scan.Skips vocab ⟨c.offset, pre ++ ('@' :: name) ++ c₁.rest⟩
      ⟨c.offset + utf8Length pre, ('@' :: name) ++ c₁.rest⟩ := by
    rw [← hcrest]
    exact hsk
  have hn := Scan.next_graft (d := d) hsk' hname hdelim hg
  have hcur : c.offset + utf8Length pre + d + utf8Length (('@' :: name) ++ s.chars) =
      c₁.offset + (d + utf8Length s.chars) := by
    simp only [utf8Length_append, utf8Length_cons]
    omega
  rw [hcur] at hn
  refine ⟨pre ++ ('@' :: name) ++ s.chars ++ Y₁, _ :: ts₁, _ :: ss₂, tail₂,
    by simpa using hh, ?_, ?_, ?_, by rw [Scan.tokens_go_next hn, htoks], .cons ?_ ?_,
    .cons ?_ ?_, ?_, ?_⟩
  · rw [ha.rest, hcrest]
    simpa [Stretch.before, List.append_assoc] using hold
  · rw [hnew]
    simp [List.append_assoc]
  · rw [hcrest]
    simpa [List.append_assoc] using (Grafted.graft hname hdelim hg).prepend pre
  · -- the word spans the local and the suffix, which map back onto the local
    refine ⟨Renames.graft _ hr, ?_, fun hc => absurd hc (by simp [hcode])⟩
    simp only [wordToken_span, Option.map_some, Stretch.mapSpan, hspan]
    rw [Stretch.locate_cons_start _ _ (by omega), Stretch.locate_cons_end _ _ (by omega)]
    simp only [utf8Length_append, utf8Length_cons]
    rw [if_neg (by omega), if_pos (by omega), if_neg (by omega), if_pos (by omega)]
    simp only [Option.some.injEq, Span.mk.injEq]
    omega
  · -- the tokens after it follow through the stretches after this one
    have hlaid := Scan.tokens_go_laid vocab ⟨c₁.offset + (d + utf8Length s.chars), Y₁⟩
    rw [htoks] at hlaid
    refine Follows.forall₂_append [_] (by simp) ?_ ?_
    · intro t' ht' sp hsp
      have := hlaid.span_le t' ht' sp hsp
      dsimp only at this
      simp only [List.flatMap_cons, List.flatMap_nil, List.append_nil, Stretch.after,
        utf8Length_append, utf8Length_cons]
      omega
    · simpa [List.flatMap_append, utf8Length_append, Nat.add_assoc] using hfol
  · -- the word covers the local and the suffix after it
    intro x x' hx hx'
    rw [hspan, Option.some.injEq] at hx
    rw [wordToken_span, Option.some.injEq] at hx'
    subst hx hx'
    refine ⟨'@' :: name, ('@' :: name) ++ s.chars, ⟨pre, c₁.rest, hcrest, rfl⟩,
      ⟨pre, Y₁, by simp, by simp only [Span.mk.injEq]; omega⟩, ?_⟩
    simpa using Grafted.graft (s := s) hname ⟨by simp, by simp⟩ Grafted.nil
  · -- the tokens after it cover the same runs, counted from further back
    rw [hcrest]
    refine List.Forall₂.imp (fun _ _ h => Relexed.prepend (pre ++ '@' :: name)
      (pre ++ ('@' :: name) ++ s.chars) ?_) hrel
    rwa [show c.offset + utf8Length (pre ++ '@' :: name) = c₁.offset by
        simp only [utf8Length_append, utf8Length_cons]; omega,
      show c.offset + d + utf8Length (pre ++ ('@' :: name) ++ s.chars) =
        c₁.offset + (d + utf8Length s.chars) by
        simp only [utf8Length_append, utf8Length_cons]; omega]
  · intro st hst
    rcases List.mem_cons.mp hst with rfl | hst
    · simp
    · exact hgrow st hst
  · intro st hst
    simp only [List.head?_cons, Option.mem_def, Option.some.injEq] at hst
    subst hst
    exact ⟨pend ++ pre, by simp⟩

/-- Quoted code whose contents the substitution inside renamed, laid out after the run `pre`
and its opening parenthesis: the scan of the new text finds one quoted-code token holding the
renamed contents, and the contents' stretches join the outer ones. -/
theorem rewalked_code (ha : Aligned renamed n c p ss tail pend d)
    (ih : ∀ {p₁ : Substitution.Progress} {ss₁ : List Stretch} {tail₁ pend₁ : List Char}
      {d₁ : Nat}, Aligned renamed n c₁ p₁ ss₁ tail₁ pend₁ d₁ →
        s.Rewalks vocab renamed inner ts c₁ p₁ ss₁ tail₁ pend₁ d₁)
    {pre body : List Char}
    (hsk : Scan.Skips vocab c ⟨c.offset + utf8Length pre, '(' :: (body ++ ')' :: c₁.rest)⟩)
    (hcrest : c.rest = pre ++ '(' :: (body ++ ')' :: c₁.rest))
    (hp : Scan.parenLength ('(' :: (body ++ ')' :: c₁.rest)) = some (body.length + 2))
    (hoff₁ : c₁.offset = c.offset + utf8Length (pre ++ '(' :: (body ++ [')'])))
    (hspan : t.span = some ⟨c.offset + utf8Length (pre ++ ['(']),
      c.offset + utf8Length (pre ++ ['(']) + utf8Length body⟩)
    (hc : t.isCode = true) (hkind : t.kind = .symbol) (htags : t.tags = Tags.quoted)
    (horigin : t.origin = none) (hv : t.value = .string (String.ofList body))
    {text : String} {ie : Edits} (hsub : s.RenamedTo vocab renamed body text ie)
    (hrun : (Substitution.run Rule.standard vocab (s.rename renamed) true
      (String.ofList body)).2 = .ok (text, ie))
    (hsize : ie.size ≠ 0) {seen₁ : List Token}
    (hw : Substitution.walk (s.rename renamed) true inner ts
      ⟨p.out ++ String.ofList (pend ++ (pre ++ ['('])) ++ text, [')'] ++ c₁.rest,
        p.copied + utf8Length (pend ++ (pre ++ ['('])) + utf8Length body,
        p.edits.appendShifted ie (p.out ++ String.ofList (pend ++ (pre ++ ['(']))).utf8ByteSize⟩ =
        (seen₁, .ok p')) :
    s.Rewalked vocab renamed (t :: ts) c p p' ss tail pend d := by
  obtain ⟨⟨iss, itail, his, hbody, htext, higrow⟩, higr, hires⟩ := hsub
  obtain ⟨i₀, iss', rfl⟩ : ∃ i₀ iss', iss = i₀ :: iss' := by
    cases iss with
    | nil => exact absurd (by simpa [Edits.size] using his) hsize
    | cons i₀ iss' => exact ⟨i₀, iss', rfl⟩
  have hne : i₀ :: iss' ≠ [] := List.cons_ne_nil _ _
  have hgrows := Stretch.utf8Length_before_le higrow
  have hbody' := congrArg utf8Length hbody
  have htext' := congrArg utf8Length htext
  simp only [utf8Length_append] at hbody' htext'
  have hout := ha.holds.out
  have hcopied := ha.holds.copied
  have hout' := ha.out
  have hoff := ha.offset
  rw [hout] at hout'
  have h1 : '('.utf8Size = 1 := by decide
  have h2 : ')'.utf8Size = 1 := by decide
  have hoff₁' := hoff₁
  simp only [utf8Length_append, utf8Length_cons, utf8Length_nil, h1, h2] at hoff₁ hoff hspan
  simp only [utf8Length_append] at hout' hcopied
  -- the widened stretches of the contents, after the tail and the run before the contents
  set A := Stretch.widen (tail ++ (pend ++ (pre ++ ['(']))) (i₀ :: iss') with hA
  have hAafter := Stretch.flatMap_after_widen (tail ++ (pend ++ (pre ++ ['(']))) hne
  have hAbefore := Stretch.flatMap_before_widen (tail ++ (pend ++ (pre ++ ['(']))) hne
  rw [← hA] at hAafter hAbefore
  have hAnew : ∀ st ∈ A, st.new = st.old ++ s.chars := by
    intro st hst
    obtain ⟨st₀, hst₀, hold, hnew⟩ := Stretch.mem_widen hst
    rw [hold, hnew]
    exact higrow st₀ hst₀
  have ha₁ : Aligned renamed n c₁
      ⟨p.out ++ String.ofList (pend ++ (pre ++ ['('])) ++ text, [')'] ++ c₁.rest,
        p.copied + utf8Length (pend ++ (pre ++ ['('])) + utf8Length body,
        p.edits.appendShifted ie (p.out ++ String.ofList (pend ++ (pre ++ ['(']))).utf8ByteSize⟩
      (ss ++ A) itail [')'] (d + (utf8Length text.toList - utf8Length body)) := by
    have hsuf : [')'] ++ c₁.rest <:+ p.rest :=
      ⟨pend ++ pre ++ '(' :: body, by rw [ha.rest, hcrest]; simp⟩
    refine ⟨ha.holds.descend hne his hbody htext, rfl, ?_, ?_, (ha.suffix hsuf).1,
      (ha.suffix hsuf).2⟩
    · simp only [utf8Length_append, utf8Length_cons, utf8Length_nil, h1, h2]
      omega
    · simp only [String.toList_append, String.toList_ofList, utf8Length_append, utf8Length_cons,
        utf8Length_nil, h1, hout, htext']
      omega
  obtain ⟨Y₁, ts₁, ss₂, tail₂, hh, hold, hnew, hg, htoks, hfol, hrel, hgrow, hhead⟩ :=
    ih ha₁ seen₁ p' hw
  have hsk' : Scan.Skips vocab ⟨c.offset, pre ++ '(' :: (body ++ ')' :: c₁.rest)⟩
      ⟨c.offset + utf8Length pre, '(' :: (body ++ ')' :: c₁.rest)⟩ := by
    rw [← hcrest]
    exact hsk
  have hn := Scan.next_code (d := d) hsk' hp higr hg
  have hcur : c.offset + utf8Length pre + d + utf8Length ('(' :: text.toList ++ [')']) =
      c₁.offset + (d + (utf8Length text.toList - utf8Length body)) := by
    simp only [List.cons_append, utf8Length_cons, utf8Length_append, utf8Length_nil, h1, h2]
    omega
  rw [hcur] at hn
  -- the token the scan of the new text finds is the code with its contents renamed
  have htok : ∀ sp : Span, ({ t with value := .string text, span := some sp } : Token) =
      { kind := .symbol, value := .string (String.ofList text.toList), span := some sp,
        tags := Tags.quoted } := by
    intro sp
    obtain ⟨k, v, sp₀, tg, o⟩ := t
    simp only at hkind htags horigin
    subst hkind htags horigin
    simp
  have htt : t.text.toList = body := by simp [Token.text, hv, Value.text]
  have htext : t.text = String.ofList body := by simp [Token.text, hv, Value.text]
  have hinner : s.editsOf vocab renamed t.text = ie := by rw [htext, editsOf_eq hrun]
  have hgrows' : utf8Length body ≤ utf8Length text.toList := by omega
  refine ⟨pre ++ '(' :: (text.toList ++ ')' :: Y₁), _ :: ts₁, A ++ ss₂, tail₂,
    by simpa using hh, ?_, ?_, ?_, by rw [Scan.tokens_go_next hn, htoks], .cons ?_ ?_,
    .cons ?_ ?_, ?_, ?_⟩
  · rw [ha.rest, hcrest]
    simpa [hAbefore, hbody, List.append_assoc] using hold
  · rw [hnew]
    simp [List.append_assoc]
  · rw [hcrest]
    exact ((higr.append (.keep ')' hg) (by simp; decide)).keep '(').prepend pre
  · refine ⟨?_, ?_, fun _ => ⟨?_, ?_⟩⟩
    · rw [← htok]
      exact Renames.code text _ (by simp [rename, hkind]) hc (by rw [htt]; exact higr)
    · -- the start lies before the first stretch of the contents, the end after the last
      have hAnew' : ∀ st ∈ A, st.new ≠ [] := fun st hst => by simp [hAnew st hst]
      have hstart : ∀ st ∈ (A ++ ss₂).head?,
          utf8Length tail + (utf8Length pend + (utf8Length pre + 1)) ≤ utf8Length st.gap ∧
            st.new ≠ [] := by
        intro st hst
        simp only [hA, Stretch.widen, List.cons_append, List.head?_cons, Option.mem_def,
          Option.some.injEq] at hst
        subst hst
        refine ⟨?_, by simp [higrow i₀ (List.mem_cons_self ..)]⟩
        simp only [utf8Length_append, utf8Length_cons, utf8Length_nil, h1]
        omega
      have e₁ : c.offset + utf8Length pre + d + 1 = utf8Length (ss.flatMap Stretch.after) +
          (utf8Length tail + (utf8Length pend + (utf8Length pre + 1))) := by omega
      have e₂ : c.offset + utf8Length pre + d + 1 + utf8Length text.toList =
          utf8Length (ss.flatMap Stretch.after) + utf8Length (A.flatMap Stretch.after) +
            utf8Length itail := by
        rw [hAafter]
        simp only [utf8Length_append, utf8Length_cons, utf8Length_nil, h1]
        omega
      have hend := Stretch.locate_append true ss₂ (utf8Length (ss.flatMap Stretch.after))
        (utf8Length (ss.flatMap Stretch.before)) A
        (utf8Length (ss.flatMap Stretch.after) + utf8Length (A.flatMap Stretch.after) +
          utf8Length itail) hAnew' (by omega)
      rw [Stretch.locate_within true (head_within hgrow hhead (Nat.le_refl _))] at hend
      rw [e₂, e₁]
      simp only [Option.map_some, Stretch.mapSpan, hend, Stretch.locate_within false hstart,
        hspan, Option.some.injEq, Span.mk.injEq]
      rw [hAbefore]
      simp only [utf8Length_append, utf8Length_cons, utf8Length_nil, h1]
      omega
    · rw [hinner]
      simpa [Token.text, hv, Value.text] using hires
    · -- inside the code the stretches of its contents, moved to where it stands, map back
      intro x x' hx hx' y hy hy'
      rw [hspan, Option.some.injEq] at hx
      simp only [Option.some.injEq] at hx'
      subst hx hx'
      have hpos : c.offset + utf8Length pre + d + 1 =
          utf8Length (ss.flatMap Stretch.after) + utf8Length (tail ++ (pend ++ (pre ++ ['(']))) := by
        simp only [utf8Length_append, utf8Length_cons, utf8Length_nil, h1]
        omega
      simp only at hy' ⊢
      rw [hinner, hpos, hA, Stretch.mapSpan_nested his hne
        (head_within hgrow hhead (Nat.le_refl (utf8Length itail))) _ _ _ hy (by omega)]
      simp only [Span.shift, Span.mk.injEq, utf8Length_append, utf8Length_cons, utf8Length_nil, h1]
      omega
  · -- the tokens after it follow through the stretches after the contents'
    have hlaid := Scan.tokens_go_laid vocab
      ⟨c₁.offset + (d + (utf8Length text.toList - utf8Length body)), Y₁⟩
    rw [htoks] at hlaid
    refine Follows.forall₂_append A (fun st hst => by simp [hAnew st hst]) ?_ ?_
    · intro t' ht' sp hsp
      have := hlaid.span_le t' ht' sp hsp
      dsimp only at this
      rw [hAafter]
      simp only [utf8Length_append, utf8Length_cons, utf8Length_nil, h1]
      omega
    · simpa [List.flatMap_append, utf8Length_append, Nat.add_assoc] using hfol
  · -- the code covers its contents, renamed
    intro x x' hx hx'
    rw [hspan, Option.some.injEq] at hx
    simp only [Option.some.injEq] at hx'
    subst hx hx'
    refine ⟨body, text.toList, ⟨pre ++ ['('], ')' :: c₁.rest, by rw [hcrest]; simp, ?_⟩,
      ⟨pre ++ ['('], ')' :: Y₁, by simp, ?_⟩, higr⟩
    · simp only [utf8Length_append, utf8Length_cons, utf8Length_nil, h1]
    · simp only [Span.mk.injEq, utf8Length_append, utf8Length_cons, utf8Length_nil, h1]
      omega
  · -- the tokens after it cover the same runs, counted from further back
    rw [hcrest, show pre ++ '(' :: (text.toList ++ ')' :: Y₁) =
      (pre ++ '(' :: (text.toList ++ [')'])) ++ Y₁ by simp,
      show pre ++ '(' :: (body ++ ')' :: c₁.rest) = (pre ++ '(' :: (body ++ [')'])) ++ c₁.rest by
        simp]
    refine List.Forall₂.imp (fun _ _ h => Relexed.prepend (pre ++ '(' :: (body ++ [')']))
      (pre ++ '(' :: (text.toList ++ [')'])) ?_) hrel
    rwa [show c.offset + d + utf8Length (pre ++ '(' :: (text.toList ++ [')'])) =
      c.offset + utf8Length (pre ++ '(' :: (body ++ [')'])) +
        (d + (utf8Length text.toList - utf8Length body)) by
      simp only [utf8Length_append, utf8Length_cons, utf8Length_nil, h1, h2]; omega, ← hoff₁']
  · intro st hst
    rcases List.mem_append.mp hst with hst | hst
    · exact hAnew st hst
    · exact hgrow st hst
  · intro st hst
    simp only [hA, Stretch.widen, List.cons_append, List.head?_cons, Option.mem_def,
      Option.some.injEq] at hst
    subst hst
    exact ⟨pend ++ (pre ++ ['(']) ++ i₀.gap, by simp⟩

/-- The walk beside the scan of the old text, token by token: each token is kept, renamed, or
quoted code renamed inside, and in each case the scan of the new text finds the token that
follows it. The induction is on the tokens; `hinner` gives what the substitution inside quoted
code made, and `hrun` that it is the renaming of the code's text on its own. -/
theorem walk_rescans
    (hinner : ∀ body : List Char, body.length < n → Safe renamed body →
      ∀ iseen text ie, inner (String.ofList body) = (iseen, .ok (text, ie)) →
        s.RenamedTo vocab renamed body text ie)
    (hrun : ∀ body : List Char, body.length < n →
      inner (String.ofList body) =
        Substitution.run Rule.standard vocab (s.rename renamed) true (String.ofList body)) :
    ∀ (ts : List Token) (c : Cursor) (p : Substitution.Progress) (ss : List Stretch)
      (tail pend : List Char) (d : Nat), Aligned renamed n c p ss tail pend d →
      Scan.tokens.go Rule.standard vocab c = (ts, none) →
      s.Rewalks vocab renamed inner ts c p ss tail pend d
  | [], _, _, _, _, _, _, ha, htoks => rewalks_nil ha htoks
  | t :: ts, c, p, ss, tail, pend, d, ha, htoks => by
    intro seen p' hwalk
    obtain ⟨c₁, hnext, htoks₁⟩ := Scan.next_of_tokens_go_cons htoks
    have ih : ∀ {p₁ : Substitution.Progress} {ss₁ : List Stretch} {tail₁ pend₁ : List Char}
        {d₁ : Nat}, Aligned renamed n c₁ p₁ ss₁ tail₁ pend₁ d₁ →
          s.Rewalks vocab renamed inner ts c₁ p₁ ss₁ tail₁ pend₁ d₁ :=
      fun ha₁ => walk_rescans hinner hrun ts c₁ _ _ _ _ _ ha₁ htoks₁
    -- the scan skipped the run `pre` and found the token at a cursor of its own
    obtain ⟨c₀, hsk, hne, hsc⟩ := Scan.skips_of_next hnext
    obtain ⟨pre, hpre, hoff₀⟩ := hsk.rest_eq
    obtain ⟨skip, body, close, hrest₀, hoff₁, htok⟩ := Scan.scan_laid hne hsc
    obtain ⟨hspan, hcode, hplain, hlocal⟩ := htok t rfl
    obtain ⟨o₀, r₀⟩ := c₀
    dsimp only at hoff₀ hrest₀ hoff₁ hspan hpre
    subst hoff₀ hrest₀
    have hoff := ha.offset
    have hcrest : c.rest = (pre ++ skip) ++ body ++ close ++ c₁.rest := by
      rw [hpre]
      simp
    have hrest : p.rest = (pend ++ (pre ++ skip)) ++ body ++ (close ++ c₁.rest) := by
      rw [ha.rest, hcrest]
      simp
    have hspan' : t.span = some ⟨p.copied + utf8Length (pend ++ (pre ++ skip)),
        p.copied + utf8Length (pend ++ (pre ++ skip)) + utf8Length body⟩ := by
      rw [hspan]
      simp only [utf8Length_append, Option.some.injEq, Span.mk.injEq]
      omega
    have hoff₁' : c₁.offset = c.offset + utf8Length ((pre ++ skip) ++ body ++ close) := by
      rw [hoff₁]
      simp only [utf8Length_append]
      omega
    have hspan'' : t.span = some ⟨c.offset + utf8Length (pre ++ skip),
        c.offset + utf8Length (pre ++ skip) + utf8Length body⟩ := by
      rw [hspan]
      simp only [utf8Length_append, Option.some.injEq, Span.mk.injEq]
      omega
    rcases Substitution.walk_step hrest hspan' hwalk with
      ⟨hc, hr, seen₁, -, hw⟩ | ⟨r, hc, hr, seen₁, -, hw⟩ | ⟨iseen, text, ie, hc, hin, seen₁, -, hw⟩
    · -- a token nothing renames
      have hc' : t.isCode = false := by simpa using hc
      exact rewalked_keep ha ih hnext hcrest hoff₁' hspan'' (Renames.keep _ hr hc')
        (by simp [hc']) hw
    · -- a renamed local
      obtain ⟨hcf, ⟨name, rfl, hname, hchars⟩, hv, hhead⟩ := hlocal (rename_eq_some hr).1
      obtain ⟨rfl, rfl⟩ := hplain hcf
      have htext : t.text = String.ofList ('@' :: name) := by simp [Token.text, hv, Value.text]
      exact rewalked_graft ha ih (by simpa only [List.nil_append, List.append_nil] using hsk)
        (by rw [hpre]; simp)
        (by rw [hoff₁]; simp only [List.nil_append, List.append_nil, utf8Length_append]; omega)
        (by simpa only [List.append_nil] using hspan'') ⟨hname, hchars⟩ hhead htext hcf hr
        (by simpa only [List.nil_append, List.append_nil] using hw)
    · -- quoted code: the substitution inside gave `text`
      have hc' : t.isCode = true := by simpa using hc
      obtain ⟨rfl, rfl, hv⟩ := hcode hc'
      have hsc' : Scan.scan Rule.standard vocab ⟨c.offset + utf8Length pre,
          '(' :: (body ++ ')' :: c₁.rest)⟩ = .ok (some t, c₁) := by
        simpa using hsc
      obtain ⟨m, hm, ht, hc₁⟩ := Scan.paren_of_scan hsc'
      obtain rfl := Option.some.inj ht
      obtain ⟨inner', rest', hsplit, rfl⟩ := Scan.parenLength_eq hm
      have hrest' : rest' = c₁.rest := by
        have := congrArg Cursor.rest hc₁
        have e : '(' :: (inner' ++ ')' :: rest') = ('(' :: (inner' ++ [')'])) ++ rest' := by simp
        simp only [hsplit] at this
        rw [this, e, List.drop_left' (by simp)]
      subst hrest'
      obtain rfl : body = inner' := List.append_cancel_right hsplit
      -- the contents and the closing parenthesis after them are a suffix of the walk's rest
      have hsuf : body ++ [')'] ++ c₁.rest <:+ p.rest :=
        ⟨pend ++ (pre ++ ['(']), by rw [hrest]; simp⟩
      obtain ⟨hlen, hsafe⟩ := ha.suffix hsuf
      replace hlen : body.length < n := by simp at hlen; omega
      replace hsafe : Safe renamed body := hsafe.infix ⟨[], [')'] ++ c₁.rest, by simp⟩
      have hsub := hinner body hlen hsafe iseen text ie hin
      have hrun' : (Substitution.run Rule.standard vocab (s.rename renamed) true
          (String.ofList body)).2 = .ok (text, ie) := by
        rw [← hrun body hlen, hin]
      by_cases hsize : ie.size = 0
      · -- nothing inside changed: the code is copied as it was
        rw [if_pos hsize] at hw
        obtain ⟨⟨iss, itail, his, hbody, htext, -⟩, -, hres⟩ := hsub
        obtain rfl : iss = [] := by
          rw [← List.length_eq_zero_iff, ← length_splicesOf 0, ← his]
          simpa [Edits.size] using hsize
        simp only [List.flatMap_nil, List.nil_append] at hbody htext
        subst hbody
        have htt : (Scan.quotedCode ⟨c.offset + utf8Length pre,
            '(' :: (body ++ ')' :: c₁.rest)⟩ (body.length + 2)).text = String.ofList body := by
          simp [Token.text, hv, Value.text]
        refine rewalked_keep ha ih hnext hcrest hoff₁' hspan''
          (Renames.code_self (by simp [rename, Scan.quotedCode]) hc' (by rw [htt, hv]) _)
          (fun _ => ⟨?_, by rw [htt, editsOf_eq hrun']; exact hsize⟩) hw
        have htext' : text = String.ofList body := by rw [← htext, String.ofList_toList]
        rw [htt, editsOf_eq hrun']
        rwa [htext'] at hres
      · rw [if_neg hsize] at hw
        exact rewalked_code ha ih (by simpa using hsk) (by rw [hpre]; simp) hm
          (by rw [hoff₁]; simp [utf8Length_append]; omega) hspan'' hc' rfl rfl rfl hv hsub hrun'
          hsize hw

end Steps

/-- A deep substitution with the renaming, at every level of quoted code: what it makes of a
safe text is the text grafted, laid out as stretches that append the suffix, and it scans again
to the old text's tokens. The induction is on the fuel, which exceeds the text's length. -/
theorem nested_rescans (s : Suffix) (vocab : Vocabulary) (renamed : String → Bool) :
    ∀ (depth : Nat) (text : String), text.length < depth → Safe renamed text.toList →
      ∀ seen text' e, Substitution.nested Rule.standard vocab (s.rename renamed) true depth text =
        (seen, .ok (text', e)) → s.RenamedTo vocab renamed text.toList text' e
  | 0, _, hd, _ => absurd hd (Nat.not_lt_zero _)
  | depth + 1, text, hd, hsafe => by
    intro seen text' e hres
    have hinner : ∀ body : List Char, body.length < depth → Safe renamed body →
        ∀ iseen itext ie, Substitution.nested Rule.standard vocab (s.rename renamed) true depth
          (String.ofList body) = (iseen, .ok (itext, ie)) →
            s.RenamedTo vocab renamed body itext ie :=
      fun body hbody hsafe' iseen itext ie h => by
        simpa using nested_rescans s vocab renamed depth (String.ofList body) (by simpa using hbody)
          (by simpa using hsafe') iseen itext ie h
    -- the substitution inside quoted code has fuel to spare: it is the code's own renaming
    have hrun : ∀ body : List Char, body.length < depth →
        Substitution.nested Rule.standard vocab (s.rename renamed) true depth (String.ofList body) =
          Substitution.run Rule.standard vocab (s.rename renamed) true (String.ofList body) :=
      fun body hbody => Substitution.nested_fuel vocab _ true depth _ (by simpa using hbody)
    rcases htoks : Scan.tokens Rule.standard vocab text with ⟨toks, stop⟩
    rcases hw : Substitution.walk (s.rename renamed) true
      (Substitution.nested Rule.standard vocab (s.rename renamed) true depth) toks
      { rest := text.toList } with ⟨seen', result⟩
    rw [Substitution.nested, htoks] at hres
    simp only [hw] at hres
    cases result with
    | error err => simp at hres
    | ok p' =>
      cases stop with
      | some err => simp at hres
      | none =>
        simp only [Except.ok.injEq, Prod.mk.injEq] at hres
        obtain ⟨-, rfl, rfl⟩ := hres
        have ha : Aligned renamed depth (Cursor.start text) { rest := text.toList } [] [] [] 0 :=
          ⟨Substitution.Progress.holds_start text, rfl, rfl, rfl,
            by simp only [String.length_toList]; omega, hsafe⟩
        obtain ⟨Y, ts', ss, tail, hh, hold, hnew, hg, htoks', hfol, hrel, hgrow, -⟩ :=
          walk_rescans hinner hrun toks (Cursor.start text) _ [] [] [] 0 ha htoks seen' p' hw
        simp only [List.nil_append, List.flatMap_nil, utf8Length_nil] at hh hold hnew hfol
        -- the new text is what the scan of the new text read
        have hY' : p'.out.toList ++ p'.rest = Y := by simpa using hnew
        have hY : (p'.out ++ String.ofList p'.rest).toList = Y := by simpa using hY'
        have hmap : p'.edits.mapBack = Stretch.mapSpan 0 0 ss :=
          funext fun sp => Edits.mapBack_eq_locate hh.splices sp.start sp.stop
        refine ⟨⟨ss, tail ++ p'.rest, hh.splices, by simpa using hold,
          by rw [hY, ← hY', hh.out]; simp, hgrow⟩, by rw [hY]; exact hg, ?_⟩
        rw [String.ofList_toList]
        have hfol' := List.forall₂_iff_zip.mp hfol
        have hrel' := List.forall₂_iff_zip.mp hrel
        refine .intro htoks (by simpa [Scan.tokens, Cursor.start, hY] using htoks')
          (List.forall₂_iff_zip.mpr ⟨hfol'.1, fun hmem => ⟨(hfol'.2 hmem).1, ?_, ?_⟩⟩) ?_ ?_
        · rw [← (hfol'.2 hmem).2.1, hmap]
        · simpa [Cursor.start, hY] using hrel'.2 hmem
        · intro t t' hmem hc x x' hx hx' y hy hy'
          rw [hmap]
          exact ((hfol'.2 hmem).2.2 hc).2 x x' hx hx' y hy hy'
        · intro t t' hmem hc _
          exact ((hfol'.2 hmem).2.2 hc).1

-- ---------------------------------------------------------------------------
-- Hygiene
-- ---------------------------------------------------------------------------

/-- A token of the new text is no local when its old token, if a local, is one renamed. -/
theorem Renames.kind_ne_localName {t t' : Token} (h : s.Renames vocab renamed t t')
    (hloc : t.kind = .localName → renamed t.text = true) : t'.kind ≠ .localName := by
  cases h with
  | keep sp hr _ =>
    intro hk
    simp only at hk
    simp [rename, hk, hloc hk] at hr
  | graft sp _ =>
    unfold Rule.wordToken
    split <;> simp [Token.placed, Token.operator, Rule.stringToken]
  | code text sp hr _ _ =>
    intro hk
    simp only at hk
    simp [rename, hk, hloc hk] at hr

/-- When every local of the old text is renamed, the new text has no local. -/
theorem Rescans.kind_ne_localName {text text' : String} {e : Edits}
    (h : s.Rescans vocab renamed text text' e)
    (hloc : ∀ t ∈ (Scan.tokens Rule.standard vocab text).1, t.kind = .localName →
      renamed t.text = true) :
    ∀ t' ∈ (Scan.tokens Rule.standard vocab text').1, t'.kind ≠ .localName := by
  obtain ⟨htoks, htoks', hfor, -, -⟩ := h
  rw [htoks] at hloc
  rw [htoks']
  clear htoks htoks'
  intro t' ht'
  induction hfor with
  | nil => simp at ht'
  | @cons t t' ts ts' hr _ ih =>
    rcases List.mem_cons.mp ht' with rfl | ht'
    · exact hr.1.kind_ne_localName (hloc t (List.mem_cons_self ..))
    · exact ih (fun u hu => hloc u (List.mem_cons_of_mem _ hu)) ht'

end Suffix

/-- The suffix hygiene puts after the locals it renames: `@` and the digits of a number. -/
def uidSuffix (uid : Nat) : Suffix where
  tail := Nat.toDigits 10 uid
  inert := fun _ hc => Rule.isInert_digit (Nat.isDigit_of_mem_toDigits (by decide) (by decide) hc)

theorem uidSuffix_chars (uid : Nat) :
    String.ofList (uidSuffix uid).chars = "@" ++ toString uid := by
  rw [Nat.toString_eq_ofList_toDigits, ← String.ofList_append]
  rfl

/-- The names of the locals at the top level of a text. -/
def topLocals (vocab : Vocabulary) (text : String) : List String :=
  ((Scan.tokens Rule.standard vocab text).1.filter (·.kind == .localName)).map Token.text

theorem mem_topLocals {vocab : Vocabulary} {text : String} {t : Token}
    (ht : t ∈ (Scan.tokens Rule.standard vocab text).1) (hk : t.kind = .localName) :
    (topLocals vocab text).contains t.text = true := by
  simp only [topLocals, List.contains_iff_mem, List.mem_map, List.mem_filter, beq_iff_eq]
  exact ⟨t, ⟨ht, hk⟩, rfl⟩

/-- When no renamed local ends in a backslash right before a line break, hygiene's renamed text
scans again to the tokens of the text, renamed. -/
theorem rescans_of_hygiene {ops : Table} {text text' : String} {uid : Nat} {origin : Origin}
    {E : Edits} (h : Evaluation.hygiene ops text uid origin = .ok (text', E))
    (hsafe : Suffix.Safe (topLocals ops.contains text).contains text.toList) :
    (uidSuffix uid).Rescans ops.contains (topLocals ops.contains text).contains text text' E := by
  rw [Evaluation.hygiene] at h
  rcases htoks : Scan.tokens Rule.standard ops.contains text with ⟨toks, stop⟩
  have hL : topLocals ops.contains text = (toks.filter (·.kind == .localName)).map Token.text := by
    simp [topLocals, htoks]
  simp only [htoks] at h
  cases stop with
  | some err => simp at h
  | none =>
    simp only at h
    split_ifs at h with hempty
    · -- no local at the top level: the text stays as it is
      obtain ⟨rfl, rfl⟩ : text = text' ∧ ({} : Edits) = E := by simpa using h
      have hnone : ∀ x, (topLocals ops.contains text).contains x = false := by
        intro x
        rw [hL, List.isEmpty_iff.mp hempty]
        rfl
      exact Suffix.Rescans.refl hnone (text.length + 1) text (by omega) (by rw [htoks])
    · split at h
      · simp at h
      · rename_i r hr
        obtain rfl : r = (text', E) := by simpa using h
        -- the renaming hygiene passes is the suffix's
        have hrun : (Substitution.run Rule.standard ops.contains
            ((uidSuffix uid).rename (topLocals ops.contains text).contains) true text).2 =
              .ok (text', E) := by
          rw [← hr]
          congr
          funext t
          simp only [Suffix.rename, uidSuffix_chars, String.append_assoc]
          rw [hL]
        have hsub := Suffix.nested_rescans (uidSuffix uid) ops.contains _ (text.length + 1) text
          (by simp) hsafe _ text' E (Prod.ext rfl hrun)
        have hres := hsub.2.2
        rw [String.ofList_toList] at hres
        exact hres

/-- Hygiene preserves the tokens of a text. When it renames the locals of `text` to `text'`
with the record `E`, and no renamed local ends in a backslash right before a line break, then
`text'` scans to the tokens of `text`, one for one, and `E` maps each span back onto the span of
the token it comes from. A renamed local becomes the word of its name and the suffix `@uid`: a
string, or an operator when the table has one by that name. Quoted code keeps its place and its
text is the old text with the suffix after each local of the top level's names, at any depth,
which holds again for that text. No local is left at the top level. -/
theorem hygiene_rescans {ops : Table} {text text' : String} {uid : Nat} {origin : Origin}
    {E : Edits} (h : Evaluation.hygiene ops text uid origin = .ok (text', E))
    (hsafe : Suffix.Safe (topLocals ops.contains text).contains text.toList) :
    (uidSuffix uid).Rescans ops.contains (topLocals ops.contains text).contains text text' E ∧
      ∀ t ∈ (Scan.tokens Rule.standard ops.contains text').1, t.kind ≠ .localName := by
  have hres := rescans_of_hygiene h hsafe
  -- every local of the top level is among the renamed ones
  exact ⟨hres, hres.kind_ne_localName fun t ht hk => mem_topLocals ht hk⟩

/-- Renaming the local of `@x` under the number 0. -/
theorem hygiene_rescans_local :
    (uidSuffix 0).Rescans ({} : Table).contains (topLocals ({} : Table).contains "@x").contains
        "@x" "@x@0" ⟨#[⟨0, 2, 4⟩]⟩ ∧
      ∀ t ∈ (Scan.tokens Rule.standard ({} : Table).contains "@x@0").1, t.kind ≠ .localName :=
  @hygiene_rescans {} "@x" "@x@0" 0 .detached ⟨#[⟨0, 2, 4⟩]⟩
    (Substitution.Except.eq_ok_of_toOption (by decide +kernel))
    (fun name _ _ hin => absurd (hin.subset (List.mem_append_right name (List.mem_singleton_self _)))
      (by decide))

/-- A renamed local whose new name the table holds scans as that operator, not as a string. -/
theorem hygiene_renames_to_operator :
    (Evaluation.hygiene (({} : Table).insert "@x@1" default) "@x" 1 .detached).toOption =
        some ("@x@1", ⟨#[⟨0, 2, 4⟩]⟩) ∧
      (Scan.tokens Rule.standard (({} : Table).insert "@x@1" default).contains "@x@1").1.map
        Token.kind = [.operator] :=
  ⟨by decide +kernel, by decide +kernel⟩

end Concatenative
