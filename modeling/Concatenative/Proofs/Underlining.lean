import Concatenative.Cli.Report
import Concatenative.Proofs.Covering
import Concatenative.Proofs.Pointing

/-!
# Error reports underline their span

`Cli.report` shows an error in bold and under it the source line that holds the start of the
error's span, with the span underlined. `Cli.decorate` draws the underline: a fold over the
line's characters that switches the underline on and off as it goes. The results here say what
comes out in terms of byte offsets alone, the offsets at which the line's characters start
(`charIndices`).

Main results:

* `Cli.decorate_eq` — the fold writes the characters that start before the range, the characters
  that start inside it between one pair of escapes, then the rest, and an underlined space when
  the range starts at or past the end of the line;
* `Cli.report_eq` — for a span that starts on a character boundary, the report is the error's
  text, a line and column when the source has more than one line, and the line that holds the
  span's start, decorated;
* `Cli.report_underlines_span` — every error that running a program raises is reported so, and
  its span starts on a character boundary of the program.
-/

namespace Concatenative

-- ---------------------------------------------------------------------------
-- Byte offsets of characters
-- ---------------------------------------------------------------------------

/-- Each character of `cs` with the byte offset at which it starts, the first at `i`. -/
def charIndices : List Char → Nat → List (Char × Nat)
  | [], _ => []
  | c :: cs, i => (c, i) :: charIndices cs (i + c.utf8Size)

/-- The characters of `cs` whose byte offsets satisfy `p`, in order. -/
def charsAt (cs : List Char) (p : Nat → Bool) : List Char :=
  ((charIndices cs 0).filter fun ci => p ci.2).map Prod.fst

@[simp] theorem charIndices_nil (i : Nat) : charIndices [] i = [] := rfl

@[simp] theorem charIndices_cons (c : Char) (cs : List Char) (i : Nat) :
    charIndices (c :: cs) i = (c, i) :: charIndices cs (i + c.utf8Size) := rfl

theorem charIndices_append (xs ys : List Char) (i : Nat) :
    charIndices (xs ++ ys) i = charIndices xs i ++ charIndices ys (i + utf8Length xs) := by
  induction xs generalizing i with
  | nil => simp
  | cons c cs ih => simp [ih, Nat.add_assoc]

@[simp] theorem map_fst_charIndices (cs : List Char) (i : Nat) :
    (charIndices cs i).map Prod.fst = cs := by
  induction cs generalizing i with
  | nil => rfl
  | cons c cs ih => simp [ih]

/-- Every character of `cs` starts inside the bytes of `cs`. -/
theorem offset_mem_charIndices {cs : List Char} {i : Nat} {ci : Char × Nat}
    (h : ci ∈ charIndices cs i) : i ≤ ci.2 ∧ ci.2 < i + utf8Length cs := by
  induction cs generalizing i with
  | nil => simp at h
  | cons c cs ih =>
    have hpos := c.utf8Size_pos
    rcases List.mem_cons.mp h with rfl | h
    · simp only [utf8Length_cons]
      omega
    · have := ih h
      simp only [utf8Length_cons]
      omega

@[simp] theorem splitAtByte_zero (cs : List Char) : (splitAtByte cs 0).1 = [] := by
  cases cs <;> simp [splitAtByte]

/-- The characters that start before byte `n`, as `splitAtByte` takes them, start before it. -/
theorem offset_lt_of_splitAtByte {cs : List Char} {n i : Nat} {ci : Char × Nat}
    (h : ci ∈ charIndices (splitAtByte cs n).1 i) : ci.2 < i + n := by
  induction cs generalizing n i with
  | nil => simp [splitAtByte] at h
  | cons c cs ih =>
    rw [splitAtByte] at h
    split at h
    · simp at h
    · rename_i hn
      rcases List.mem_cons.mp h with rfl | h
      · omega
      · -- a character that ends at or past `n` is the last one taken
        by_cases hsize : n ≤ c.utf8Size
        · rw [show n - c.utf8Size = 0 by omega, splitAtByte_zero] at h
          simp at h
        · have := ih h
          omega

/-- What `splitAtByte` leaves over starts at byte `n` or later. -/
theorem le_utf8Length_splitAtByte {cs : List Char} {n : Nat} (h : (splitAtByte cs n).2 ≠ []) :
    n ≤ utf8Length (splitAtByte cs n).1 := by
  induction cs generalizing n with
  | nil => simp [splitAtByte] at h
  | cons c cs ih =>
    rw [splitAtByte] at h ⊢
    split
    · simp_all
    · simp only [ne_eq, ite_false, *] at h
      have := ih h
      simp only [utf8Length_cons]
      omega

/-- A run of characters whose offsets all satisfy `p`, or all fail it, is kept whole, or
dropped whole, by a filter on offsets. -/
theorem filter_charIndices_of_forall {cs : List Char} {i : Nat} {p : Nat → Bool} (u : Bool)
    (h : ∀ ci ∈ charIndices cs i, p ci.2 = u) :
    ((charIndices cs i).filter fun ci => p ci.2).map Prod.fst = if u then cs else [] := by
  cases u with
  | true => simp [List.filter_eq_self.mpr (fun ci hci => h ci hci)]
  | false =>
    rw [List.filter_eq_nil_iff.mpr (fun ci hci => by simp [h ci hci])]
    rfl

/-- A filter on offsets over three runs, each of whose offsets all pass it or all fail it, keeps
the runs that pass. -/
theorem charsAt_runs {below between above : List Char} {p : Nat → Bool} (u v w : Bool)
    (hu : ∀ ci ∈ charIndices below 0, p ci.2 = u)
    (hv : ∀ ci ∈ charIndices between (utf8Length below), p ci.2 = v)
    (hw : ∀ ci ∈ charIndices above (utf8Length below + utf8Length between), p ci.2 = w) :
    charsAt (below ++ between ++ above) p =
      (if u then below else []) ++ (if v then between else []) ++ (if w then above else []) := by
  simp only [charsAt, charIndices_append, utf8Length_append, Nat.zero_add, List.filter_append,
    List.map_append]
  rw [filter_charIndices_of_forall u hu, filter_charIndices_of_forall v hv,
    filter_charIndices_of_forall w hw]

/-- Character offsets only grow along a line, so for `a` and `b` the line falls into three runs:
the characters that start before `a`, those that start in `[a, b)`, and those that start at `a`
and `b` or later. -/
theorem three_runs (line : List Char) (a b : Nat) :
    ∃ below between above, line = below ++ between ++ above ∧
      (∀ ci ∈ charIndices below 0, ci.2 < a) ∧
      (∀ ci ∈ charIndices between (utf8Length below), a ≤ ci.2 ∧ ci.2 < b) ∧
      ∀ ci ∈ charIndices above (utf8Length below + utf8Length between), a ≤ ci.2 ∧ b ≤ ci.2 := by
  -- cut before `a`, then the rest before `b`
  obtain ⟨below, rest, hcut⟩ : ∃ below rest, splitAtByte line a = (below, rest) := ⟨_, _, rfl⟩
  obtain ⟨between, above, hcut'⟩ : ∃ between above,
      splitAtByte rest (b - utf8Length below) = (between, above) := ⟨_, _, rfl⟩
  have hline := splitAtByte_append line a
  have hrest := splitAtByte_append rest (b - utf8Length below)
  rw [hcut] at hline
  rw [hcut'] at hrest
  subst hline hrest
  dsimp only at hcut hcut'
  -- what is left after the first cut starts at `a` or later
  have hstart : between ++ above ≠ [] → a ≤ utf8Length below := fun h => by
    simpa [hcut] using @le_utf8Length_splitAtByte (below ++ (between ++ above)) a
      (by rw [hcut]; exact h)
  refine ⟨below, between, above, by rw [List.append_assoc], fun ci hci => ?_,
    fun ci hci => ?_, fun ci hci => ?_⟩
  · have := @offset_lt_of_splitAtByte (below ++ (between ++ above)) a 0 ci
      (by rw [hcut]; exact hci)
    omega
  · have hlt := @offset_lt_of_splitAtByte (between ++ above) (b - utf8Length below)
      (utf8Length below) ci (by rw [hcut']; exact hci)
    have hge := (offset_mem_charIndices hci).1
    have ha := hstart (by cases between <;> simp_all)
    omega
  · have hge := (offset_mem_charIndices hci).1
    have ha := hstart (by cases above <;> simp_all)
    have hb : b - utf8Length below ≤ utf8Length between := by
      simpa [hcut'] using @le_utf8Length_splitAtByte (between ++ above) (b - utf8Length below)
        (by rw [hcut']; cases above <;> simp_all)
    omega

/-- The characters of a text that start before its prefix ends are the prefix. -/
theorem charsAt_prefix (xs ys : List Char) :
    charsAt (xs ++ ys) (fun i => i < utf8Length xs) = xs := by
  have h := @charsAt_runs xs [] ys (fun i => i < utf8Length xs) true false false
    (fun ci hci => by have := (offset_mem_charIndices hci).2; simp_all)
    (fun ci hci => by simp at hci)
    (fun ci hci => by have := (offset_mem_charIndices hci).1; simp_all)
  simpa using h

/-- A filter that passes no offset inside the text keeps no character. -/
theorem charsAt_eq_nil {cs : List Char} {p : Nat → Bool}
    (h : ∀ i, p i = true → utf8Length cs ≤ i) : charsAt cs p = [] := by
  refine List.eq_nil_iff_forall_not_mem.mpr fun c hc => ?_
  obtain ⟨ci, hci, -⟩ := List.mem_map.mp hc
  obtain ⟨hmem, hpci⟩ := List.mem_filter.mp hci
  have := h _ hpci
  have := (offset_mem_charIndices hmem).2
  omega

/-- A run whose characters all start at `a` or later, and which ends by `a`, is empty. -/
theorem eq_nil_of_starts_past {cs : List Char} {i a : Nat}
    (h : ∀ ci ∈ charIndices cs i, a ≤ ci.2) (hlen : i + utf8Length cs ≤ a) : cs = [] := by
  cases cs with
  | nil => rfl
  | cons c cs =>
    have := h (c, i) (by simp)
    have := c.utf8Size_pos
    simp only [utf8Length_cons] at hlen
    omega

/-- A character that starts at byte `a` of a text is among the characters that start in `[a, e)`,
for any `e` past `a`. -/
theorem charsAt_from_ne_nil (xs ys : List Char) (c : Char) {e : Nat} (he : utf8Length xs < e) :
    (charsAt (xs ++ c :: ys) fun i => utf8Length xs ≤ i ∧ i < e) ≠ [] := by
  have hmem : (c, utf8Length xs) ∈ charIndices (xs ++ c :: ys) 0 := by
    simp [charIndices_append]
  refine List.ne_nil_of_mem (a := c) (List.mem_map.mpr ⟨(c, utf8Length xs), ?_, rfl⟩)
  exact List.mem_filter.mpr ⟨hmem, by simp [he]⟩

-- ---------------------------------------------------------------------------
-- Lines
-- ---------------------------------------------------------------------------

/-- `line` is the line of `text` that holds byte `a`: the text is `pre`, the line and `post`,
where `pre` is empty or ends with a line break, the line holds none, `post` is empty or starts
with one, and `a` lies between the line's ends. -/
structure LineAt (text : List Char) (a : Nat) (pre line post : List Char) : Prop where
  split : text = pre ++ line ++ post
  pre_end : pre = [] ∨ ∃ q, pre = q ++ ['\n']
  no_break : '\n' ∉ line
  post_start : post = [] ∨ ∃ r, post = '\n' :: r
  start_le : utf8Length pre ≤ a
  le_stop : a ≤ utf8Length pre + utf8Length line

/-- A text ends with its last line so far: the text up to and with its last line break, then
what follows that break. -/
theorem last_line (before : List Char) :
    ∃ pre lead, before = pre ++ lead ∧ '\n' ∉ lead ∧ (pre = [] ∨ ∃ q, pre = q ++ ['\n']) ∧
      (before.reverse.takeWhile (· != '\n')).length = lead.length := by
  refine ⟨(before.reverse.dropWhile (· != '\n')).reverse,
    (before.reverse.takeWhile (· != '\n')).reverse, ?_, fun h => ?_, ?_, by simp⟩
  · rw [← List.reverse_append, List.takeWhile_append_dropWhile, List.reverse_reverse]
  · have := List.mem_takeWhile_imp (List.mem_reverse.mp h)
    simp at this
  · -- what the search for the last break stopped at is that break
    cases hd : before.reverse.dropWhile (· != '\n') with
    | nil => exact .inl rfl
    | cons d rest =>
      have hstop := List.head?_dropWhile_not (· != '\n') before.reverse
      rw [hd] at hstop
      simp only [List.head?_cons, bne_eq_false_iff_eq] at hstop
      exact .inr ⟨rest.reverse, by simp [hstop]⟩

/-- A text starts with the rest of its line: what comes before its first line break, then the
text from that break on. -/
theorem line_rest (after : List Char) :
    after = after.takeWhile (· != '\n') ++ after.dropWhile (· != '\n') ∧
      '\n' ∉ after.takeWhile (· != '\n') ∧
      (after.dropWhile (· != '\n') = [] ∨ ∃ r, after.dropWhile (· != '\n') = '\n' :: r) := by
  refine ⟨List.takeWhile_append_dropWhile.symm, fun h => ?_, ?_⟩
  · have := List.mem_takeWhile_imp h
    simp at this
  · cases hd : after.dropWhile (· != '\n') with
    | nil => exact .inl rfl
    | cons d rest =>
      have hstop := List.head?_dropWhile_not (· != '\n') after
      rw [hd] at hstop
      simp only [List.head?_cons, bne_eq_false_iff_eq] at hstop
      exact .inr ⟨rest, by rw [hstop]⟩

/-- A line is not the whole text exactly when the text has a line break. -/
theorem LineAt.has_break_iff {text line pre post : List Char} {a : Nat}
    (h : LineAt text a pre line post) :
    (0 < utf8Length pre ∨ utf8Length pre + utf8Length line < utf8Length text) ↔ '\n' ∈ text := by
  have hnl : 0 < '\n'.utf8Size := Char.utf8Size_pos _
  rcases h.pre_end with rfl | ⟨q, rfl⟩ <;> rcases h.post_start with rfl | ⟨r, rfl⟩ <;>
    simp [h.split, utf8Length_append, h.no_break] <;> omega

namespace Cli

-- ---------------------------------------------------------------------------
-- The underline, run by run
-- ---------------------------------------------------------------------------

/-- The escape `decorate` writes between a character and the next: off when the underline ends,
on when it starts. -/
def switch (on under : Bool) : String :=
  if on && !under then underlineOff else if !on && under then underlineOn else ""

/-- One step of `decorate`'s fold: the text so far, whether the underline is on, and the byte
offset of the character read. -/
def decorateStep (a b : Nat) (st : String × Bool × Nat) (c : Char) : String × Bool × Nat :=
  let under := decide (a ≤ st.2.2 ∧ st.2.2 < b)
  (st.1 ++ switch st.2.1 under ++ c.toString, under, st.2.2 + c.utf8Size)

theorem decorate_eq_foldl (line : List Char) (a b : Nat) :
    decorate line a b =
      let st := line.foldl (decorateStep a b) ("", false, 0)
      let st := if utf8Length line ≤ a then (st.1 ++ underlineOn ++ " ", true) else (st.1, st.2.1)
      if st.2 then st.1 ++ underlineOff else st.1 := by
  rfl

/-- Over a run of characters that are all underlined, or all not, the fold switches at the run's
first character, if there is one, and copies the run. -/
theorem foldl_run (a b : Nat) (u : Bool) :
    ∀ (cs : List Char) (out : String) (on : Bool) (i : Nat),
      (∀ ci ∈ charIndices cs i, decide (a ≤ ci.2 ∧ ci.2 < b) = u) →
      cs.foldl (decorateStep a b) (out, on, i) =
        (out ++ (if cs = [] then "" else switch on u) ++ String.ofList cs,
          if cs = [] then on else u, i + utf8Length cs)
  | [], out, on, i, _ => by simp
  | c :: cs, out, on, i, h => by
    have hc : decide (a ≤ i ∧ i < b) = u := h (c, i) (by simp)
    have hstep : decorateStep a b (out, on, i) c =
        (out ++ switch on u ++ c.toString, u, i + c.utf8Size) := by
      simp [decorateStep, hc]
    -- past the first character the underline is already as the run wants it
    have hsame : switch u u = "" := by cases u <;> rfl
    rw [List.foldl_cons, hstep, foldl_run a b u cs _ u _ (fun ci hci => h ci (by simp_all))]
    simp only [reduceCtorEq, if_false, utf8Length_cons, Prod.mk.injEq]
    refine ⟨?_, by split <;> rfl, by omega⟩
    rw [@String.ofList_cons c cs, ← String.append_assoc]
    split <;> simp [hsame]

/-- The underline around a run of characters: the run between the two escapes, or nothing when
the run is empty. -/
def underline (cs : List Char) : String :=
  if cs = [] then "" else underlineOn ++ String.ofList cs ++ underlineOff

/-- A line in three runs, not underlined, underlined and not underlined, is decorated run by run:
the underline goes around the middle run, and an underlined space follows a line that ends
before the range starts. -/
theorem decorate_runs {a b : Nat} {below between above : List Char}
    (hbelow : ∀ ci ∈ charIndices below 0, decide (a ≤ ci.2 ∧ ci.2 < b) = false)
    (hbetween : ∀ ci ∈ charIndices between (utf8Length below),
      decide (a ≤ ci.2 ∧ ci.2 < b) = true)
    (habove : ∀ ci ∈ charIndices above (utf8Length below + utf8Length between),
      decide (a ≤ ci.2 ∧ ci.2 < b) = false)
    (hend : utf8Length (below ++ between ++ above) ≤ a → between = [] ∧ above = []) :
    decorate (below ++ between ++ above) a b =
      String.ofList below ++ underline between ++ String.ofList above ++
        (if utf8Length (below ++ between ++ above) ≤ a then underlineOn ++ " " ++ underlineOff
          else "") := by
  rw [decorate_eq_foldl, List.foldl_append, List.foldl_append,
    foldl_run a b false below "" false 0 hbelow, Nat.zero_add,
    foldl_run a b true between _ _ _ hbetween, foldl_run a b false above _ _ _ habove]
  by_cases hlen : utf8Length (below ++ between ++ above) ≤ a
  · -- the range starts past the line: nothing in it is underlined
    simp only [hlen, if_true]
    obtain ⟨rfl, rfl⟩ := hend hlen
    simp [switch, underline, String.append_assoc]
  · simp only [hlen, if_false]
    by_cases hb : between = [] <;> by_cases ha : above = [] <;>
      simp [hb, ha, switch, underline, String.append_assoc]

/-- What `decorate` draws: the characters that start before `a`, the characters that start in
`[a, b)` underlined, the characters that start later, and an underlined space when `a` is at or
past the end of the line. -/
theorem decorate_eq (line : List Char) (a b : Nat) :
    decorate line a b =
      String.ofList (charsAt line fun i => i < a) ++
        underline (charsAt line fun i => a ≤ i ∧ i < b) ++
        String.ofList (charsAt line fun i => a ≤ i ∧ b ≤ i) ++
        (if utf8Length line ≤ a then underlineOn ++ " " ++ underlineOff else "") := by
  obtain ⟨below, between, above, rfl, hbelow, hbetween, habove⟩ := three_runs line a b
  have hfirst := @charsAt_runs below between above (fun i => i < a) true false false
    (fun ci hci => by simp [hbelow ci hci])
    (fun ci hci => by simp [(hbetween ci hci).1])
    (fun ci hci => by simp [(habove ci hci).1])
  have hsecond := @charsAt_runs below between above (fun i => a ≤ i ∧ i < b) false true false
    (fun ci hci => by simp [hbelow ci hci])
    (fun ci hci => by simp [hbetween ci hci])
    (fun ci hci => by simp [(habove ci hci).2])
  have hthird := @charsAt_runs below between above (fun i => a ≤ i ∧ b ≤ i) false false true
    (fun ci hci => by have := hbelow ci hci; simp; omega)
    (fun ci hci => by simp [(hbetween ci hci).2])
    (fun ci hci => by simp [habove ci hci])
  simp only [Bool.false_eq_true, ↓reduceIte, List.append_nil, List.nil_append]
    at hfirst hsecond hthird
  rw [hfirst, hsecond, hthird]
  refine decorate_runs (fun ci hci => by simp [hbelow ci hci])
    (fun ci hci => by simp [hbetween ci hci]) (fun ci hci => by simp [(habove ci hci).2])
    (fun hlen => ?_)
  -- a line that ends before `a` has no character at `a` or later
  simp only [utf8Length_append] at hlen
  exact ⟨eq_nil_of_starts_past (fun ci hci => (hbetween ci hci).1) (by omega),
    eq_nil_of_starts_past (fun ci hci => (habove ci hci).1) (by omega)⟩

/-- How `report` shows an error whose span starts at a character boundary of the source: the
error in bold; when the source has more than one line, the number of the line that holds the
span's start and the column of the start in it, counted in characters; then that line,
decorated from the start on. The line is split at the start into `lead` and `rest`. -/
theorem report_eq {source : String} {e : Error} {s : Span} (hspan : e.span = some s)
    (hb : Boundary source.toList s.start) :
    ∃ pre lead rest post, LineAt source.toList s.start pre (lead ++ rest) post ∧
      utf8Length pre + utf8Length lead = s.start ∧
      report source e = bold e.display ++
        (if '\n' ∈ source.toList then
          "\nline " ++ toString (pre.count '\n' + 1) ++ ", column " ++
            toString (lead.length + 1) ++ ":"
        else "") ++ "\n" ++
        decorate (lead ++ rest) (utf8Length lead)
          (max (max (min s.stop (utf8Length pre + utf8Length (lead ++ rest))) s.start -
            utf8Length pre) (utf8Length lead + 1)) := by
  obtain ⟨before, after, hsplit, hbefore⟩ := hb
  obtain ⟨pre, lead, rfl, hlead, hpre, hlen⟩ := last_line before
  obtain ⟨hafter, hrest, hpost⟩ := line_rest after
  have hline : LineAt source.toList s.start pre (lead ++ after.takeWhile (· != '\n'))
      (after.dropWhile (· != '\n')) := by
    refine ⟨by rw [hsplit, hafter]; simp, hpre, by simp [hlead, hrest], hpost, ?_, ?_⟩
    all_goals simp only [utf8Length_append] at hbefore ⊢; omega
  refine ⟨pre, lead, after.takeWhile (· != '\n'), after.dropWhile (· != '\n'), hline,
    by rw [← hbefore, utf8Length_append], ?_⟩
  have hsize : ¬ source.utf8ByteSize < s.start := by
    rw [utf8ByteSize_eq_utf8Length, hsplit, utf8Length_append, hbefore]
    omega
  -- the report's search finds the line and the start's place in it
  have hcut : (splitAtByte source.toList s.start).1 = pre ++ lead := by
    rw [hsplit, ← hbefore, splitAtByte_utf8Length]
  have hfrom : (pre ++ lead).length -
      ((pre ++ lead).reverse.takeWhile (· != '\n')).length = pre.length := by
    rw [hlen, List.length_append]
    omega
  have hdrop : (source.toList.drop pre.length).takeWhile (· != '\n') =
      lead ++ after.takeWhile (· != '\n') := by
    rw [hsplit, List.append_assoc, List.drop_left' rfl,
      List.takeWhile_append_of_pos (fun c hc => by simpa using ne_of_mem_of_not_mem hc hlead)]
  have hstart : s.start - utf8Length pre = utf8Length lead := by
    rw [← hbefore, utf8Length_append]
    omega
  have hloc := hline.has_break_iff
  rw [← utf8ByteSize_eq_utf8Length] at hloc
  simp only [report, hspan, if_neg hsize, hcut, hfrom, List.take_left' rfl, hdrop, hstart,
    Bool.or_eq_true, decide_eq_true_eq, hloc]
  rw [List.length_append, Nat.add_sub_cancel_left]

end Cli

open Cli in
/-- Every error that running a program raises is reported against the program as the command
line shows it. With no span, the report is the error's text in bold. With a span `[a, b)`, the
span lies inside the program with `a` on a character boundary, so the report's slices of the
program stay on boundaries. The report is then the error's text in bold; when the program has
more than one line, the number of the line that holds `a`, one more than the line breaks before
it, and the column of `a`, one more than the characters between the line's start and `a`; then
that line with one underline around the characters that start in `[a', e)`, where `a'` is `a`
counted from the line's start and `e` the span's end cut at the line's end, at least `a' + 1`.
When `a'` is the end of the line, the underline holds a space. -/
theorem report_underlines_span {S : String} {E : Error} (h : run S = .error E) :
    (E.span = none → report S E = bold E.display) ∧
    ∀ s, E.span = some s → Span.Within S.toList s ∧
      ∃ pre line post, LineAt S.toList s.start pre line post ∧
        let a := s.start - utf8Length pre
        let e := max (min s.stop (utf8Length pre + utf8Length line) - utf8Length pre) (a + 1)
        report S E = bold E.display ++
          (if '\n' ∈ S.toList then
            "\nline " ++ toString ((charsAt S.toList fun i => i < s.start).count '\n' + 1) ++
              ", column " ++ toString ((charsAt line fun i => i < a).length + 1) ++ ":"
          else "") ++ "\n" ++
          String.ofList (charsAt line fun i => i < a) ++ underlineOn ++
          String.ofList (charsAt line fun i => a ≤ i ∧ i < e) ++
          (if a = utf8Length line then " " else "") ++ underlineOff ++
          String.ofList (charsAt line fun i => e ≤ i) := by
  refine ⟨fun hnone => by simp [report, hnone], fun s hs => ?_⟩
  have hwithin := run_error_within h hs
  obtain ⟨pre, lead, rest, post, hline, hlead, hreport⟩ := report_eq hs hwithin.2.1
  refine ⟨hwithin, pre, lead ++ rest, post, hline, ?_⟩
  intro a e
  have ha : a = utf8Length lead := by omega
  have he : max (max (min s.stop (utf8Length pre + utf8Length (lead ++ rest))) s.start -
      utf8Length pre) (utf8Length lead + 1) = e := by omega
  -- past `a` the characters from `e` on are those that start at `e` or later
  have hpost : (fun i => decide (a ≤ i ∧ e ≤ i)) = fun i => decide (e ≤ i) :=
    funext fun i => decide_eq_decide.mpr ⟨fun h => h.2, fun h => ⟨by omega, h⟩⟩
  -- the line breaks before `a` are those before its line
  have hbreaks : (charsAt S.toList fun i => i < s.start).count '\n' = pre.count '\n' := by
    have hlead' : '\n' ∉ lead := fun h => hline.no_break (List.mem_append_left rest h)
    rw [hline.split, ← hlead, ← utf8Length_append, List.append_assoc, List.append_assoc,
      ← List.append_assoc pre lead, charsAt_prefix, List.count_append,
      List.count_eq_zero.mpr hlead', Nat.add_zero]
  rw [hreport, he, decorate_eq, ← ha, hpost, hbreaks]
  simp only [ha, charsAt_prefix]
  cases rest with
  | nil =>
    -- the span starts at the end of its line: the underline holds a space
    simp only [List.append_nil]
    rw [charsAt_eq_nil (fun i hi => by simp at hi; omega),
      charsAt_eq_nil (fun i hi => by simp at hi; omega)]
    simp [underline, String.append_assoc]
  | cons c r =>
    -- a character starts at `a`: it opens the underline
    have hmid := charsAt_from_ne_nil lead r c (e := e) (by omega)
    have hlen : ¬ utf8Length (lead ++ c :: r) ≤ utf8Length lead := by
      simp only [utf8Length_append, utf8Length_cons]
      have := c.utf8Size_pos
      omega
    have hlen' : utf8Length lead ≠ utf8Length (lead ++ c :: r) := by omega
    rw [underline, if_neg hmid]
    simp [hlen, hlen', String.append_assoc]

open Cli in
/-- A stray closing parenthesis fails the program where it stands, and the report underlines it. -/
theorem report_underlines_stray_paren :
    let E : Error := ⟨.unrecognizedInput ")", some ⟨0, 1⟩⟩
    run ")" = .error E ∧
      (E.span = none → report ")" E = bold E.display) ∧
      ∀ s, E.span = some s → Span.Within ")".toList s ∧
        ∃ pre line post, LineAt ")".toList s.start pre line post ∧
          let a := s.start - utf8Length pre
          let e := max (min s.stop (utf8Length pre + utf8Length line) - utf8Length pre) (a + 1)
          report ")" E = bold E.display ++
            (if '\n' ∈ ")".toList then
              "\nline " ++ toString ((charsAt ")".toList fun i => i < s.start).count '\n' + 1) ++
                ", column " ++ toString ((charsAt line fun i => i < a).length + 1) ++ ":"
            else "") ++ "\n" ++
            String.ofList (charsAt line fun i => i < a) ++ underlineOn ++
            String.ofList (charsAt line fun i => a ≤ i ∧ i < e) ++
            (if a = utf8Length line then " " else "") ++ underlineOff ++
            String.ofList (charsAt line fun i => e ≤ i) := by
  intro E
  -- no rule takes the parenthesis, so renaming fails before anything runs
  have hscan : (Scan.tokens Rule.standard ({} : Machine).ops.contains ")").2 = some E := by
    rw [Scan.tokens, Scan.tokens_go_of_next_error]
    exact Scan.next_of_scan_error (by simp [Cursor.start]) (Scan.scan_close _ 0 [])
  have hrun : run ")" = .error E := by
    have hyg : Evaluation.hygiene ({} : Machine).ops ")" 0 .source =
        .error (E.relocate Origin.source.locate) :=
      Evaluation.hygiene_of_tokens_error hscan
    simp only [run, Machine.enter, Machine.evaluate, Evaluation.evaluateIn,
      Evaluation.Lifted.evaluateIn, Exec.run_bind_of_ok (Exec.run_takeUid _), Exec.run_get_bind]
    simp [hyg, Error.relocate, Origin.locate, E]
    rfl
  exact ⟨hrun, report_underlines_span hrun⟩

end Concatenative