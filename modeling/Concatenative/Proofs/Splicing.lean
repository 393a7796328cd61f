import Mathlib.Data.String.Basic
import Mathlib.Tactic.SplitIfs
import Concatenative.Syntax.Edits

/-!
# Splicing: what an edit record says about its two texts

An edit replaces pieces of a text one after another. Seen from both texts at once it is a list of
`Stretch`es, each the text the two share followed by what was removed and what was put in its
place, and then a tail the two share. `Edits.Describes e old new` says that `e` is the record of
such an edit of `old` into `new`: its splices stand where the stretches put them.

Positions of the new text map back through `Edits.mapBack`. Its start and end rules differ at the
edges of inserted text, which is what the results here pin down.

## Results

* `Edits.Describes.ordered` — the splices are in text order and do not overlap, the last one
  ending inside the new text;
* `Edits.Describes.mapBack_le` — every span of the new text maps to a span whose ends lie inside
  the old text;
* `Edits.Describes.mapBack_start_le` — its start is not after its end, except for an empty span
  sitting on a splice that inserted nothing and removed something;
* `Edits.Describes.mapBack_untouched` — a span that touches no splice keeps its length and its
  bytes;
* `Edits.Describes.mapBack_inserted` — the text a splice inserted maps back to the text it
  removed;
* `Edits.Replaces.mapBack_inserted` — so, for a record that replaces given spans, each nonempty
  replacement maps back to the span it replaced.
-/

namespace Concatenative

-- ---------------------------------------------------------------------------
-- Bytes of a text
-- ---------------------------------------------------------------------------

/-- The UTF-8 bytes of a list of characters. -/
def utf8Bytes (cs : List Char) : List UInt8 :=
  cs.flatMap String.utf8EncodeChar

@[simp] theorem utf8Bytes_nil : utf8Bytes [] = [] := rfl

@[simp] theorem utf8Bytes_append (as bs : List Char) :
    utf8Bytes (as ++ bs) = utf8Bytes as ++ utf8Bytes bs := by
  simp [utf8Bytes]

@[simp] theorem length_utf8Bytes (cs : List Char) : (utf8Bytes cs).length = utf8Length cs := by
  induction cs with
  | nil => rfl
  | cons c cs ih =>
    simp only [utf8Bytes, List.flatMap_cons, List.length_append, String.length_utf8EncodeChar,
      utf8Length_cons] at *
    rw [ih]

theorem utf8Length_eq_utf8Len (cs : List Char) : utf8Length cs = String.utf8Len cs := by
  induction cs with
  | nil => rfl
  | cons c cs ih => simp [ih, Nat.add_comm]

/-- A string's byte size is the UTF-8 length of its characters. -/
theorem utf8ByteSize_eq_utf8Length (s : String) : s.utf8ByteSize = utf8Length s.toList := by
  rw [utf8Length_eq_utf8Len, ← String.utf8ByteSize_ofList, String.ofList_toList]

/-- The bytes `[a, b)` of a byte list. -/
def byteSlice (bs : List UInt8) (a b : Nat) : List UInt8 :=
  (bs.drop a).take (b - a)

/-- A slice that lies in the front part of a list does not see the rest. -/
theorem byteSlice_append_of_le {xs ys : List UInt8} {a b : Nat} (hb : b ≤ xs.length) :
    byteSlice (xs ++ ys) a b = byteSlice xs a b := by
  unfold byteSlice
  by_cases ha : a ≤ xs.length
  · rw [List.drop_append_of_le_length ha, List.take_append_of_le_length]
    simp only [List.length_drop]
    omega
  · have hab : b - a = 0 := by omega
    simp [hab]

/-- A slice past the front part of a list is a slice of the rest. -/
theorem byteSlice_append_right {xs ys : List UInt8} {a b : Nat} (ha : xs.length ≤ a) :
    byteSlice (xs ++ ys) a b = byteSlice ys (a - xs.length) (b - xs.length) := by
  unfold byteSlice
  rw [List.drop_append, List.drop_eq_nil_of_le ha, List.nil_append]
  congr 1
  omega

-- ---------------------------------------------------------------------------
-- Stretches and the splices they lay out
-- ---------------------------------------------------------------------------

/-- One replacement seen from both texts: the text the two share before it, the text it removed
and the text it put in its place. -/
structure Stretch where
  gap : List Char
  old : List Char
  new : List Char
  deriving Inhabited

namespace Stretch

/-- The stretch as it stands in the old text. -/
def before (s : Stretch) : List Char :=
  s.gap ++ s.old

/-- The stretch as it stands in the new text. -/
def after (s : Stretch) : List Char :=
  s.gap ++ s.new

@[simp] theorem utf8Length_before (s : Stretch) :
    utf8Length s.before = utf8Length s.gap + utf8Length s.old := by
  simp [before, utf8Length_append]

@[simp] theorem utf8Length_after (s : Stretch) :
    utf8Length s.after = utf8Length s.gap + utf8Length s.new := by
  simp [after, utf8Length_append]

end Stretch

/-- The splices of stretches laid out one after another from byte `base` of the new text. -/
def splicesOf : Nat → List Stretch → List Splice
  | _, [] => []
  | base, s :: ss =>
    ⟨base + utf8Length s.gap, utf8Length s.old, utf8Length s.new⟩ ::
      splicesOf (base + utf8Length s.gap + utf8Length s.new) ss

@[simp] theorem splicesOf_nil (base : Nat) : splicesOf base [] = [] := rfl

theorem splicesOf_cons (base : Nat) (s : Stretch) (ss : List Stretch) :
    splicesOf base (s :: ss) =
      ⟨base + utf8Length s.gap, utf8Length s.old, utf8Length s.new⟩ ::
        splicesOf (base + utf8Length s.gap + utf8Length s.new) ss := rfl

@[simp] theorem length_splicesOf (base : Nat) (ss : List Stretch) :
    (splicesOf base ss).length = ss.length := by
  induction ss generalizing base with
  | nil => rfl
  | cons s ss ih => simp [splicesOf_cons, ih]

theorem splicesOf_append (base : Nat) (ss ts : List Stretch) :
    splicesOf base (ss ++ ts) =
      splicesOf base ss ++ splicesOf (base + utf8Length (ss.flatMap Stretch.after)) ts := by
  induction ss generalizing base with
  | nil => simp
  | cons s ss ih =>
    simp only [List.cons_append, splicesOf_cons, ih, List.flatMap_cons, utf8Length_append,
      Stretch.utf8Length_after, List.cons.injEq, true_and]
    congr 2
    omega

/-- Every splice laid out from `base` starts at or after it. -/
theorem base_le_pos {base : Nat} {ss : List Stretch} {s : Splice} (h : s ∈ splicesOf base ss) :
    base ≤ s.pos := by
  induction ss generalizing base with
  | nil => simp at h
  | cons t ts ih =>
    rw [splicesOf_cons, List.mem_cons] at h
    rcases h with rfl | h
    · exact Nat.le_add_right _ _
    · have := ih h
      omega

/-- The splices laid out by stretches are in text order, each ending before the next starts. -/
theorem splicesOf_pairwise (base : Nat) (ss : List Stretch) :
    (splicesOf base ss).Pairwise fun s t => s.pos + s.inserted ≤ t.pos := by
  induction ss generalizing base with
  | nil => simp
  | cons s ss ih =>
    rw [splicesOf_cons, List.pairwise_cons]
    exact ⟨fun t ht => base_le_pos ht, ih _⟩

/-- Every splice laid out by stretches ends inside the new text they make. -/
theorem end_le_of_mem_splicesOf {base : Nat} {ss : List Stretch} {s : Splice}
    (h : s ∈ splicesOf base ss) :
    s.pos + s.inserted ≤ base + utf8Length (ss.flatMap Stretch.after) := by
  induction ss generalizing base with
  | nil => simp at h
  | cons t ts ih =>
    rw [splicesOf_cons, List.mem_cons] at h
    simp only [List.flatMap_cons, utf8Length_append, Stretch.utf8Length_after]
    rcases h with rfl | h
    · simp only
      omega
    · have := ih h
      omega

/-- Laying stretches out further along moves every splice by as much. -/
theorem splicesOf_add (base k : Nat) (ss : List Stretch) :
    splicesOf (base + k) ss = (splicesOf base ss).map fun s => { s with pos := s.pos + k } := by
  induction ss generalizing base with
  | nil => simp
  | cons s ss ih =>
    rw [splicesOf_cons, splicesOf_cons, List.map_cons, ← ih]
    dsimp only
    congr 2
    · omega
    · omega

/-- The regions of the old text that stretches laid out from byte `base` replace, each with the
text put in its place. -/
def regionsOf : Nat → List Stretch → List (Span × String)
  | _, [] => []
  | base, s :: ss =>
    (⟨base + utf8Length s.gap, base + utf8Length s.gap + utf8Length s.old⟩, String.ofList s.new) ::
      regionsOf (base + utf8Length s.gap + utf8Length s.old) ss

@[simp] theorem regionsOf_nil (base : Nat) : regionsOf base [] = [] := rfl

theorem regionsOf_cons (base : Nat) (s : Stretch) (ss : List Stretch) :
    regionsOf base (s :: ss) =
      (⟨base + utf8Length s.gap, base + utf8Length s.gap + utf8Length s.old⟩,
        String.ofList s.new) :: regionsOf (base + utf8Length s.gap + utf8Length s.old) ss := rfl

theorem regionsOf_append (base : Nat) (ss ts : List Stretch) :
    regionsOf base (ss ++ ts) =
      regionsOf base ss ++ regionsOf (base + utf8Length (ss.flatMap Stretch.before)) ts := by
  induction ss generalizing base with
  | nil => simp
  | cons s ss ih =>
    simp only [List.cons_append, regionsOf_cons, ih, List.flatMap_cons, utf8Length_append,
      Stretch.utf8Length_before, List.cons.injEq, true_and]
    congr 2
    omega

/-- Each splice stands beside the region it replaced: the stretch they come from, with the
stretches before it. -/
theorem mem_zip_regionsOf {nb ob : Nat} {ss : List Stretch} {sp : Splice} {r : Span × String}
    (h : (sp, r) ∈ (splicesOf nb ss).zip (regionsOf ob ss)) :
    ∃ pre s post, ss = pre ++ s :: post ∧
      sp = ⟨nb + utf8Length (pre.flatMap Stretch.after) + utf8Length s.gap, utf8Length s.old,
        utf8Length s.new⟩ ∧
      r = (⟨ob + utf8Length (pre.flatMap Stretch.before) + utf8Length s.gap,
        ob + utf8Length (pre.flatMap Stretch.before) + utf8Length s.gap + utf8Length s.old⟩,
        String.ofList s.new) := by
  induction ss generalizing nb ob with
  | nil => simp at h
  | cons s ss ih =>
    rw [splicesOf_cons, regionsOf_cons, List.zip_cons_cons, List.mem_cons] at h
    rcases h with h | h
    · simp only [Prod.mk.injEq] at h
      exact ⟨[], s, ss, rfl, by simp [h.1], by simp [h.2]⟩
    · obtain ⟨pre, t, post, rfl, rfl, rfl⟩ := ih h
      refine ⟨s :: pre, t, post, rfl, ?_, ?_⟩
      · simp only [List.flatMap_cons, utf8Length_append, Stretch.utf8Length_after,
          Splice.mk.injEq, and_true]
        omega
      · simp only [List.flatMap_cons, utf8Length_append, Stretch.utf8Length_before,
          Prod.mk.injEq, Span.mk.injEq, and_true]
        omega

namespace Stretch

/-- The stretches with `pre` added in front of the first one's gap. -/
def widen (pre : List Char) : List Stretch → List Stretch
  | [] => []
  | s :: ss => { s with gap := pre ++ s.gap } :: ss

theorem flatMap_before_widen (pre : List Char) {ss : List Stretch} (hss : ss ≠ []) :
    (widen pre ss).flatMap before = pre ++ ss.flatMap before := by
  cases ss with
  | nil => exact absurd rfl hss
  | cons s ss => simp [widen, before, List.append_assoc]

theorem flatMap_after_widen (pre : List Char) {ss : List Stretch} (hss : ss ≠ []) :
    (widen pre ss).flatMap after = pre ++ ss.flatMap after := by
  cases ss with
  | nil => exact absurd rfl hss
  | cons s ss => simp [widen, after, List.append_assoc]

theorem splicesOf_widen (base : Nat) (pre : List Char) {ss : List Stretch} (hss : ss ≠ []) :
    splicesOf base (widen pre ss) = splicesOf (base + utf8Length pre) ss := by
  cases ss with
  | nil => exact absurd rfl hss
  | cons s ss =>
    rw [widen, splicesOf_cons, splicesOf_cons]
    simp only [utf8Length_append]
    congr 2
    · omega
    · omega

theorem regionsOf_widen (base : Nat) (pre : List Char) {ss : List Stretch} (hss : ss ≠ []) :
    regionsOf base (widen pre ss) = regionsOf (base + utf8Length pre) ss := by
  cases ss with
  | nil => exact absurd rfl hss
  | cons s ss =>
    rw [widen, regionsOf_cons, regionsOf_cons]
    simp only [utf8Length_append]
    congr 1
    · simp only [Prod.mk.injEq, Span.mk.injEq, and_true]
      omega
    · congr 1
      omega

end Stretch

-- ---------------------------------------------------------------------------
-- Mapping positions back, one splice at a time
-- ---------------------------------------------------------------------------

/-- A span `[a, b)` touches a splice when it overlaps the splice's inserted text, or when both are
empty and sit at one position. -/
def Splice.Touches (s : Splice) (a b : Nat) : Prop :=
  (s.pos < b ∧ a < s.pos + s.inserted) ∨ (a = b ∧ s.pos = a ∧ s.inserted = 0)

namespace Edits

/-- `mapPosition` over the splices as a list. -/
def locateIn : List Splice → Int → Nat → Bool → Nat
  | [], delta, p, _ => (p - delta).toNat
  | s :: ss, delta, p, atEnd =>
    if (if atEnd then p ≤ s.pos else p < s.pos) then (p - delta).toNat
    else if (if atEnd then p ≤ s.pos + s.inserted else p < s.pos + s.inserted) then
      let start := ((s.pos : Int) - delta).toNat
      if atEnd then start + s.removed else start
    else locateIn ss (delta + s.inserted - s.removed) p atEnd

theorem mapPosition_eq_locateIn (splices : Array Splice) (i : Nat) (delta : Int) (p : Nat)
    (atEnd : Bool) :
    mapPosition splices i delta p atEnd = locateIn (splices.toList.drop i) delta p atEnd := by
  fun_induction mapPosition splices i delta p atEnd with
  | case1 i delta hi s hbefore =>
    rw [← List.getElem_cons_drop (by simpa using hi), locateIn, Array.getElem_toList]
    simp only [dite_eq_ite] at hbefore
    rw [if_pos hbefore]
  | case2 i delta hi s hbefore hinside start hend =>
    rw [← List.getElem_cons_drop (by simpa using hi), locateIn, Array.getElem_toList]
    simp only [dite_eq_ite] at hbefore hinside
    rw [if_neg hbefore, if_pos hinside]
    simp [hend, start, s]
  | case3 i delta hi s hbefore hinside start hend =>
    rw [← List.getElem_cons_drop (by simpa using hi), locateIn, Array.getElem_toList]
    simp only [dite_eq_ite] at hbefore hinside
    rw [if_neg hbefore, if_pos hinside]
    simp [hend, start, s]
  | case4 i delta hi s hbefore hinside ih =>
    rw [← List.getElem_cons_drop (by simpa using hi), locateIn, Array.getElem_toList]
    simp only [dite_eq_ite] at hbefore hinside
    rw [if_neg hbefore, if_neg hinside, ih]
  | case5 i delta hi =>
    rw [List.drop_eq_nil_of_le (by simpa using hi), locateIn]

theorem mapBack_eq (e : Edits) (s : Span) :
    e.mapBack s = ⟨locateIn e.splices.toList 0 s.start false, locateIn e.splices.toList 0 s.stop true⟩ := by
  simp [mapBack, mapPosition_eq_locateIn]

end Edits

namespace Stretch

/-- Where position `p` of the new text stands in the old one, for stretches laid out from byte
`nb` of the new text and byte `ob` of the old; `atEnd` as in `Edits.mapPosition`. -/
def locate (nb ob : Nat) (ss : List Stretch) (p : Nat) (atEnd : Bool) : Nat :=
  Edits.locateIn (splicesOf nb ss) ((nb : Int) - ob) p atEnd

theorem locate_nil {nb ob p : Nat} (atEnd : Bool) (hp : nb ≤ p) :
    locate nb ob [] p atEnd = p - nb + ob := by
  simp only [locate, splicesOf_nil, Edits.locateIn]
  omega

theorem delta_step (nb ob : Nat) (s : Stretch) :
    ((nb : Int) - ob) + (utf8Length s.new : Int) - (utf8Length s.old : Int) =
      ((nb + utf8Length s.gap + utf8Length s.new : Nat) : Int) -
        ((ob + utf8Length s.gap + utf8Length s.old : Nat) : Int) := by
  omega

/-- The start of a span and one stretch: before the inserted text a position keeps its distance
from the base, inside it goes to the start of the removed text, past it the next stretches
decide. -/
theorem locate_cons_start {nb ob p : Nat} (s : Stretch) (ss : List Stretch) (hp : nb ≤ p) :
    locate nb ob (s :: ss) p false =
      if p < nb + utf8Length s.gap then p - nb + ob
      else if p < nb + utf8Length s.gap + utf8Length s.new then ob + utf8Length s.gap
      else locate (nb + utf8Length s.gap + utf8Length s.new)
        (ob + utf8Length s.gap + utf8Length s.old) ss p false := by
  simp only [locate, splicesOf_cons, Edits.locateIn, Bool.false_eq_true, if_false,
    delta_step]
  split_ifs <;> omega

/-- The end of a span and one stretch: a position at the start of the inserted text still counts
as before it, one at its end as inside it, where it goes to the end of the removed text. -/
theorem locate_cons_end {nb ob p : Nat} (s : Stretch) (ss : List Stretch) (hp : nb ≤ p) :
    locate nb ob (s :: ss) p true =
      if p ≤ nb + utf8Length s.gap then p - nb + ob
      else if p ≤ nb + utf8Length s.gap + utf8Length s.new then
        ob + utf8Length s.gap + utf8Length s.old
      else locate (nb + utf8Length s.gap + utf8Length s.new)
        (ob + utf8Length s.gap + utf8Length s.old) ss p true := by
  simp only [locate, splicesOf_cons, Edits.locateIn, if_true, delta_step]
  split_ifs <;> omega

/-- The end of a span at the base of the stretches stays at the base of the old text. -/
theorem locate_base_end (nb ob : Nat) (ss : List Stretch) : locate nb ob ss nb true = ob := by
  cases ss with
  | nil => simp [locate_nil]
  | cons s ss =>
    rw [locate_cons_end s ss (Nat.le_refl nb), if_pos (by omega)]
    omega

/-- The start of a span at the base stays at the base too, unless a splice there inserted nothing
and removed something. -/
theorem locate_base_start :
    ∀ (nb ob : Nat) (ss : List Stretch),
      (∀ s ∈ splicesOf nb ss, s.pos = nb → s.inserted = 0 → s.removed = 0) →
      locate nb ob ss nb false = ob
  | nb, ob, [], _ => by simp [locate_nil]
  | nb, ob, s :: ss, hzero => by
    rw [locate_cons_start s ss (Nat.le_refl nb)]
    split_ifs with hgap hins
    · omega
    · omega
    · -- an empty gap and nothing inserted: the splice removed nothing either
      have hs : utf8Length s.old = 0 :=
        hzero _ (List.mem_cons_self ..) (by simp only; omega) (by simp only; omega)
      have hnb : nb + utf8Length s.gap + utf8Length s.new = nb := by omega
      have hob : ob + utf8Length s.gap + utf8Length s.old = ob := by omega
      have ih := locate_base_start (nb + utf8Length s.gap + utf8Length s.new)
        (ob + utf8Length s.gap + utf8Length s.old) ss fun t ht hpos hins =>
          hzero t (List.mem_cons_of_mem _ ht) (by omega) hins
      rw [hnb, hob] at ih ⊢
      exact ih

/-- A position maps at or after the base of the old text. -/
theorem le_locate (atEnd : Bool) :
    ∀ (nb ob : Nat) (ss : List Stretch) (p : Nat), nb ≤ p → ob ≤ locate nb ob ss p atEnd
  | nb, ob, [], p, hlo => by
    rw [locate_nil atEnd hlo]
    omega
  | nb, ob, s :: ss, p, hlo => by
    have hrest : nb + utf8Length s.gap + utf8Length s.new ≤ p →
        ob ≤ locate (nb + utf8Length s.gap + utf8Length s.new)
          (ob + utf8Length s.gap + utf8Length s.old) ss p atEnd := fun hp => by
      have := le_locate atEnd (nb + utf8Length s.gap + utf8Length s.new)
        (ob + utf8Length s.gap + utf8Length s.old) ss p hp
      omega
    cases atEnd with
    | false =>
      rw [locate_cons_start s ss hlo]
      split_ifs with h1 h2
      · omega
      · omega
      · exact hrest (by omega)
    | true =>
      rw [locate_cons_end s ss hlo]
      split_ifs with h1 h2
      · omega
      · omega
      · exact hrest (by omega)

/-- A position of the new text maps inside the old text. -/
theorem locate_le (atEnd : Bool) (tail : List Char) :
    ∀ (nb ob : Nat) (ss : List Stretch) (p : Nat), nb ≤ p →
      p ≤ nb + utf8Length (ss.flatMap after) + utf8Length tail →
      locate nb ob ss p atEnd ≤ ob + utf8Length (ss.flatMap before) + utf8Length tail
  | nb, ob, [], p, hlo, hhi => by
    simp only [List.flatMap_nil, utf8Length_nil] at hhi ⊢
    rw [locate_nil atEnd hlo]
    omega
  | nb, ob, s :: ss, p, hlo, hhi => by
    simp only [List.flatMap_cons, utf8Length_append, utf8Length_after,
      utf8Length_before] at hhi ⊢
    have hrest : nb + utf8Length s.gap + utf8Length s.new ≤ p →
        locate (nb + utf8Length s.gap + utf8Length s.new)
            (ob + utf8Length s.gap + utf8Length s.old) ss p atEnd ≤
          ob + (utf8Length s.gap + utf8Length s.old + utf8Length (ss.flatMap before)) +
            utf8Length tail := fun hp => by
      have := locate_le atEnd tail (nb + utf8Length s.gap + utf8Length s.new)
        (ob + utf8Length s.gap + utf8Length s.old) ss p hp (by omega)
      omega
    cases atEnd with
    | false =>
      rw [locate_cons_start s ss hlo]
      split_ifs with h1 h2
      · omega
      · omega
      · exact hrest (by omega)
    | true =>
      rw [locate_cons_end s ss hlo]
      split_ifs with h1 h2
      · omega
      · omega
      · exact hrest (by omega)

/-- A span's start maps at or before where its end maps, unless the span is empty and sits on a
splice that removed text and inserted none. -/
theorem locate_start_le_end :
    ∀ (nb ob : Nat) (ss : List Stretch) (a b : Nat), nb ≤ a → a ≤ b →
      (a < b ∨ ∀ s ∈ splicesOf nb ss, s.pos = a → s.inserted = 0 → s.removed = 0) →
      locate nb ob ss a false ≤ locate nb ob ss b true
  | nb, ob, [], a, b, ha, hab, _ => by
    rw [locate_nil false ha, locate_nil true (by omega)]
    omega
  | nb, ob, s :: ss, a, b, ha, hab, hzero => by
    -- the first splice's inserted text is `[pos, stop)`; the rest is laid out from `stop`
    let pos := nb + utf8Length s.gap
    let stop := pos + utf8Length s.new
    let ob' := ob + utf8Length s.gap + utf8Length s.old
    have hzero' : a < b ∨ ∀ t ∈ splicesOf stop ss, t.pos = a → t.inserted = 0 →
        t.removed = 0 :=
      hzero.imp_right fun hall t ht => hall t (List.mem_cons_of_mem _ ht)
    -- a start at `stop` maps to the base of the rest when `a = b`
    have hbase : a = stop → a = b → locate stop ob' ss a false = ob' := by
      intro hstop hab'
      subst hstop
      refine locate_base_start _ _ ss fun t ht hpos hins => ?_
      rcases hzero' with hlt | hall
      · omega
      · exact hall t ht hpos hins
    rw [locate_cons_start s ss ha, locate_cons_end s ss (by omega)]
    split_ifs with hs1 hs2 he1 he2 he3 he4 he5 he6
    · omega
    · omega
    · exact Nat.le_trans (by omega) (le_locate true stop ob' ss b (by omega))
    · omega
    · omega
    · exact Nat.le_trans (by omega) (le_locate true stop ob' ss b (by omega))
    · -- `a = b` sits where the first splice inserted nothing
      have hins : utf8Length s.new = 0 := by omega
      have hrem : utf8Length s.old = 0 := by
        rcases hzero with hlt | hall
        · omega
        · exact hall _ (List.mem_cons_self ..) (by simp only; omega) hins
      have hb := hbase (by omega) (by omega)
      simp only [stop, pos, ob'] at hb
      omega
    · have hb := hbase (by omega) (by omega)
      simp only [stop, pos, ob'] at hb
      omega
    · exact locate_start_le_end stop ob' ss a b (by omega) hab hzero'

/-- A span that touches no splice maps to a span of the same length holding the same bytes. -/
theorem locate_untouched (tail : List Char) :
    ∀ (nb ob : Nat) (ss : List Stretch) (a b : Nat), nb ≤ a → a ≤ b →
      (∀ s ∈ splicesOf nb ss, ¬ s.Touches a b) →
      locate nb ob ss b true = locate nb ob ss a false + (b - a) ∧
        byteSlice (utf8Bytes (ss.flatMap before ++ tail)) (locate nb ob ss a false - ob)
            (locate nb ob ss b true - ob) =
          byteSlice (utf8Bytes (ss.flatMap after ++ tail)) (a - nb) (b - nb)
  | nb, ob, [], a, b, ha, hab, _ => by
    rw [locate_nil false ha, locate_nil true (by omega)]
    refine ⟨by omega, ?_⟩
    simp only [List.flatMap_nil, List.nil_append]
    congr 1 <;> omega
  | nb, ob, s :: ss, a, b, ha, hab, hfree => by
    have hfirst := hfree _ (List.mem_cons_self ..)
    simp only [Splice.Touches, not_or, not_and] at hfirst
    have hbefore : utf8Bytes ((s :: ss).flatMap before ++ tail) =
        utf8Bytes s.gap ++ (utf8Bytes s.old ++ utf8Bytes (ss.flatMap before ++ tail)) := by
      simp [before, List.append_assoc]
    have hafter : utf8Bytes ((s :: ss).flatMap after ++ tail) =
        utf8Bytes s.gap ++ (utf8Bytes s.new ++ utf8Bytes (ss.flatMap after ++ tail)) := by
      simp [after, List.append_assoc]
    rw [locate_cons_start s ss ha, locate_cons_end s ss (by omega), hbefore, hafter]
    -- the first splice's inserted text ends at `stop`; the rest is laid out from there
    set stop := nb + utf8Length s.gap + utf8Length s.new with hstop
    set ob' := ob + utf8Length s.gap + utf8Length s.old with hob'
    by_cases hb : b ≤ nb + utf8Length s.gap
    · -- the span lies in the gap before the first splice
      have hstart : (if a < nb + utf8Length s.gap then a - nb + ob
          else if a < stop then ob + utf8Length s.gap else locate stop ob' ss a false) =
          a - nb + ob := by
        split_ifs with h1 h2
        · rfl
        · omega
        · exfalso
          have := hfirst.2
          omega
      rw [hstart, if_pos hb]
      refine ⟨by omega, ?_⟩
      rw [byteSlice_append_of_le (by simp; omega), byteSlice_append_of_le (by simp; omega)]
      congr 1 <;> omega
    · -- the span lies past the first splice's inserted text
      have hpast : stop ≤ a := by
        have := hfirst.1 (by omega)
        omega
      have hstart : (if a < nb + utf8Length s.gap then a - nb + ob
          else if a < stop then ob + utf8Length s.gap else locate stop ob' ss a false) =
          locate stop ob' ss a false := by
        rw [if_neg (by omega), if_neg (by omega)]
      have hend : (if b ≤ nb + utf8Length s.gap then b - nb + ob
          else if b ≤ stop then ob' else locate stop ob' ss b true) =
          locate stop ob' ss b true := by
        rw [if_neg hb]
        split_ifs with h1
        · -- an empty span at the end of the inserted text: the rest starts there
          obtain rfl : b = stop := by omega
          rw [locate_base_end]
        · rfl
      rw [hstart, hend]
      have ih := locate_untouched tail stop ob' ss a b hpast hab
        fun t ht => hfree t (List.mem_cons_of_mem _ ht)
      have hlo := le_locate false stop ob' ss a hpast
      refine ⟨ih.1, ?_⟩
      rw [byteSlice_append_right (by simp; omega), byteSlice_append_right (by simp; omega),
        byteSlice_append_right (by simp; omega), byteSlice_append_right (by simp; omega)]
      simp only [length_utf8Bytes]
      have hb' := ih.1
      -- both slices are the rest's, counted from the rest's bases
      have e1 : locate stop ob' ss a false - ob - utf8Length s.gap - utf8Length s.old =
          locate stop ob' ss a false - ob' := by omega
      have e2 : locate stop ob' ss b true - ob - utf8Length s.gap - utf8Length s.old =
          locate stop ob' ss b true - ob' := by omega
      have e3 : a - nb - utf8Length s.gap - utf8Length s.new = a - stop := by omega
      have e4 : b - nb - utf8Length s.gap - utf8Length s.new = b - stop := by omega
      rw [e1, e2, e3, e4]
      exact ih.2

/-- The text a splice inserted maps back to exactly the text it removed. -/
theorem locate_inserted (s : Stretch) (post : List Stretch) (hins : 0 < utf8Length s.new) :
    ∀ (nb ob : Nat) (pre : List Stretch),
      locate nb ob (pre ++ s :: post)
          (nb + utf8Length (pre.flatMap after) + utf8Length s.gap) false =
        ob + utf8Length (pre.flatMap before) + utf8Length s.gap ∧
      locate nb ob (pre ++ s :: post)
          (nb + utf8Length (pre.flatMap after) + utf8Length s.gap + utf8Length s.new) true =
        ob + utf8Length (pre.flatMap before) + utf8Length s.gap + utf8Length s.old
  | nb, ob, [] => by
    simp only [List.flatMap_nil, utf8Length_nil, Nat.add_zero, List.nil_append]
    rw [locate_cons_start s post (by omega), locate_cons_end s post (by omega)]
    constructor
    · rw [if_neg (by omega), if_pos (by omega)]
    · rw [if_neg (by omega), if_pos (by omega)]
  | nb, ob, t :: pre => by
    have ih := locate_inserted s post hins (nb + utf8Length t.gap + utf8Length t.new)
      (ob + utf8Length t.gap + utf8Length t.old) pre
    simp only [List.flatMap_cons, utf8Length_append, utf8Length_after, utf8Length_before,
      List.cons_append] at ih ⊢
    rw [locate_cons_start t _ (by omega), locate_cons_end t _ (by omega)]
    rw [if_neg (by omega), if_neg (by omega), if_neg (by omega), if_neg (by omega)]
    have hpos : nb + (utf8Length t.gap + utf8Length t.new + utf8Length (pre.flatMap after)) +
        utf8Length s.gap =
          nb + utf8Length t.gap + utf8Length t.new + utf8Length (pre.flatMap after) +
            utf8Length s.gap := by omega
    have hold : ob + (utf8Length t.gap + utf8Length t.old + utf8Length (pre.flatMap before)) =
        ob + utf8Length t.gap + utf8Length t.old + utf8Length (pre.flatMap before) := by omega
    rw [hpos, hold]
    exact ih

/-- A position inside the first gap keeps its distance from the base. At the gap's end a start
still does so when the first splice inserts something. -/
theorem locate_within (atEnd : Bool) {nb ob k : Nat} {ss : List Stretch}
    (hss : ∀ s ∈ ss.head?, k ≤ utf8Length s.gap ∧ s.new ≠ []) :
    locate nb ob ss (nb + k) atEnd = ob + k := by
  cases ss with
  | nil => rw [locate_nil atEnd (by omega)]; omega
  | cons s ss =>
    obtain ⟨hk, hnew⟩ := hss s rfl
    have hins : s.new.length ≤ utf8Length s.new := length_le_utf8Length s.new
    have hpos : 0 < s.new.length := List.length_pos_iff.mpr hnew
    cases atEnd with
    | false =>
      rw [locate_cons_start s ss (by omega)]
      split_ifs <;> omega
    | true =>
      rw [locate_cons_end s ss (by omega), if_pos (by omega)]
      omega

/-- Past stretches that each insert something, a position is placed by the stretches after
them, laid out from where those stretches end. -/
theorem locate_append (atEnd : Bool) (post : List Stretch) :
    ∀ (nb ob : Nat) (pre : List Stretch) (p : Nat), (∀ s ∈ pre, s.new ≠ []) →
      nb + utf8Length (pre.flatMap after) ≤ p →
      locate nb ob (pre ++ post) p atEnd =
        locate (nb + utf8Length (pre.flatMap after)) (ob + utf8Length (pre.flatMap before)) post
          p atEnd
  | nb, ob, [], p, _, _ => by simp
  | nb, ob, s :: pre, p, hnew, hp => by
    have hins : s.new.length ≤ utf8Length s.new := length_le_utf8Length s.new
    have hpos : 0 < s.new.length := List.length_pos_iff.mpr (hnew s (List.mem_cons_self ..))
    simp only [List.flatMap_cons, utf8Length_append, utf8Length_after,
      utf8Length_before] at hp ⊢
    have ih := locate_append atEnd post (nb + utf8Length s.gap + utf8Length s.new)
      (ob + utf8Length s.gap + utf8Length s.old) pre p
      (fun t ht => hnew t (List.mem_cons_of_mem _ ht)) (by omega)
    have hnb : nb + utf8Length s.gap + utf8Length s.new + utf8Length (pre.flatMap after) =
        nb + (utf8Length s.gap + utf8Length s.new + utf8Length (pre.flatMap after)) := by omega
    have hob : ob + utf8Length s.gap + utf8Length s.old + utf8Length (pre.flatMap before) =
        ob + (utf8Length s.gap + utf8Length s.old + utf8Length (pre.flatMap before)) := by omega
    rw [hnb, hob] at ih
    cases atEnd with
    | false =>
      rw [List.cons_append, locate_cons_start s _ (by omega), if_neg (by omega), if_neg (by omega),
        ih]
    | true =>
      rw [List.cons_append, locate_cons_end s _ (by omega), if_neg (by omega)]
      split_ifs with hend
      · -- `p` ends the first stretch's inserted text, so no stretch follows it in `pre`
        have hpre : pre = [] := by
          cases pre with
          | nil => rfl
          | cons t pre =>
            have : t.new.length ≤ utf8Length ((t :: pre).flatMap after) := by
              simp only [List.flatMap_cons, after, utf8Length_append]
              have := length_le_utf8Length t.new
              omega
            have := List.length_pos_iff.mpr (hnew t (by simp))
            omega
        subst hpre
        simp only [List.flatMap_nil, utf8Length_nil, Nat.add_zero] at hp ⊢
        have hp' : p = nb + (utf8Length s.gap + utf8Length s.new) := by omega
        rw [hp', locate_base_end]
        omega
      · exact ih

/-- Widening the first gap lays the same splices out from further along, in both texts. -/
theorem locate_widen (nb ob : Nat) (pre : List Char) {ss : List Stretch} (hss : ss ≠ [])
    (post : List Stretch) (p : Nat) (atEnd : Bool) :
    locate nb ob (widen pre ss ++ post) p atEnd =
      locate (nb + utf8Length pre) (ob + utf8Length pre) (ss ++ post) p atEnd := by
  have hw : widen pre ss ++ post = widen pre (ss ++ post) := by
    cases ss with
    | nil => exact absurd rfl hss
    | cons s ss => rfl
  rw [hw, locate, locate, splicesOf_widen _ _ fun h => hss (List.append_eq_nil_iff.mp h).1]
  congr 1
  omega

/-- Moving the stretches and the position the same way in the new text, and some way in the old,
moves where the position lands by the second. -/
theorem locate_shift (atEnd : Bool) (k j : Nat) :
    ∀ (ss : List Stretch) (nb ob p : Nat), nb ≤ p →
      locate (nb + k) (ob + j) ss (p + k) atEnd = locate nb ob ss p atEnd + j
  | [], nb, ob, p, hp => by
    rw [locate_nil atEnd (by omega), locate_nil atEnd hp]
    omega
  | s :: ss, nb, ob, p, hp => by
    have ih := locate_shift atEnd k j ss (nb + utf8Length s.gap + utf8Length s.new)
      (ob + utf8Length s.gap + utf8Length s.old) p
    have e₁ : nb + k + utf8Length s.gap + utf8Length s.new =
        nb + utf8Length s.gap + utf8Length s.new + k := by omega
    have e₂ : ob + j + utf8Length s.gap + utf8Length s.old =
        ob + utf8Length s.gap + utf8Length s.old + j := by omega
    cases atEnd with
    | false =>
      rw [locate_cons_start s ss (by omega), locate_cons_start s ss hp, e₁, e₂]
      -- past the stretch both sides are the induction hypothesis, an implication omega reads
      split_ifs <;> omega
    | true =>
      rw [locate_cons_end s ss (by omega), locate_cons_end s ss hp, e₁, e₂]
      split_ifs <;> omega

/-- A position up to `k` bytes past the stretches `pre`, where the stretches after them leave at
least `k` bytes alone first, is placed by `pre` alone. -/
theorem locate_append_within (atEnd : Bool) {post : List Stretch} {k : Nat}
    (hpost : ∀ s ∈ post.head?, k ≤ utf8Length s.gap ∧ s.new ≠ []) :
    ∀ (pre : List Stretch) (nb ob p : Nat), nb ≤ p →
      p ≤ nb + utf8Length (pre.flatMap after) + k →
      locate nb ob (pre ++ post) p atEnd = locate nb ob pre p atEnd
  | [], nb, ob, p, hp, hk => by
    simp only [List.flatMap_nil, utf8Length_nil, Nat.add_zero] at hk
    obtain ⟨q, rfl⟩ : ∃ q, p = nb + q := ⟨p - nb, by omega⟩
    rw [List.nil_append, locate_within atEnd fun s hs => ⟨(hpost s hs).1.trans' (by omega),
      (hpost s hs).2⟩, locate_nil atEnd hp]
    omega
  | s :: pre, nb, ob, p, hp, hk => by
    have ih := locate_append_within atEnd hpost pre (nb + utf8Length s.gap + utf8Length s.new)
      (ob + utf8Length s.gap + utf8Length s.old) p
    simp only [List.flatMap_cons, utf8Length_append, utf8Length_after] at hk
    cases atEnd with
    | false =>
      rw [List.cons_append, locate_cons_start s _ hp, locate_cons_start s _ hp]
      split_ifs with h₁ h₂
      · rfl
      · rfl
      · exact ih (by omega) (by omega)
    | true =>
      rw [List.cons_append, locate_cons_end s _ hp, locate_cons_end s _ hp]
      split_ifs with h₁ h₂
      · rfl
      · rfl
      · exact ih (by omega) (by omega)

/-- The stretches of a piece, widened by the text `g` before it and laid out from `nb` and `ob`,
before stretches that leave `k` bytes past the piece alone: a position `q` bytes into the piece
lands where the piece's own stretches place `q`, moved to where the piece starts in the old
text. -/
theorem locate_nested (atEnd : Bool) {iss post : List Stretch} (hiss : iss ≠ []) {k : Nat}
    (hpost : ∀ s ∈ post.head?, k ≤ utf8Length s.gap ∧ s.new ≠ []) (nb ob : Nat) (g : List Char)
    {q : Nat} (hq : q ≤ utf8Length (iss.flatMap after) + k) :
    locate nb ob (widen g iss ++ post) (nb + utf8Length g + q) atEnd =
      ob + utf8Length g + locate 0 0 iss q atEnd := by
  rw [locate_widen nb ob g hiss, locate_append_within atEnd hpost iss _ _ _ (by omega) (by omega)]
  have h := locate_shift atEnd (nb + utf8Length g) (ob + utf8Length g) iss 0 0 q (Nat.zero_le _)
  rw [Nat.zero_add, Nat.zero_add, Nat.add_comm q] at h
  rw [h, Nat.add_comm]

end Stretch

-- ---------------------------------------------------------------------------
-- Edit records
-- ---------------------------------------------------------------------------

namespace Edits

/-- `e` records an edit of `old` into `new`: the two texts are the same stretches followed by the
same tail, and the splices are the ones the stretches lay out. -/
def Describes (e : Edits) (old new : List Char) : Prop :=
  ∃ ss tail, e.splices.toList = splicesOf 0 ss ∧
    old = ss.flatMap Stretch.before ++ tail ∧ new = ss.flatMap Stretch.after ++ tail

theorem mapBack_eq_locate {e : Edits} {ss : List Stretch} (hs : e.splices.toList = splicesOf 0 ss)
    (a b : Nat) :
    e.mapBack ⟨a, b⟩ = ⟨Stretch.locate 0 0 ss a false, Stretch.locate 0 0 ss b true⟩ := by
  simp [mapBack_eq, Stretch.locate, hs]

namespace Describes

variable {e : Edits} {old new : List Char}

/-- The splices are in text order and do not overlap, and each ends inside the new text. -/
theorem ordered (h : e.Describes old new) :
    e.splices.toList.Pairwise (fun s t => s.pos + s.inserted ≤ t.pos) ∧
      ∀ s ∈ e.splices.toList, s.pos + s.inserted ≤ utf8Length new := by
  obtain ⟨ss, tail, hs, -, rfl⟩ := h
  rw [hs]
  refine ⟨splicesOf_pairwise 0 ss, fun s hmem => ?_⟩
  have := end_le_of_mem_splicesOf hmem
  simp only [utf8Length_append]
  omega

/-- A span of the new text maps to a span whose ends lie inside the old text. -/
theorem mapBack_le (h : e.Describes old new) {a b : Nat} (hab : a ≤ b)
    (hb : b ≤ utf8Length new) :
    (e.mapBack ⟨a, b⟩).start ≤ utf8Length old ∧ (e.mapBack ⟨a, b⟩).stop ≤ utf8Length old := by
  obtain ⟨ss, tail, hs, rfl, rfl⟩ := h
  rw [mapBack_eq_locate hs]
  simp only [utf8Length_append] at hb ⊢
  exact ⟨by simpa using Stretch.locate_le false tail 0 0 ss a (Nat.zero_le _) (by omega),
    by simpa using Stretch.locate_le true tail 0 0 ss b (Nat.zero_le _) (by omega)⟩

/-- A span maps to one whose start is not after its end, unless the span is empty and sits on a
splice that removed text and inserted none. -/
theorem mapBack_start_le (h : e.Describes old new) {a b : Nat} (hab : a ≤ b)
    (hzero : a < b ∨ ∀ s ∈ e.splices.toList, s.pos = a → s.inserted = 0 → s.removed = 0) :
    (e.mapBack ⟨a, b⟩).start ≤ (e.mapBack ⟨a, b⟩).stop := by
  obtain ⟨ss, tail, hs, -, -⟩ := h
  rw [mapBack_eq_locate hs]
  exact Stretch.locate_start_le_end 0 0 ss a b (Nat.zero_le _) hab (hs ▸ hzero)

/-- A span that touches no splice maps to a span of the same length over the same bytes. -/
theorem mapBack_untouched (h : e.Describes old new) {a b : Nat} (hab : a ≤ b)
    (hfree : ∀ s ∈ e.splices.toList, ¬ s.Touches a b) :
    (e.mapBack ⟨a, b⟩).stop = (e.mapBack ⟨a, b⟩).start + (b - a) ∧
      byteSlice (utf8Bytes old) (e.mapBack ⟨a, b⟩).start (e.mapBack ⟨a, b⟩).stop =
        byteSlice (utf8Bytes new) a b := by
  obtain ⟨ss, tail, hs, rfl, rfl⟩ := h
  rw [mapBack_eq_locate hs]
  have := Stretch.locate_untouched tail 0 0 ss a b (Nat.zero_le _) hab (hs ▸ hfree)
  simpa using this

/-- The text a splice inserted, when it inserted any, maps back to the text it removed. -/
theorem mapBack_inserted {ss : List Stretch} (hs : e.splices.toList = splicesOf 0 ss)
    {pre post : List Stretch} {s : Stretch} (hss : ss = pre ++ s :: post)
    (hins : 0 < utf8Length s.new) :
    e.mapBack ⟨utf8Length (pre.flatMap Stretch.after) + utf8Length s.gap,
        utf8Length (pre.flatMap Stretch.after) + utf8Length s.gap + utf8Length s.new⟩ =
      ⟨utf8Length (pre.flatMap Stretch.before) + utf8Length s.gap,
        utf8Length (pre.flatMap Stretch.before) + utf8Length s.gap + utf8Length s.old⟩ := by
  rw [mapBack_eq_locate hs, hss]
  have := Stretch.locate_inserted s post hins 0 0 pre
  simp only [Nat.zero_add] at this
  rw [this.1, this.2]

end Describes

/-- `e` records the edit of `old` into `new` that puts each text of `rs` in place of its span, the
spans counted in a text where `old` starts at byte `base`. -/
def Replaces (e : Edits) (base : Nat) (old new : List Char) (rs : List (Span × String)) : Prop :=
  ∃ ss tail, e.splices.toList = splicesOf 0 ss ∧ old = ss.flatMap Stretch.before ++ tail ∧
    new = ss.flatMap Stretch.after ++ tail ∧ regionsOf base ss = rs

namespace Replaces

variable {e : Edits} {base : Nat} {old new : List Char} {rs : List (Span × String)}

theorem describes (h : e.Replaces base old new rs) : e.Describes old new := by
  obtain ⟨ss, tail, hs, hold, hnew, -⟩ := h
  exact ⟨ss, tail, hs, hold, hnew⟩

/-- Each text put in place, when it is not empty, maps back to the span it replaced. -/
theorem mapBack_inserted (h : e.Replaces 0 old new rs) {sp : Splice} {r : Span × String}
    (hmem : (sp, r) ∈ e.splices.toList.zip rs) (hins : 0 < sp.inserted) :
    e.mapBack ⟨sp.pos, sp.pos + sp.inserted⟩ = r.1 := by
  obtain ⟨ss, tail, hs, -, -, rfl⟩ := h
  rw [hs] at hmem
  obtain ⟨pre, s, post, hss, rfl, rfl⟩ := mem_zip_regionsOf hmem
  simp only [Nat.zero_add] at hins ⊢
  exact Describes.mapBack_inserted hs hss hins

end Replaces

end Edits

end Concatenative
