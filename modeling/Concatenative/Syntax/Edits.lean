import Concatenative.Syntax.Span

/-!
# Edits

An edit of a text replaces some of its ranges. `Edits` records each replacement as a
`Splice`: where it stands in the new text, how many bytes it removed and how many it inserted.
The splices are kept in the order of the text and do not overlap, so a position of the new text
maps back to the old one (`Edits.mapBack`): before any splice a position keeps its offset,
past one it moves by the bytes that splice added, and inside inserted text it maps to the edge
of what was removed (the start for a span's start, the end for a span's end).
-/

namespace Concatenative

/-- One replacement: at byte `pos` of the new text, `inserted` bytes stand where `removed` bytes
of the old text stood. -/
structure Splice where
  pos : Nat
  removed : Nat
  inserted : Nat
  deriving DecidableEq, Repr

/-- The replacements of an edit, in text order. -/
structure Edits where
  splices : Array Splice := #[]
  deriving DecidableEq, Repr, Inhabited

namespace Edits

/-- The number of replacements. -/
def size (e : Edits) : Nat :=
  e.splices.size

/-- Records a replacement after all earlier ones. -/
def push (e : Edits) (s : Splice) : Edits :=
  ⟨e.splices.push s⟩

/-- Records the replacements made inside a piece that starts at byte `shift` of the new
text. -/
def appendShifted (e inner : Edits) (shift : Nat) : Edits :=
  ⟨e.splices ++ inner.splices.map fun s => { s with pos := s.pos + shift }⟩

/-- Maps a position of the new text to the old text, looking at the splices from index `i` on;
`delta` is the net number of bytes the splices before `i` have added. `atEnd` selects the rule
for the end of a span: a position exactly at a splice's start then still counts as before it,
and one exactly at the end of its inserted text as inside it. -/
def mapPosition (splices : Array Splice) (i : Nat) (delta : Int) (p : Nat) (atEnd : Bool) :
    Nat :=
  if h : i < splices.size then
    let s := splices[i]
    if (if atEnd then p ≤ s.pos else p < s.pos) then (p - delta).toNat
    else if (if atEnd then p ≤ s.pos + s.inserted else p < s.pos + s.inserted) then
      let start := ((s.pos : Int) - delta).toNat
      if atEnd then start + s.removed else start
    else mapPosition splices (i + 1) (delta + s.inserted - s.removed) p atEnd
  else (p - delta).toNat
termination_by splices.size - i

/-- The span of the old text that a span of the new text came from. -/
def mapBack (e : Edits) (s : Span) : Span :=
  ⟨mapPosition e.splices 0 0 s.start false, mapPosition e.splices 0 0 s.stop true⟩

end Edits

end Concatenative
