import Concatenative.Syntax.Edits

/-!
# Origins of evaluated text

Quoted code runs long after it was scanned, often from a text that renaming has edited. An
`Origin` says where such a text came from, and `Origin.locate` maps a span of it back onto the
program the user wrote, or to nothing when the text was made by the program itself.
-/

namespace Concatenative

/-- Where an evaluated text came from. -/
inductive Origin where
  /-- The text is the program itself. -/
  | source
  /-- The text was made by the program; its positions mean nothing to the user. -/
  | detached
  /-- Every position is attributed to one span, as for an evaluated string. -/
  | anchored (span : Span)
  /-- The text sits at `offset` within an edited text with these edits, which came from
  `parent`. -/
  | within (offset : Nat) (edits : Edits) (parent : Origin)
  deriving Repr, Inhabited

namespace Origin

/-- The span of the user's program that a span of the text stands for. -/
def locate : Origin → Span → Option Span
  | source, s => some s
  | detached, _ => none
  | anchored a, _ => some a
  | within offset edits parent, s => parent.locate (edits.mapBack (s.shift offset))

end Origin

end Concatenative
