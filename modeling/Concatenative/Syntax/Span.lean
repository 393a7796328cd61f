/-!
# Spans

A span is a range `[start, stop)` of byte offsets into a program text, counted in UTF-8. Spans
locate tokens and errors; a value made by an operator has none.
-/

namespace Concatenative

/-- The byte range `[start, stop)` of a text. -/
structure Span where
  start : Nat
  stop : Nat
  deriving DecidableEq, Repr, Inhabited

namespace Span

/-- The number of bytes covered; zero when `stop` is not after `start`. -/
def length (s : Span) : Nat :=
  s.stop - s.start

/-- The same range moved `n` bytes to the right. -/
def shift (s : Span) (n : Nat) : Span :=
  ⟨s.start + n, s.stop + n⟩

@[simp] theorem length_shift (s : Span) (n : Nat) : (s.shift n).length = s.length := by
  simp only [length, shift]; omega

end Span

/-- The number of bytes of a list of characters in UTF-8. -/
def utf8Length (cs : List Char) : Nat :=
  cs.foldr (fun c n => c.utf8Size + n) 0

@[simp] theorem utf8Length_nil : utf8Length [] = 0 := rfl

@[simp] theorem utf8Length_cons (c : Char) (cs : List Char) :
    utf8Length (c :: cs) = c.utf8Size + utf8Length cs := rfl

theorem utf8Length_append (as bs : List Char) :
    utf8Length (as ++ bs) = utf8Length as + utf8Length bs := by
  induction as with
  | nil => simp
  | cons c cs ih => simp [ih]; omega

/-- A character takes at least one byte, so a list takes at least as many bytes as it has
characters. -/
theorem length_le_utf8Length (cs : List Char) : cs.length ≤ utf8Length cs := by
  induction cs with
  | nil => simp
  | cons c cs ih =>
    have := c.utf8Size_pos
    simp only [utf8Length_cons, List.length_cons]
    omega

/-- Splits characters at a byte offset: the characters that start before it, and the rest. -/
def splitAtByte : List Char → Nat → List Char × List Char
  | [], _ => ([], [])
  | c :: cs, n =>
    if n = 0 then ([], c :: cs)
    else
      let (front, back) := splitAtByte cs (n - c.utf8Size)
      (c :: front, back)

theorem splitAtByte_append (cs : List Char) (n : Nat) :
    (splitAtByte cs n).1 ++ (splitAtByte cs n).2 = cs := by
  induction cs generalizing n with
  | nil => rfl
  | cons c cs ih =>
    unfold splitAtByte
    split
    · rfl
    · simp [ih]

/-- The characters of `cs` whose byte offsets lie in `[a, b)`, for offsets on character
boundaries. -/
def sliceBytes (cs : List Char) (a b : Nat) : List Char :=
  (splitAtByte (splitAtByte cs a).2 (b - a)).1

end Concatenative
