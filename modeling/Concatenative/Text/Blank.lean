/-!
# Blank characters

The characters with the Unicode property White_Space: the ASCII controls from tab to carriage
return, space, next line, no-break space, the Ogham space mark, the spaces from en quad to hair
space, the line and paragraph separators, the narrow no-break space, the medium mathematical
space and the ideographic space. Twenty-five in all; the byte-order mark is not one of them.

`isBlank_of_isWhitespace` shows that every character core calls whitespace is blank.
-/

namespace Concatenative

/-- A character with the Unicode property White_Space. -/
def isBlank (c : Char) : Bool :=
  let n := c.toNat
  (0x09 ≤ n && n ≤ 0x0D) || n == 0x20 || n == 0x85 || n == 0xA0 || n == 0x1680
    || (0x2000 ≤ n && n ≤ 0x200A) || n == 0x2028 || n == 0x2029 || n == 0x202F || n == 0x205F
    || n == 0x3000

theorem isBlank_of_isWhitespace (c : Char) (h : c.isWhitespace = true) : isBlank c = true := by
  simp only [Char.isWhitespace, Bool.or_eq_true, decide_eq_true_eq] at h
  rcases h with ((h | h) | h) | h <;> subst h <;> decide

example : isBlank '　' = true ∧ isBlank '﻿' = false ∧ isBlank '\x0c' = true := by
  decide

end Concatenative
