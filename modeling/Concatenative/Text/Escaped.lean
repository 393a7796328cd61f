import Concatenative.Text.Invisible
import Concatenative.Text.Extending

/-!
# Strings written as literals

`escapeLiteral` writes a string the way a debugging printout shows it between double quotes:
the double quote and backslash are escaped, tab, carriage return, newline and NUL get their
short escapes, and characters that do not show (controls, separators other than the space,
format characters, marks that extend the character before them, private-use and unassigned
code points, all as Unicode 17.0 classes them) are written `\u{hex}`.
-/

namespace Concatenative

/-- Characters that a printout would not show as themselves: those that extend the character
before them, and the separators other than the space, controls, format characters, surrogates,
private-use and unassigned code points. -/
def isHidden (c : Char) : Bool :=
  CodeSet.graphemeExtend.contains c || CodeSet.invisible.contains c

/-- The escape of one character inside a double-quoted literal. -/
def escapeChar (c : Char) : String :=
  match c with
  | '"' => "\\\""
  | '\\' => "\\\\"
  | '\t' => "\\t"
  | '\r' => "\\r"
  | '\n' => "\\n"
  | '\x00' => "\\0"
  | c =>
    if isHidden c then "\\u\x7b" ++ String.ofList (Nat.toDigits 16 c.toNat) ++ "\x7d"
    else c.toString

/-- A string in double quotes with its characters escaped. -/
def escapeLiteral (s : String) : String :=
  "\"" ++ String.join (s.toList.map escapeChar) ++ "\""

end Concatenative
