import Concatenative.Syntax.Token
import Concatenative.Numeric.Literal
import Concatenative.Text.Blank

/-!
# Lexical rules

A rule recognises a kind of lexeme at the start of a text and builds its token. The scanner
tries every rule of a rule set and takes the longest match, the earlier rule on a tie
(`Concatenative.Scan`). `Rule.standard` is the language's rule set, in this order:

1. blanks (Unicode White_Space), skipped;
2. a line comment `//` up to the end of the line, skipped;
3. a block comment from `/*` to the first `*/` after it, skipped;
4. a double-quoted string, in which a backslash escapes any character but a newline;
5. a `'` followed by characters other than blanks, `'` and `)`;
6. a local `@name`, whose name has no `@`, blank or parenthesis;
7. `true` or `false`;
8. a number: optional sign, digits with an optional point, optional exponent;
9. an identifier: characters other than blanks and parentheses. It is an operator when the
   vocabulary knows the word, a string otherwise.

Since a longer match wins, a number, boolean or local only stands when it spans the whole run of
identifier characters there: `12abc` and `trueish` are identifiers, and `true` is a boolean even
where an operator is named `true`.
-/

namespace Concatenative

/-- The words that scan as operators. -/
abbrev Vocabulary := String → Bool

/-- A lexical rule: the length in characters of its match at the start of a text, and the token
for a match at a span, or none for text that is skipped. -/
structure Rule where
  matchLength : List Char → Option Nat
  build : List Char → Span → Vocabulary → Option Token

/-- Collapses backslash escapes: a backslash and the character after it stand for that
character, except that a backslash before a newline is kept, as is a final backslash. -/
def unescape : List Char → List Char
  | '\\' :: '\n' :: r => '\\' :: '\n' :: unescape r
  | '\\' :: c :: r => c :: unescape r
  | c :: r => c :: unescape r
  | [] => []

namespace Rule

/-- `some n` for a positive length, `none` for an empty match. -/
def nonempty (n : Nat) : Option Nat :=
  if n = 0 then none else some n

/-- Characters allowed in an identifier. -/
def isWordChar (c : Char) : Bool :=
  !isBlank c && c != '(' && c != ')'

/-- The length of the first `*/` and what precedes it. -/
def blockEnd : List Char → Option Nat
  | '*' :: '/' :: _ => some 2
  | _ :: r => (blockEnd r).map (· + 1)
  | [] => none

/-- The length of a block comment after its opening slash. The stars that open it are taken
first, all of them, with the character after them; the comment then ends at the first `*/`
after that. Failing one, an opening of two or more stars and a slash right after them is a
whole comment, `/**/` or `/***/`. -/
def blockBody (r : List Char) : Option Nat :=
  let stars := (r.takeWhile (· == '*')).length
  if stars = 0 then none
  else
    match r.drop stars with
    | [] => none
    | c :: rest =>
      match blockEnd rest with
      | some n => some (stars + 1 + n)
      | none => if 2 ≤ stars ∧ c = '/' then some (stars + 1) else none

/-- The length of a quoted string's body and closing quote: a backslash takes the next
character along unless that is a newline, and the text must close. -/
def quotedEnd : List Char → Option Nat
  | '"' :: _ => some 1
  | '\\' :: c :: r => if c = '\n' then none else (quotedEnd r).map (· + 2)
  | '\\' :: [] => none
  | _ :: r => (quotedEnd r).map (· + 1)
  | [] => none

/-- The length of an exponent part `e12`, `E-3`, or zero when there is none. -/
def exponentLength : List Char → Nat
  | c :: r =>
    if c = 'e' ∨ c = 'E' then
      let (sign, r') := match r with
        | '+' :: x => (1, x)
        | '-' :: x => (1, x)
        | x => (0, x)
      let d := (r'.takeWhile Char.isDigit).length
      if d = 0 then 0 else 1 + sign + d
    else 0
  | [] => 0

/-- The length of the number at the start of the text: the sign, the digits with a point only
when a digit follows it, and the exponent. -/
def numberLength (cs : List Char) : Option Nat :=
  let (sign, r) := match cs with
    | '+' :: x => (1, x)
    | '-' :: x => (1, x)
    | x => (0, x)
  let whole := (r.takeWhile Char.isDigit).length
  let mantissa : Option Nat := match r.drop whole with
    | '.' :: r' =>
      let frac := (r'.takeWhile Char.isDigit).length
      if frac = 0 then nonempty whole else some (whole + 1 + frac)
    | _ => nonempty whole
  mantissa.map fun m => sign + m + exponentLength (r.drop m)

/-- A symbol with the string tag, at `span`. -/
def stringToken (s : List Char) (span : Span) : Token :=
  { kind := .symbol, value := .string (String.ofList s), span := some span,
    tags := { string := true } }

/-- Blanks, skipped. -/
def blank : Rule where
  matchLength cs := nonempty (cs.takeWhile isBlank).length
  build _ _ _ := none

/-- A line comment, up to and without the newline, skipped. -/
def lineComment : Rule where
  matchLength
    | '/' :: '/' :: r => some (2 + (r.takeWhile (· != '\n')).length)
    | _ => none
  build _ _ _ := none

/-- A block comment, `/*` through a closing `*/` as `blockBody` finds it, skipped. -/
def blockComment : Rule where
  matchLength
    | '/' :: r => (blockBody r).map (1 + ·)
    | _ => none
  build _ _ _ := none

/-- A double-quoted string; its value is the unescaped text between the quotes. -/
def doubleQuoted : Rule where
  matchLength
    | '"' :: r => (quotedEnd r).map (1 + ·)
    | _ => none
  build cs span _ := some (stringToken (unescape (cs.drop 1).dropLast) span)

/-- A `'` and a name, which may hold `(` but no blank, `'` or `)`; the value is the unescaped
name. -/
def singleQuoted : Rule where
  matchLength
    | '\'' :: r =>
      (nonempty (r.takeWhile fun c => !isBlank c && c != '\'' && c != ')').length).map (1 + ·)
    | _ => none
  build cs span _ := some (stringToken (unescape (cs.drop 1)) span)

/-- A local `@name`; its value is the whole text, `@` included. -/
def localName : Rule where
  matchLength
    | '@' :: r => (nonempty (r.takeWhile fun c => isWordChar c && c != '@').length).map (1 + ·)
    | _ => none
  build cs span _ := some { stringToken cs span with kind := .localName }

/-- `true` or `false`. -/
def boolean : Rule where
  matchLength
    | 't' :: 'r' :: 'u' :: 'e' :: _ => some 4
    | 'f' :: 'a' :: 'l' :: 's' :: 'e' :: _ => some 5
    | _ => none
  build cs span _ :=
    some { kind := .symbol, value := .boolean (cs == ['t', 'r', 'u', 'e']), span := some span,
           tags := { boolean := true } }

/-- A number, read to the nearest float. -/
def number : Rule where
  matchLength := numberLength
  build cs span _ :=
    some { kind := .symbol, value := .number (Literal.read cs).value, span := some span,
           tags := { number := true } }

/-- An identifier: an operator if the vocabulary has the word, otherwise a string. -/
def identifier : Rule where
  matchLength cs := nonempty (cs.takeWhile isWordChar).length
  build cs span vocab :=
    let word := String.ofList cs
    if vocab word then some ((Token.operator word).placed (some span))
    else some (stringToken cs span)

/-- The language's rules, in order of precedence on ties. -/
def standard : List Rule :=
  [blank, lineComment, blockComment, doubleQuoted, singleQuoted, localName, boolean, number,
    identifier]

end Rule

end Concatenative
