import Concatenative.Machine.Session

/-!
# Terminal output

How the command line shows tokens, the final state and errors on a terminal, with ANSI escapes:

* `paint` colours a token's serialized text by what it is: operators purple, quoted code green,
  numbers yellow, booleans cyan, anything else white;
* `renderState` shows the stack and, when there are any, the registers, after dimmed labels;
* `report` shows an error in bold, then, if it has a span inside the source, the line holding
  the span's start with the span underlined, preceded by `line L, column C:` when the source has
  more than one line. The underline covers at least one character; a span at the end of the line
  underlines an added space.
-/

namespace Concatenative

namespace Cli

/-- Text in an ANSI style: the style's code, the text, and the reset. -/
def styled (code : String) (text : String) : String :=
  "\x1b[" ++ code ++ "m" ++ text ++ "\x1b[0m"

/-- Bold text. -/
def bold (text : String) : String := styled "1" text

/-- Dimmed text. -/
def dim (text : String) : String := styled "2" text

/-- The colour code of a token: operator 35, code 32, number 33, boolean 36, else 37. -/
def colourOf (t : Token) : String :=
  if t.kind == .operator then "35"
  else if t.tags.code then "32"
  else if t.tags.number then "33"
  else if t.tags.boolean then "36"
  else "37"

/-- A token's serialized text in its colour. -/
def paint (t : Token) : String :=
  styled (colourOf t) t.serialize

/-- The stack, bottom first, and the registers in name order when there are any. -/
def renderState (m : Machine) : String :=
  let stack := dim "stack:" ++ " " ++ " ".intercalate (m.stack.toList.map paint)
  if m.memory.entries.isEmpty then stack
  else
    stack ++ "\n" ++ dim "registers:" ++ " "
      ++ " ".intercalate (m.memory.entries.map fun (name, t) => name ++ "=" ++ paint t)

/-- The underline escapes. -/
def underlineOn : String := "\x1b[4m"
def underlineOff : String := "\x1b[0m"

/-- A line with the characters whose byte offsets lie in `[a, b)` underlined; when `a` is at or
past the line's end, an underlined space is added. -/
def decorate (line : List Char) (a b : Nat) : String :=
  let (out, on, _) := line.foldl (fun (out, on, index) c =>
    let under := decide (a ≤ index ∧ index < b)
    let switch := if on && !under then underlineOff else if !on && under then underlineOn else ""
    (out ++ switch ++ c.toString, under, index + c.utf8Size)) ("", false, 0)
  let (out, on) := if utf8Length line ≤ a then (out ++ underlineOn ++ " ", true) else (out, on)
  if on then out ++ underlineOff else out

/-- An error as the command line reports it against its source. -/
def report (source : String) (e : Error) : String :=
  let head := bold e.display
  match e.span with
  | none => head
  | some s =>
    if source.utf8ByteSize < s.start then head
    else
      let cs := source.toList
      let before := (splitAtByte cs s.start).1
      -- the line holding the span's start
      let lineFrom := before.length - (before.reverse.takeWhile (· != '\n')).length
      let lineStart := utf8Length (before.take lineFrom)
      let line := (cs.drop lineFrom).takeWhile (· != '\n')
      let lineEnd := lineStart + utf8Length line
      let start := s.start - lineStart
      let stop := max (min s.stop lineEnd) s.start - lineStart
      let located :=
        if 0 < lineStart || lineEnd < source.utf8ByteSize then
          "\nline " ++ toString ((before.take lineFrom).count '\n' + 1) ++ ", column "
            ++ toString (before.length - lineFrom + 1) ++ ":"
        else ""
      head ++ located ++ "\n" ++ decorate line start (max stop (start + 1))

end Cli

end Concatenative
