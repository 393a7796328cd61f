import Concatenative.Syntax.Scan

/-!
# Substituting text for tokens

`Substitution.run` scans a text and offers each token to a replacer, which gives new text for it
or leaves it. The replacements are recorded as `Edits`, so spans of the new text map back to the
old one. In a deep substitution, quoted code is not offered: its contents are edited in the same
way, and their splices join the outer record, moved to where the code stands in the new text.
Quoted code whose contents did not change stays as it was.

The tokens offered are reported in order, also when the substitution stops at an error; an error
found inside quoted code is moved by the code's offset.
-/

namespace Concatenative

/-- The text copied so far and what is left of the old text. -/
structure Substitution.Progress where
  /-- The new text up to the last token handled. -/
  out : String := ""
  /-- The old text after the last token handled. -/
  rest : List Char
  /-- The byte offset in the old text where `rest` starts. -/
  copied : Nat := 0
  edits : Edits := {}

namespace Substitution

/-- Appends text to the new text. The progress is taken apart first, so that the new text has
no other owner and grows in place. -/
def Progress.emit (p : Progress) (s : String) : Progress :=
  match p with
  | ⟨out, rest, copied, edits⟩ => ⟨out ++ s, rest, copied, edits⟩

/-- Records a replacement. -/
def Progress.record (p : Progress) (s : Splice) : Progress :=
  match p with
  | ⟨out, rest, copied, edits⟩ => ⟨out, rest, copied, edits.push s⟩

/-- Records the replacements made inside a piece that starts at byte `shift` of the new
text. -/
def Progress.recordShifted (p : Progress) (inner : Edits) (shift : Nat) : Progress :=
  match p with
  | ⟨out, rest, copied, edits⟩ => ⟨out, rest, copied, edits.appendShifted inner shift⟩

/-- Moves past the gap before a token and the token itself: the gap, the token's old text, and
the progress with the gap copied. -/
def take (p : Progress) (s : Span) : List Char × List Char × Progress :=
  let (gap, rest) := splitAtByte p.rest (s.start - p.copied)
  let (old, rest) := splitAtByte rest s.length
  match p.emit (String.ofList gap) with
  | ⟨out, _, _, edits⟩ => (gap, old, ⟨out, rest, s.stop, edits⟩)

/-- Handles the tokens of one text in order. `inner` edits the contents of quoted code;
`offered` collects the tokens shown to the replacer. -/
def walk (replace : Token → Option String) (deep : Bool)
    (inner : String → List Token × Except Error (String × Edits)) :
    List Token → Progress → List Token × Except Error Progress
  | [], p => ([], .ok p)
  | t :: ts, p =>
    match t.span with
    | none => walk replace deep inner ts p
    | some s =>
      let (_, old, p) := take p s
      let start := p.out.utf8ByteSize
      if deep && t.isCode then
        let (seen, result) := inner (String.ofList old)
        match result with
        | .error e => (seen, .error (e.relocate fun x => some (x.shift s.start)))
        | .ok (text, edits) =>
          let p := if edits.size = 0 then p.emit (String.ofList old)
            else (p.emit text).recordShifted edits start
          let (more, r) := walk replace deep inner ts p
          (seen ++ more, r)
      else
        let p := match replace t with
          | some r => (p.emit r).record ⟨start, s.length, r.utf8ByteSize⟩
          | none => p.emit (String.ofList old)
        let (more, r) := walk replace deep inner ts p
        (t :: more, r)

/-- Edits a text with quoted code nested at most `depth` deep. -/
def nested (rules : List Rule) (vocab : Vocabulary) (replace : Token → Option String)
    (deep : Bool) : Nat → String → List Token × Except Error (String × Edits)
  | 0, text => ([], .ok (text, {}))
  | depth + 1, text =>
    let (toks, stop) := Scan.tokens rules vocab text
    let (seen, result) := walk replace deep (nested rules vocab replace deep depth) toks
      { rest := text.toList }
    match result, stop with
    | .error e, _ => (seen, .error e)
    | .ok _, some e => (seen, .error e)
    | .ok p, none => (seen, .ok (p.out ++ String.ofList p.rest, p.edits))

/-- Edits a text: the tokens offered to the replacer, and the new text with the record of its
replacements, or the first error met. Quoted code nests less deep than the text is long. -/
def run (rules : List Rule) (vocab : Vocabulary) (replace : Token → Option String) (deep : Bool)
    (text : String) : List Token × Except Error (String × Edits) :=
  nested rules vocab replace deep (text.length + 1) text

end Substitution

end Concatenative
