import Concatenative.Syntax.Origin
import Concatenative.Syntax.Value

/-!
# Tokens

A token is a value with a kind, an optional span, tags and, for quoted code, the origin of its
text. Symbols are pushed when they run, operator tokens name an entry of the operator table,
and locals are placeholders that renaming replaces before anything runs. Once on the stack a
token is a value; its span serves diagnostics only.

Three texts of a token are used: `Token.text`, the value's plain text (names, registers,
`print`); `Token.serialize`, program text that evaluates back to the token (strings in
parentheses); and `Token.source`, the program text run when the token is evaluated as code.
-/

namespace Concatenative

/-- What a token does when it runs. -/
inductive Kind where
  /-- Pushed onto the stack. -/
  | symbol
  /-- Looked up in the operator table and invoked. -/
  | operator
  /-- A placeholder for a name local to one evaluation. -/
  | localName
  deriving DecidableEq, Repr, Inhabited

/-- A set of tags: a token may be string, code, boolean or number, in that order. -/
structure Tags where
  string : Bool := false
  code : Bool := false
  boolean : Bool := false
  number : Bool := false
  deriving DecidableEq, Repr, Inhabited

namespace Tags

/-- No tag at all. -/
def isEmpty (t : Tags) : Bool :=
  !(t.string || t.code || t.boolean || t.number)

/-- The tag that says a value's type. -/
def ofValue : Value → Tags
  | .number _ => { number := true }
  | .boolean _ => { boolean := true }
  | .string _ => { string := true }

/-- Quoted code: a string that is code. -/
def quoted : Tags := { string := true, code := true }

end Tags

/-- A lexical and semantic unit. -/
structure Token where
  kind : Kind
  value : Value
  span : Option Span := none
  tags : Tags := {}
  origin : Option Origin := none
  deriving Inhabited

namespace Token

/-- A value made by an operator: a symbol tagged by its type, with no span. -/
def symbol (v : Value) : Token :=
  { kind := .symbol, value := v, tags := Tags.ofValue v }

/-- A reference to the operator named `name`. -/
def operator (name : String) : Token :=
  { kind := .operator, value := .string name }

/-- The same token placed at `span`. -/
def placed (t : Token) (span : Option Span) : Token :=
  { t with span := span }

/-- The token holds quoted code. -/
def isCode (t : Token) : Bool :=
  t.tags.code

/-- The token's value is true. -/
def truthy (t : Token) : Bool :=
  t.value.truthy

/-- The value as plain text. -/
def text (t : Token) : String :=
  t.value.text

/-- Program text that evaluates back to the token: an operator's name, a string in
parentheses, or the text of another value. -/
def serialize (t : Token) : String :=
  match t.kind, t.value with
  | .operator, v => v.text
  | _, .string s => "(" ++ s ++ ")"
  | _, v => v.text

/-- Program text run when the token is evaluated as code: a string's contents, or the
serialized token. -/
def source (t : Token) : String :=
  match t.value with
  | .string s => s
  | _ => t.serialize

/-- Equality of tokens: kind, value (numbers as floats), span and tags; the origin is not
compared. -/
def equals (a b : Token) : Bool :=
  a.kind == b.kind && a.value == b.value && a.span == b.span && a.tags == b.tags

instance : BEq Token := ⟨equals⟩

end Token

end Concatenative
