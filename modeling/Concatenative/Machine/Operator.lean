import Concatenative.Machine.Arity
import Concatenative.Machine.Directory
import Concatenative.Syntax.Token

/-!
# Operators

An operator has an arity and a behaviour: one of the language's built-in operators, or code a
program defined, which runs as if written where the operator is used. The live operator table
maps names to operators; programs may redefine, alias or delete any entry, so a built-in
operator may live under several names or none.

`Table.standard` is the table every machine starts with: the 36 built-ins under their names.
-/

namespace Concatenative

/-- The operators of two operands that compute a value. -/
inductive Binary where
  | sum | difference | product | quotient | power | remainder | xor
  | equal | less | greater | atLeast | atMost | and | or
  deriving DecidableEq, Repr, Inhabited

/-- The built-in operators that act on the machine's state alone. -/
inductive Primitive where
  | noop
  | binary (op : Binary)
  | not
  | print
  | dup
  | swap
  | copySecond
  | pick
  | pop
  | clear
  | range
  | defineOp
  | aliasOp
  | delOp
  | store
  | load
  | delete
  | pack
  deriving DecidableEq, Repr, Inhabited

/-- The built-in operators that run code: their own operands, or an operator over the stack. -/
inductive Control where
  | ifElse
  | eval
  | reduce
  | map
  | filter
  deriving DecidableEq, Repr, Inhabited

/-- The language's built-in operators. -/
inductive Builtin where
  | primitive (p : Primitive)
  | control (c : Control)
  deriving DecidableEq, Repr, Inhabited

namespace Binary

/-- The word that names the operator. -/
def name : Binary → String
  | sum => "+"
  | difference => "-"
  | product => "*"
  | quotient => "/"
  | power => "^"
  | remainder => "%"
  | xor => "xor"
  | equal => "=="
  | less => "<"
  | greater => ">"
  | atLeast => ">="
  | atMost => "<="
  | and => "and"
  | or => "or"

/-- Every operator of two operands, in table order. -/
def all : List Binary :=
  [sum, difference, product, quotient, power, remainder, xor, equal, less, greater, atLeast,
    atMost, and, or]

end Binary

namespace Primitive

/-- The word that names the operator in a fresh table. -/
def name : Primitive → String
  | noop => "noop"
  | binary op => op.name
  | not => "not"
  | print => "print"
  | dup => "dup"
  | swap => "swap"
  | copySecond => "over"
  | pick => "pick"
  | pop => "pop"
  | clear => "clear"
  | range => "range"
  | defineOp => "define-op"
  | aliasOp => "alias-op"
  | delOp => "del-op"
  | store => "store"
  | load => "load"
  | delete => "delete"
  | pack => "pack"

/-- How many operands the operator takes before it runs; the stack-reading ones take none. -/
def arity : Primitive → Arity
  | noop => .fixed 0
  | binary _ => .fixed 2
  | not | print | dup | delOp | load | delete => .fixed 1
  | swap | copySecond | aliasOp | store => .fixed 2
  | pick | range | defineOp => .fixed 3
  | pop | clear | pack => .variadic

/-- Every primitive operator. -/
def all : List Primitive :=
  [noop] ++ Binary.all.map binary ++
    [not, print, dup, swap, copySecond, pick, pop, clear, range, defineOp, aliasOp, delOp, store,
      load, delete, pack]

end Primitive

namespace Control

/-- The word that names the operator in a fresh table. -/
def name : Control → String
  | ifElse => "if"
  | eval => "eval"
  | reduce => "reduce"
  | map => "map"
  | filter => "filter"

/-- `if` takes condition and branches, `eval` its code; the combinators read the stack. -/
def arity : Control → Arity
  | ifElse => .fixed 3
  | eval => .fixed 1
  | reduce | map | filter => .variadic

end Control

namespace Builtin

/-- The word that names the operator in a fresh table. -/
def name : Builtin → String
  | primitive p => p.name
  | control c => c.name

/-- How many operands the operator takes before it runs. -/
def arity : Builtin → Arity
  | primitive p => p.arity
  | control c => c.arity

/-- Every built-in operator. -/
def all : List Builtin :=
  Primitive.all.map primitive ++
    [control .ifElse, control .eval, control .reduce, control .map, control .filter]

/-- The built-in operator a fresh table has under `name`. -/
def ofName? (name : String) : Option Builtin :=
  all.find? (·.name == name)

end Builtin

/-- What an operator does: a built-in behaviour, or code a program defined. -/
inductive Behaviour where
  | native (b : Builtin)
  | defined (code : Token)
  deriving Inhabited

/-- An entry of the operator table. -/
structure Operator where
  arity : Arity
  behaviour : Behaviour
  deriving Inhabited

namespace Operator

/-- A built-in operator with its own arity. -/
def builtin (b : Builtin) : Operator :=
  ⟨b.arity, .native b⟩

/-- `Operator { native, arity: A }` or `Operator { code, arity: A }`, with the code serialized. -/
def debug (op : Operator) : String :=
  let body := match op.behaviour with
    | .native _ => "native"
    | .defined code => code.serialize
  "Operator \x7b " ++ body ++ ", arity: " ++ op.arity.text ++ " \x7d"

end Operator

/-- The live operator table. -/
abbrev Table := Directory Operator

namespace Table

/-- The table a machine starts with: every built-in under its name. -/
def standard : Table :=
  Builtin.all.foldl (fun t b => t.insert b.name (Operator.builtin b)) {}

end Table

end Concatenative
