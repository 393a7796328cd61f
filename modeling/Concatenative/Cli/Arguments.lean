/-!
# Command-line arguments

The program takes an optional program file, `-e`/`--eval` with program text to run instead,
`--stack` to show the final stack and registers, `-h`/`--help` and `-V`/`--version`.
`Invocation.parse` reads the arguments left to right, settling each option as it goes:

* `--` makes all later arguments positional;
* a long option takes its value after `=` or as the next argument, a short one right after the
  letter (an `=` there is dropped) or as the next argument; a value attached to its option takes
  effect at once, while one given as the next argument, and the file, take effect when the
  following option or positional is read, or at the end (`--` leaves them waiting); an option
  still without a value then is missing it, and an empty file name is refused;
* help and version are answered as soon as they are read;
* an option given twice, an unknown option, a second file, and `--eval` together with a file are
  usage errors; an unknown long option close enough to a known one (Jaro similarity above 0.7)
  names it instead of suggesting `--`.

A usage error is reported with its own text (`Invocation.usageError`) and exit status 2. Its
usage line names the arguments already given where the parser can tell which they are
(`usageOf`), and is the full one otherwise. The file, `--eval` and `--stack` form one group of
arguments; the usage line for a flag given a value names the group in their place once one of
them has taken effect (`flagUsage`).
-/

namespace Concatenative

namespace Cli

/-- The name of the program. -/
def programName : String := "stacker"

/-- The text of `--version`. -/
def versionText : String := "stacker-lang 0.3.0\n"

/-- The text of `--help`. -/
def helpText : String :=
  "A small extensible concatenative language with hygienic locals and a live operator table\n\n" ++
  "Usage: stacker [OPTIONS] [FILE]\n\n" ++
  "Arguments:\n" ++
  "  [FILE]  Program file to run\n\n" ++
  "Options:\n" ++
  "  -e, --eval <EVAL>  Program text to run instead of a file\n" ++
  "      --stack        Print the final stack and registers after running a program\n" ++
  "  -h, --help         Print help\n" ++
  "  -V, --version      Print version\n"

/-- The arguments the parser knows. -/
inductive Parameter where
  | file
  | eval
  | stack
  | help
  | version
  deriving DecidableEq, Repr

namespace Parameter

/-- How the parameter is named in messages. -/
def display : Parameter → String
  | file => "[FILE]"
  | eval => "--eval <EVAL>"
  | stack => "--stack"
  | help => "--help"
  | version => "--version"

/-- How the parameter is written in a usage line built from the arguments given; there the
file is written as required. -/
def usage : Parameter → String
  | file => "<FILE>"
  | p => p.display

/-- The file, `--eval` and `--stack`: the group of arguments that say what to run and how. -/
def inGroup : Parameter → Bool
  | file | eval | stack => true
  | help | version => false

/-- The long names, in the order the parser lists them. -/
def longs : List (String × Parameter) :=
  [("eval", eval), ("stack", stack), ("help", help), ("version", version)]

end Parameter

/-- What the command line asks for. -/
inductive Invocation where
  | help
  | version
  /-- Run a program file. -/
  | runFile (path : String) (showStack : Bool)
  /-- Run program text given on the command line. -/
  | runText (source : String) (showStack : Bool)
  /-- Start the interactive prompt. -/
  | prompt
  /-- The arguments cannot be read; the text says why. -/
  | usageError (text : String)
  deriving DecidableEq, Repr

/-- The usage line with every option. -/
def fullUsage : String :=
  "stacker [OPTIONS] [FILE]"

/-- The usage line naming the arguments given: each option once, in the order given, then the
file, as given (`<FILE>`) or as optional (`[FILE]`); with none given, the full usage line. -/
def usageOf (used : List Parameter) : String :=
  let opts := (used.filter (· != .file)).eraseDups
  let file := if used.contains .file then Parameter.file.usage else Parameter.file.display
  if used.isEmpty then fullUsage
  else " ".intercalate (programName :: opts.map Parameter.usage ++ [file])

/-- The group of the file, `--eval` and `--stack`, as a usage line names it. -/
def groupUsage : String :=
  "<FILE|--eval <EVAL>|--stack>"

/-- The usage line for `flag` given a value, where `used` are the parameters that took effect
before it: with a member of the group among them, the options outside the group and then the
group; otherwise as `usageOf` names them. -/
def flagUsage (used : List Parameter) (flag : Parameter) : String :=
  let given := used ++ [flag]
  if used.any Parameter.inGroup then
    let opts := (given.filter fun p => !p.inGroup).eraseDups
    " ".intercalate (programName :: opts.map Parameter.usage ++ [groupUsage])
  else usageOf given

/-- A usage error: the message, a blank line, any tips, the usage line if there is one, and the
pointer to `--help`. -/
def errorText (message : String) (tips : List String) (usage : Option String) : String :=
  "error: " ++ message ++ "\n\n" ++ String.join (tips.map fun t => "  tip: " ++ t ++ "\n")
    ++ (if tips.isEmpty then "" else "\n")
    ++ (match usage with
      | some u => "Usage: " ++ u ++ "\n\n"
      | none => "")
    ++ "For more information, try '--help'.\n"

/-- The parameter has no value, or an empty one where it needs text. -/
def missingValue (p : Parameter) : String :=
  errorText ("a value is required for '" ++ p.display ++ "' but none was supplied") [] none

/-- The parameter was given twice. -/
def givenTwice (p : Parameter) : String :=
  errorText ("the argument '" ++ p.display ++ "' cannot be used multiple times") [] (some fullUsage)

/-- Two parameters that exclude each other were given. -/
def conflict (former latter : Parameter) (used : List Parameter) : String :=
  errorText ("the argument '" ++ former.display ++ "' cannot be used with '" ++ latter.display
    ++ "'") [] (some (usageOf used))

/-- An argument that fits nowhere. -/
def unexpected (arg : String) (tips : List String) (usage : String) : String :=
  errorText ("unexpected argument '" ++ arg ++ "' found") tips (some usage)

/-- A flag was given a value; `used` took effect before it. -/
def unneededValue (value : String) (p : Parameter) (used : List Parameter) : String :=
  errorText ("unexpected value '" ++ value ++ "' for '" ++ p.display
    ++ "' found; no more were expected") [] (some (flagUsage used p))

/-- The tip that an argument starting with a dash can still be passed after `--`. -/
def escapeTip (arg : String) : String :=
  "to pass '" ++ arg ++ "' as a value, use '-- " ++ arg ++ "'"

-- ---------------------------------------------------------------------------
-- Similar names
-- ---------------------------------------------------------------------------

/-- Marks, for each character of `a`, whether it matches a not yet matched character of `b`
within `window` positions; returns the marks of `a` and of `b`. -/
def jaroMatches (a b : List Char) (window : Nat) : List Bool × List Bool :=
  a.zipIdx.foldl (fun (marksA, marksB) (c, i) =>
    let lo := i - window
    let hi := min b.length (i + window + 1)
    let free (j : Nat) : Bool := lo ≤ j && b[j]? == some c && marksB[j]? == some false
    match (List.range hi).find? free with
    | some j => (marksA ++ [true], marksB.set j true)
    | none => (marksA ++ [false], marksB)) ([], List.replicate b.length false)

/-- The Jaro similarity of two names, `(m / |a| + m / |b| + (m - t) / m) / 3` for `m` matching
characters and `t` half-transpositions, evaluated in binary64 in that order: near the threshold
the rounding decides. -/
def jaro (a b : String) : Float :=
  let a := a.toList
  let b := b.toList
  if a.isEmpty && b.isEmpty then 1
  else if a.isEmpty || b.isEmpty then 0
  else
    let window := max a.length b.length / 2 - 1
    let (marksA, marksB) := jaroMatches a b window
    let matchedA := (a.zip marksA).filterMap fun (c, m) => if m then some c else none
    let matchedB := (b.zip marksB).filterMap fun (c, m) => if m then some c else none
    let m := matchedA.length
    let t := ((matchedA.zip matchedB).filter fun (x, y) => x != y).length / 2
    if m = 0 then 0
    else
      (m.toFloat / a.length.toFloat + m.toFloat / b.length.toFloat
        + (m - t).toFloat / m.toFloat) / 3

/-- The known long name most similar to `name`, if one is similar enough (above 0.7); of equally
similar names the last listed. -/
def similarLong (name : String) : Option (String × Parameter) :=
  Parameter.longs.foldl (fun best (long, p) =>
    let score := jaro name long
    if !(score > 0.7) then best
    else match best with
      | some (_, _, s) => if score < s then best else some (long, p, score)
      | none => some (long, p, score)) (none : Option (String × Parameter × Float))
  |>.map fun (long, p, _) => (long, p)

-- ---------------------------------------------------------------------------
-- Reading the arguments
-- ---------------------------------------------------------------------------

/-- An argument read whose value has not taken effect yet. -/
inductive Pending where
  /-- `--eval` given without an attached value: waiting for one, or holding it. -/
  | eval (value : Option String)
  /-- The program file. -/
  | file (path : String)
  deriving DecidableEq

/-- What has been read so far. -/
structure Reading where
  /-- The parameters given, in the order they took effect. -/
  used : List Parameter := []
  file : Option String := none
  eval : Option String := none
  stack : Bool := false
  /-- The argument read last, if its value has not taken effect yet. -/
  pending : Option Pending := none
  /-- A `--` was read: everything after it is positional. -/
  escaped : Bool := false

/-- How reading ends early: with help, the version, or a usage error. -/
inductive Stop where
  | help
  | version
  | failure (text : String)

namespace Reading

/-- Records a parameter as given, unless it already was. -/
def use (r : Reading) (p : Parameter) : Reading :=
  if r.used.contains p then r else { r with used := r.used ++ [p] }

/-- Gives `--eval` its value, which it must not have yet. -/
def assignEval (r : Reading) (v : String) : Except Stop Reading :=
  if r.eval.isSome then .error (.failure (givenTwice .eval))
  else .ok { (r.use .eval) with eval := some v }

/-- Settles the pending argument: `--eval` must have a value and must not be given twice, and the
file name must not be empty. -/
def settle (r : Reading) : Except Stop Reading :=
  match r.pending with
  | none => .ok r
  | some (.eval none) => .error (.failure (missingValue .eval))
  | some (.eval (some v)) => { r with pending := none }.assignEval v
  | some (.file path) =>
    if path.isEmpty then .error (.failure (missingValue .file))
    else .ok { (r.use .file) with pending := none, file := some path }

/-- The parameters given once the pending argument is settled, where a failure to settle it is
passed over: a value missing leaves them as they are, a second value drops `--eval`, and a file
counts as given even with an empty name. -/
def usedLoosely (r : Reading) : List Parameter :=
  match r.pending with
  | some (.eval (some _)) => if r.eval.isSome then r.used.erase .eval else (r.use .eval).used
  | some (.file _) => (r.use .file).used
  | _ => r.used

/-- A file has been read, whether or not it has taken effect. -/
def fileRead (r : Reading) : Bool :=
  r.file.isSome || match r.pending with
    | some (.file _) => true
    | _ => false

/-- `--stack`, which may be given once. -/
def setStack (r : Reading) : Except Stop Reading := do
  let r ← r.settle
  if r.stack then throw (.failure (givenTwice .stack))
  pure { (r.use .stack) with stack := true }

/-- An `--eval` with its value attached, which takes effect at once, or waiting for one. -/
def setEval (r : Reading) (value : Option String) : Except Stop Reading := do
  let r ← r.settle
  match value with
  | some v => r.assignEval v
  | none => pure { r with pending := some (.eval none) }

/-- A long option `--name` or `--name=value`. -/
def long (r : Reading) (arg : String) : Except Stop Reading :=
  let body := (arg.drop 2).toString
  let (name, value) := match body.splitOn "=" with
    | [n] => (n, none)
    | n :: rest => (n, some ("=".intercalate rest))
    | [] => (body, none)
  match name, value with
  | "eval", v => r.setEval v
  | "stack", none => r.setStack
  | "help", none => do let _ ← r.settle; throw .help
  | "version", none => do let _ ← r.settle; throw .version
  | "stack", some v => throw (.failure (unneededValue v .stack r.used))
  | "help", some v => throw (.failure (unneededValue v .help r.used))
  | "version", some v => throw (.failure (unneededValue v .version r.used))
  | _, _ =>
    let flag := "--" ++ name
    let used := r.usedLoosely
    match similarLong name with
    | some (long, p) =>
      let used := if used.contains p then used else used ++ [p]
      throw (.failure (unexpected flag ["a similar argument exists: '--" ++ long ++ "'"]
        (usageOf used)))
    | none => throw (.failure (unexpected flag [escapeTip flag] (usageOf used)))

/-- A cluster of short options `-xyz`. -/
def shorts (r : Reading) : List Char → Except Stop Reading
  | [] => .ok r
  | 'h' :: _ => do let _ ← r.settle; throw .help
  | 'V' :: _ => do let _ ← r.settle; throw .version
  | 'e' :: rest =>
    match rest with
    | '=' :: v => r.setEval (some (String.ofList v))
    | [] => r.setEval none
    | v => r.setEval (some (String.ofList v))
  | c :: _ =>
    let flag := String.ofList ['-', c]
    throw (.failure (unexpected flag [escapeTip flag] fullUsage))

/-- A positional argument: the value of a waiting `--eval`, else the file. -/
def positional (r : Reading) (arg : String) : Except Stop Reading :=
  if r.pending == some (.eval none) && !r.escaped then
    .ok { r with pending := some (.eval (some arg)) }
  else if r.fileRead then throw (.failure (unexpected arg [] fullUsage))
  else do
    let r ← r.settle
    pure { r with pending := some (.file arg) }

/-- Reads one argument. -/
def step (r : Reading) (arg : String) : Except Stop Reading :=
  if r.escaped then r.positional arg
  else if arg == "--" then .ok { r with escaped := true }
  else if arg.startsWith "--" then r.long arg
  else if arg.startsWith "-" && arg.length > 1 then r.shorts (arg.toList.drop 1)
  else r.positional arg

/-- Settles the last option and checks that `--eval` and a file are not both given; the first of
the two given is named first. -/
def finish (r : Reading) : Except Stop Reading := do
  let r ← r.settle
  if r.eval.isSome && r.file.isSome then
    let former := if r.used.idxOf .eval < r.used.idxOf .file then Parameter.eval else .file
    let latter := if former == .eval then Parameter.file else .eval
    throw (.failure (conflict former latter (r.used.filter (· != latter))))
  pure r

end Reading

/-- What the arguments ask for. -/
def Invocation.parse (args : List String) : Invocation :=
  match (args.foldlM Reading.step {}) >>= Reading.finish with
  | .error .help => .help
  | .error .version => .version
  | .error (.failure text) => .usageError text
  | .ok r =>
    match r.file, r.eval with
    | some path, _ => .runFile path r.stack
    | none, some source => .runText source r.stack
    | none, none => .prompt

end Cli

end Concatenative
