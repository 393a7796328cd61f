import Concatenative.Cli.Arguments
import Concatenative.Cli.Report

/-!
# What the command line answers

`Invocation.respond` turns what the arguments ask for into what the program writes to its
output and error streams and its exit status: help and version on the output with status 0, a
usage error on the error stream with status 2, and a program run with status 0, or 1 when it
fails or its file cannot be read. Reading the file is left to the caller, as a function from
paths to contents.

A program run prints the lines written by `print` first, then the top of the stack, or with
`--stack` the whole final state; a failing program has its error reported against its source.
-/

namespace Concatenative

namespace Cli

/-- What the program writes and its exit status. -/
structure Response where
  stdout : String := ""
  stderr : String := ""
  status : Nat := 0
  deriving DecidableEq, Repr

/-- Why a program file could not be read. -/
inductive ReadFailure where
  | notFound
  | isDirectory
  | notDirectory
  | permissionDenied
  | nameTooLong
  | invalidUtf8
  | other (message : String)
  deriving DecidableEq, Repr

/-- The system's description of a read failure. -/
def ReadFailure.message : ReadFailure → String
  | .notFound => "No such file or directory (os error 2)"
  | .isDirectory => "Is a directory (os error 21)"
  | .notDirectory => "Not a directory (os error 20)"
  | .permissionDenied => "Permission denied (os error 13)"
  | .nameTooLong => "File name too long (os error 36)"
  | .invalidUtf8 => "stream did not contain valid UTF-8"
  | .other m => m

/-- Runs program text on a fresh machine and shows the outcome. -/
def runSource (source : String) (showStack : Bool) : Response :=
  let (result, m) := ({} : Machine).enter source
  let printed := String.join (m.output.toList.map (· ++ "\n"))
  match result with
  | .ok top =>
    if showStack then { stdout := printed ++ renderState m ++ "\n" }
    else match top with
      | some t => { stdout := printed ++ paint t ++ "\n" }
      | none => { stdout := printed }
  | .error e => { stdout := printed, stderr := report source e ++ "\n", status := 1 }

/-- The answer to an invocation, reading program files with `read`. The interactive prompt is
answered as it is without a terminal: it cannot start. -/
def Invocation.respond (inv : Invocation) (read : String → Except ReadFailure String) :
    Response :=
  match inv with
  | .help => { stdout := helpText }
  | .version => { stdout := versionText }
  | .usageError text => { stderr := text, status := 2 }
  | .runText source showStack => runSource source showStack
  | .runFile path showStack =>
    match read path with
    | .ok source => runSource source showStack
    | .error f => { stderr := bold (path ++ ": " ++ f.message) ++ "\n", status := 1 }
  | .prompt => { stderr := "terminfo entry not found\n", status := 1 }

/-- One line entered at the interactive prompt: the machine afterwards and what is shown, the
printed lines and then the state or the error. Blank lines are skipped. -/
def promptLine (m : Machine) (line : String) : Machine × String :=
  if line.trimAscii.isEmpty then (m, "")
  else
    let (result, m) := m.enter line
    let (printed, m) := m.takeOutput
    let shown := match result with
      | .ok _ => renderState m
      | .error e => report line e
    (m, String.join (printed.map (· ++ "\n")) ++ shown ++ "\n")

end Cli

end Concatenative
