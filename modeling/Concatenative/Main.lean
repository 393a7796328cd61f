import Concatenative.Cli.Response

/-!
# The command-line program

Reads the arguments, reads a program file when one is named, runs it and writes the answer. The
interactive prompt runs when the terminal is known (`TERM` is set); each line entered is run on
one machine that persists between lines.
-/

namespace Concatenative.Cli

/-- The contents of a program file, or why it cannot be read. -/
def readProgram (path : String) : IO (Except ReadFailure String) := do
  try
    let bytes ← IO.FS.readBinFile path
    match String.fromUTF8? bytes with
    | some s => pure (.ok s)
    | none => pure (.error .invalidUtf8)
  catch e =>
    pure (.error (match e with
      | .noFileOrDirectory .. => .notFound
      | .inappropriateType _ 21 _ => .isDirectory
      | .inappropriateType _ 20 _ => .notDirectory
      | .permissionDenied .. => .permissionDenied
      | other => .other (toString other)))

/-- Runs lines from the input on one machine until the input ends. -/
partial def promptLoop (m : Machine) (stdin : IO.FS.Stream) (stdout : IO.FS.Stream) : IO Unit := do
  stdout.putStr "> "
  stdout.flush
  let line ← stdin.getLine
  if line.isEmpty then return
  let (m, shown) := promptLine m (String.ofList (line.toList.filter (· != '\n')))
  stdout.putStr shown
  promptLoop m stdin stdout

end Concatenative.Cli

open Concatenative.Cli in
def main (args : List String) : IO UInt32 := do
  let inv := Invocation.parse args
  let contents : Except ReadFailure String ← match inv with
    | .runFile path _ => readProgram path
    | _ => pure (.error .notFound)
  let read : String → Except ReadFailure String := fun _ => contents
  match inv, (← IO.getEnv "TERM") with
  | .prompt, some _ =>
    promptLoop {} (← IO.getStdin) (← IO.getStdout)
    pure 0
  | _, _ =>
    let r := inv.respond read
    IO.print r.stdout
    IO.eprint r.stderr
    pure (UInt32.ofNat r.status)
