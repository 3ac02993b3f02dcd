import Caret.CommandLine.Arguments
import Caret.CommandLine.Report
/-!
# The command line

Reads the file, completes at the caret, and prints the report.
-/

namespace Caret.CommandLine

def usage : String :=
  "Suggest the contextual keywords that are legal at a caret position\n\n" ++
  "Usage: [-p|--position N] [--sequential] [--format text|json] [--no-color] FILE"

def version : String := "0.1.0"

/-- What the system's answer to an attempt to read says. Failures of one class are told apart by the
system's words. -/
def readFailure : IO.Error → ReadFailure
  | .noFileOrDirectory .. => .notFound
  | .inappropriateType _ _ "not a directory" => .notDirectory
  | .inappropriateType .. => .isDirectory
  | .invalidArgument _ _ "name too long" => .tooLong
  | e => .other (toString e)

def contents (file : String) : IO (Except ReadFailure ByteArray) := do
  if file.any (· == '\x00') then return .error .badPath
  try return .ok (← IO.FS.readBinFile file)
  catch e => return .error (readFailure e)

def complain (messages : List String) : IO Unit :=
  match messages with
  | [] => pure ()
  | m :: causes => do
    IO.eprintln ("Error: " ++ m)
    unless causes.isEmpty do
      IO.eprintln "\nCaused by:"
      for cause in causes do IO.eprintln ("    " ++ cause)

/-- Runs the program; the result is its exit code. -/
def run (arguments : List String) : IO UInt32 := do
  match Arguments.parse arguments with
  | .error .helpWanted => IO.println usage; return 0
  | .error .versionWanted => IO.println version; return 0
  | .error e => IO.eprintln ("error: " ++ e.message ++ "\n\n" ++ usage); return 2
  | .ok a =>
    match Run.ofFile a.file (← contents a.file) a.position a.options with
    | .error e => complain e.messages; return 1
    | .ok r =>
      let terminal ← (← IO.getStdout).isTty
      IO.println (Report.render a.format (terminal && !a.noColor) r)
      return 0

end Caret.CommandLine

/-- The program. -/
def main (arguments : List String) : IO UInt32 := Caret.CommandLine.run arguments
