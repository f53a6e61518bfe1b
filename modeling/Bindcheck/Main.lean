/-
Bindcheck.Main — the program: arguments, files and terminal around `CommandLine.run`.

Everything printed comes from the pure layer. A dialogue is printed answer by answer, so that a
user sees each one before typing the next line.
-/
import Bindcheck.CommandLine

namespace Bindcheck

namespace Main

/-- Prints a report: its headline, and below it the place, the label and the help. -/
def printReport (report : Report) : IO Unit := do
  IO.eprintln ("Error: " ++ report.kind.title ++ ": " ++ report.message)
  if let some excerpt := report.excerpt then
    IO.eprintln ("  at " ++ excerpt.locationText ++ ": " ++ excerpt.label)
    if let some help := excerpt.help then
      IO.eprintln ("  help: " ++ help)

/-- Prints a piece of output. -/
def print : Emission → IO Unit
  | .out text => do
    IO.print text
    (← IO.getStdout).flush
  | .report report => printReport report
  | .err text => IO.eprint text

/-- The bytes of the next line of standard input, with its line feed. -/
partial def readLine (input : IO.FS.Stream) (line : Array UInt8) : IO (List UInt8) := do
  let bytes ← input.read 1
  match bytes.toList with
  | [] => return line.toList
  | byte :: _ =>
    if byte = 10 then return (line.push byte).toList
    else readLine input (line.push byte)

/-- What the system says of an error, if the error is one of the system. -/
def systemError? : IO.Error → Option CommandLine.SystemError
  | .otherError code description
  | .resourceBusy code description
  | .resourceVanished code description
  | .unsupportedOperation code description
  | .hardwareFault code description
  | .unsatisfiedConstraints code description
  | .illegalOperation code description
  | .protocolError code description
  | .timeExpired code description
  | .interrupted _ code description
  | .noFileOrDirectory _ code description
  | .alreadyExists _ code description
  | .invalidArgument _ code description
  | .permissionDenied _ code description
  | .resourceExhausted _ code description
  | .inappropriateType _ code description
  | .noSuchThing _ code description => some ⟨description, code.toNat⟩
  | .unexpectedEof | .userError _ => none

/-- What reading gives, or the error of the system for which it gives nothing. -/
def attempt {α : Type} (read : IO α) : IO (Except CommandLine.SystemError α) := do
  match ← read.toBaseIO with
  | .ok found => return .ok found
  | .error error =>
    match systemError? error with
    | some e => return .error e
    | none => throw error

/-- Answers line after line. -/
partial def converse (input : IO.FS.Stream) (session : Text) : IO Unit := do
  print (.out Interactive.prompt)
  match ← attempt (readLine input #[]) with
  | .error e =>
    let reason := CommandLine.ReadError.system e
    print (.err ("Error reading input: " ++ reason.message ++ "\n"))
  | .ok [] => print (.out "\n")
  | .ok line =>
    let response := Interactive.respond session line
    response.emissions.forM print
    if let some next := response.session then
      converse input next

/-- What stands under the name of a file. -/
def findFile (name : String) : IO CommandLine.FileContents := do
  -- The file is opened first: asking for its size words the errors in another way.
  let contents ← attempt do
    let file ← IO.FS.Handle.mk name .read
    file.readBinToEnd
  match contents with
  | .ok bytes => return .bytes bytes.toList
  | .error e => return .unreadable e

/-- Does what the arguments ask for. -/
def run (invocation : CommandLine.Invocation) : IO UInt32 := do
  match invocation with
  | .converse =>
    print (.out Interactive.banner)
    converse (← IO.getStdin) []
    return 0
  | _ =>
    let found ← match invocation with
      | .check file => findFile file
      | _ => pure .missing
    let result := CommandLine.run (fun _ => found) [] invocation
    result.emissions.forM print
    return result.exit.toUInt32

end Main

end Bindcheck

/-- Runs the program. -/
def main (arguments : List String) : IO UInt32 :=
  Bindcheck.Main.run (Bindcheck.CommandLine.Invocation.ofArguments arguments)
