/-
Bindcheck.Interactive — the dialogue with a user, line by line.

The session is the text of the lines accepted so far; a line of source is checked behind it,
and joins it if the whole is a program. Commands look at the session and leave it alone.

`respond` is the answer to one line, and `dialogue` the whole output for given input. Input
is bytes: it is cut into lines at line feeds, and a line that is not UTF-8 ends the dialogue.
-/
import Bindcheck.Output
import Bindcheck.Text.Space

namespace Bindcheck

namespace Interactive

/-- What is printed before the first prompt. -/
def banner : String :=
  programName ++ " v" ++ programVersion ++ "\n"
    ++ "Enter assignments like  x = 1 + 2;\n"
    ++ ":type <expr> shows a type, :vars lists bindings, exit quits\n\n"

/-- What asks for a line. -/
def prompt : String := "> "

/-! ## Commands -/

/-- What a line asks for. -/
inductive Command where
  /-- Nothing. -/
  | skip
  /-- To end the dialogue. -/
  | leave
  /-- To list what is bound. -/
  | bindings
  /-- To give the type of an expression. -/
  | typeOf (expr : Text)
  /-- To add statements to the session. -/
  | extend (statements : Text)
  deriving DecidableEq, Repr

namespace Command

/-- The word that asks for a type; the expression follows it, with or without a space. -/
def typeWord : Text := ":type".toList

/-- What a line asks for, the spaces around it set aside. -/
def ofLine (line : Text) : Command :=
  let line := Text.trim line
  if line = [] then skip
  else if line = "exit".toList ∨ line = "quit".toList then leave
  else if line = ":vars".toList then bindings
  else if typeWord.isPrefixOf line then typeOf (Text.trim (line.drop typeWord.length))
  else extend line

end Command

/-! ## Answers -/

/-- What is printed for a line, and the session after it; none if the dialogue has ended. -/
structure Response where
  emissions : List Emission
  session : Option Text
  deriving DecidableEq, Repr

/-- A report about a text that no file holds. -/
def complain (failure : Failure) (source : Text) : List Emission :=
  [.report (failure.diagnostic.report source none)]

/-- The session with a line behind it. -/
def extended (session line : Text) : Text := session ++ '\n' :: line

/-- The number of names that a session binds; none if it is no program. -/
def boundNames (session : Text) : Nat :=
  match Code.ofProgram session with
  | .ok code => code.symbols.size
  | .error _ => 0

/-- What is printed when a line binds no new name. -/
def nothingNew : String := "(no new bindings)\n"

/-- The answer to a command. -/
def perform (session : Text) : Command → Response
  | .skip => ⟨[], some session⟩
  | .leave => ⟨[.out "Goodbye!\n"], none⟩
  | .bindings =>
    match Code.ofProgram session with
    | .ok code => ⟨[.out code.listing], some session⟩
    | .error failure => ⟨complain failure session, some session⟩
  | .typeOf expr =>
    match inferTypeAfter session expr with
    | .ok ty => ⟨[.out (ty.name ++ "\n")], some session⟩
    | .error (.program failure) => ⟨complain failure session, some session⟩
    | .error (.expression failure) => ⟨complain failure expr, some session⟩
  | .extend statements =>
    let source := extended session statements
    match Code.ofProgram source with
    | .ok code =>
      ⟨if code.symbols.size = boundNames session then [.out nothingNew] else [], some source⟩
    | .error failure => ⟨complain failure source, some session⟩

/-- What is printed for a line that is not UTF-8. -/
def unreadable : String := "Error reading input: stream did not contain valid UTF-8\n"

/-- The answer to a line, given as bytes. -/
def respond (session : Text) (line : List UInt8) : Response :=
  match String.fromUTF8? ⟨line.toArray⟩ with
  | some text => perform session (Command.ofLine text.toList)
  | none => ⟨[.err unreadable], none⟩

/-! ## The whole dialogue -/

/-- The lines of the input, each with the line feed that ends it. -/
def inputLines : List UInt8 → List (List UInt8)
  | [] => []
  | byte :: bytes =>
    if byte = 10 then [byte] :: inputLines bytes
    else
      match inputLines bytes with
      | [] => [[byte]]
      | line :: lines => (byte :: line) :: lines

/-- The output for some lines, from a session on; at the end of the input the prompt's line ends. -/
def converse (session : Text) : List (List UInt8) → List Emission
  | [] => [.out prompt, .out "\n"]
  | line :: lines =>
    let response := respond session line
    .out prompt :: response.emissions ++
      match response.session with
      | some next => converse next lines
      | none => []

/-- The whole output for given input. -/
def dialogue (input : List UInt8) : List Emission := .out banner :: converse [] (inputLines input)

end Interactive

end Bindcheck
