/-
Bindcheck.CommandLine — the command line of the program.

Arguments are cut into `Item`s: options, with the values they take, and files. `Invocation`
is what the items ask for, if they can be made sense of; they are taken in order, so the
first item that ends the run or is a mistake decides. `run` is what an invocation prints and
with which exit code, for given files and standard input.

  -e EXPR, -eEXPR, -e=EXPR, --expr EXPR, --expr=EXPR   checks an expression
  -i, --interactive                                    starts a dialogue
  -h, --help, -V, --version                            print and exit
  FILE                                                 checks a program

Short options may be written together. After `--` every argument is a file. An argument that
begins with a hyphen, and is more than a hyphen, is never the separate value of an option.
-/
import Bindcheck.Interactive

namespace Bindcheck

namespace CommandLine

/-! ## Items -/

/-- Why arguments make no sense. -/
inductive UsageError where
  | unknownOption (option : String)
  | missingValue
  | unexpectedValue (option : String)
  | repeatedOption (option : String)
  | secondFile (file : String)
  | emptyFile
  | expressionWithFile
  deriving DecidableEq, Repr

namespace UsageError

/-- What is wrong with the arguments. -/
def message : UsageError → String
  | unknownOption option => "error: unexpected argument '" ++ option ++ "' found\n"
  | missingValue => "error: a value is required for '--expr <EXPR>' but none was supplied\n"
  | unexpectedValue option => "error: unexpected value for '" ++ option ++ "' found\n"
  | repeatedOption option =>
    "error: the argument '" ++ option ++ "' cannot be used multiple times\n"
  | secondFile file => "error: unexpected argument '" ++ file ++ "' found\n"
  | emptyFile => "error: a value is required for '[FILE]' but none was supplied\n"
  | expressionWithFile => "error: the argument '--expr <EXPR>' cannot be used with '[FILE]'\n"

end UsageError

/-- An option with its value, a file, or a mistake. -/
inductive Item where
  | expr (source : String)
  | interactive
  | version
  | help
  | file (name : String)
  | mistake (error : UsageError)
  deriving DecidableEq, Repr

/-- What a group of short options comes to: items, and whether a value has still to follow. -/
structure Cluster where
  items : List Item
  wantsValue : Bool
  deriving DecidableEq, Repr

/-- The short options that are written together behind a hyphen. -/
def cluster : Text → Cluster
  | [] => ⟨[], false⟩
  | 'e' :: [] => ⟨[], true⟩
  | 'e' :: '=' :: value => ⟨[.expr (String.ofList value)], false⟩
  | 'e' :: value => ⟨[.expr (String.ofList value)], false⟩
  | c :: others =>
    let later := cluster others
    let item :=
      if c = 'i' then .interactive
      else if c = 'V' then .version
      else if c = 'h' then .help
      else .mistake (.unknownOption (String.ofList ['-', c]))
    ⟨item :: later.items, later.wantsValue⟩

/-- A long option, without its hyphens, with the value after its equals sign. -/
def longOption (name : String) (value : Option String) : Cluster :=
  match name, value with
  | "expr", some source => ⟨[.expr source], false⟩
  | "expr", none => ⟨[], true⟩
  | "interactive", none => ⟨[.interactive], false⟩
  | "version", none => ⟨[.version], false⟩
  | "help", none => ⟨[.help], false⟩
  | name, some _ =>
    if name = "interactive" ∨ name = "version" ∨ name = "help" then
      ⟨[.mistake (.unexpectedValue ("--" ++ name))], false⟩
    else ⟨[.mistake (.unknownOption ("--" ++ name))], false⟩
  | name, none => ⟨[.mistake (.unknownOption ("--" ++ name))], false⟩

/-- The part of a text before the first equals sign, and the part after it if there is one. -/
def splitEquals (text : Text) : Text × Option Text :=
  match text.dropWhile (· ≠ '=') with
  | [] => (text, none)
  | _ :: value => (text.takeWhile (· ≠ '='), some value)

/-- The options that an argument holds, or none if it is a value or a file. -/
def options? (argument : Text) : Option Cluster :=
  match argument with
  | '-' :: '-' :: text =>
    let (name, value) := splitEquals text
    some (longOption (String.ofList name) (value.map String.ofList))
  | '-' :: c :: others => some (cluster (c :: others))
  | _ => none

/-- The items that arguments come to. -/
def items : List String → List Item
  | [] => []
  | argument :: rest =>
    if argument = "--" then rest.map .file
    else
      match options? argument.toList with
      | none => .file argument :: items rest
      | some found =>
        if found.wantsValue then
          match rest with
          | [] => found.items ++ [.mistake .missingValue]
          | value :: rest' =>
            if (options? value.toList).isSome then found.items ++ [.mistake .missingValue]
            else found.items ++ .expr value :: items rest'
        else found.items ++ items rest

/-! ## Invocations -/

/-- What the arguments ask for. -/
inductive Invocation where
  | check (file : String)
  | checkExpression (source : String)
  | converse
  | showVersion
  | showHelp
  | refuse (error : UsageError)
  deriving DecidableEq, Repr

/-- What items have asked for so far. -/
structure Settings where
  expr : Option String
  interactive : Bool
  file : Option String
  deriving DecidableEq, Repr

namespace Settings

/-- Nothing is asked for yet. -/
def none : Settings := ⟨.none, false, .none⟩

/-- What the settings come to when there are no more items. -/
def invocation (s : Settings) : Invocation :=
  match s.expr, s.interactive, s.file with
  | some _, _, some _ => .refuse .expressionWithFile
  | some source, _, .none => .checkExpression source
  | .none, false, some file => .check file
  | .none, _, _ => .converse

end Settings

/-- What items ask for; the first one that ends the run or cannot be taken in decides. -/
def invocationFrom (s : Settings) : List Item → Invocation
  | [] => s.invocation
  | .expr source :: rest =>
    if s.expr.isSome then .refuse (.repeatedOption "--expr <EXPR>")
    else invocationFrom { s with expr := some source } rest
  | .interactive :: rest =>
    if s.interactive then .refuse (.repeatedOption "--interactive")
    else invocationFrom { s with interactive := true } rest
  | .version :: _ => .showVersion
  | .help :: _ => .showHelp
  | .file name :: rest =>
    if s.file.isSome then .refuse (.secondFile name)
    else if name = "" then .refuse .emptyFile
    else invocationFrom { s with file := some name } rest
  | .mistake error :: _ => .refuse error

/-- What arguments ask for. -/
def Invocation.ofArguments (arguments : List String) : Invocation :=
  invocationFrom Settings.none (items arguments)

/-! ## Running -/

/-- An error of the operating system, as it describes and numbers it. -/
structure SystemError where
  description : String
  code : Nat
  deriving DecidableEq, Repr

/-- What is found under the name of a file. -/
inductive FileContents where
  | bytes (contents : List UInt8)
  | unreadable (error : SystemError)
  deriving DecidableEq, Repr

namespace FileContents

/-- There is nothing under the name. -/
def missing : FileContents := unreadable ⟨"No such file or directory", 2⟩

/-- The name is that of a directory. -/
def directory : FileContents := unreadable ⟨"Is a directory", 21⟩

end FileContents

/-- Why a file cannot be read as text. -/
inductive ReadError where
  | system (error : SystemError)
  | notText
  deriving DecidableEq, Repr

/-- The reason that is given for a file that cannot be read. -/
def ReadError.message : ReadError → String
  | system error => error.description ++ " (os error " ++ toString error.code ++ ")"
  | notText => "stream did not contain valid UTF-8"

/-- The text of a file. -/
def FileContents.text : FileContents → Except ReadError Text
  | bytes contents =>
    match String.fromUTF8? ⟨contents.toArray⟩ with
    | some text => .ok text.toList
    | none => .error .notText
  | unreadable error => .error (.system error)

/-- The output of a run, and its exit code. -/
structure Result where
  exit : Nat
  emissions : List Emission
  deriving DecidableEq, Repr

/-- The result of a check: a source that is refused gives the exit code one. -/
def Result.ofVerdict (v : Verdict) : Result := ⟨if v.accepted then 0 else 1, v.emissions⟩

/-- The text that lists the options. -/
def helpText : String :=
  "Type-checking front end for a tiny assignment language\n\n"
    ++ "Usage: " ++ programName ++ " [OPTIONS] [FILE]\n\n"
    ++ "Arguments:\n"
    ++ "  [FILE]  The program file to check\n\n"
    ++ "Options:\n"
    ++ "  -e, --expr <EXPR>  Check a standalone expression instead of a program\n"
    ++ "  -i, --interactive  Start in interactive REPL mode\n"
    ++ "  -h, --help         Print help\n"
    ++ "  -V, --version      Print version\n"

/-- Checks the program in a file. -/
def checkFile (name : String) (contents : FileContents) : Result :=
  match contents.text with
  | .ok source => Result.ofVerdict (Verdict.ofProgram source (some name))
  | .error e => ⟨1, [.err ("Error reading file '" ++ name ++ "': " ++ e.message ++ "\n")]⟩

/-- What an invocation gives, for given files and standard input. -/
def run (files : String → FileContents) (input : List UInt8) : Invocation → Result
  | .check file => checkFile file (files file)
  | .checkExpression source => Result.ofVerdict (Verdict.ofExpression source.toList)
  | .converse => ⟨0, Interactive.dialogue input⟩
  | .showVersion => ⟨0, [.out (programName ++ " " ++ programVersion ++ "\n")]⟩
  | .showHelp => ⟨0, [.out helpText]⟩
  | .refuse error => ⟨2, [.err error.message]⟩

end CommandLine

end Bindcheck
