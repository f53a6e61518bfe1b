/-
Bindcheck.Output — what a run prints.

A run prints a sequence of `Emission`s: text for standard output, reports of diagnostics,
and other text for standard error. `Verdict.ofProgram` and `Verdict.ofExpression` give the
emissions of checking one source and say whether it is accepted.
-/
import Bindcheck.Syntax.Source

namespace Bindcheck

/-- The name of the program. -/
def programName : String := "tinyc"

/-- The version of the program. -/
def programVersion : String := "0.1.0"

/-- A piece of output. -/
inductive Emission where
  | out (text : String)
  | report (report : Report)
  | err (text : String)
  deriving DecidableEq, Repr

namespace Emission

/-- The text that some emissions put on standard output. -/
def outText (emissions : List Emission) : String :=
  String.join (emissions.map fun | out text => text | _ => "")

/-- The text that some emissions put on standard error, beside reports. -/
def errText (emissions : List Emission) : String :=
  String.join (emissions.map fun | err text => text | _ => "")

/-- The reports among some emissions. -/
def reports (emissions : List Emission) : List Report :=
  emissions.filterMap fun | report r => some r | _ => none

end Emission

/-- The output of a check, and whether the source is accepted. -/
structure Verdict where
  accepted : Bool
  emissions : List Emission
  deriving DecidableEq, Repr

namespace Verdict

/-- Refuses a source. -/
def refused (failure : Failure) (source : Text) (file : Option String) : Verdict :=
  ⟨false, [.report (failure.diagnostic.report source file)]⟩

/-- Checks a program; what it binds is printed, by name. -/
def ofProgram (source : Text) (file : Option String) : Verdict :=
  match Code.ofProgram source with
  | .ok code => ⟨true, [.out code.listing]⟩
  | .error failure => refused failure source file

/-- The name that stands for an expression given without a file. -/
def expressionFile : String := "<expr>"

/-- Checks an expression in which no name is bound; its type is printed. -/
def ofExpression (source : Text) : Verdict :=
  match inferType source SymbolTable.empty with
  | .ok ty => ⟨true, [.out (ty.name ++ "\n")]⟩
  | .error failure => refused failure source (some expressionFile)

end Verdict

end Bindcheck
