/-
Bindcheck.Diagnostic — what users are told about a text that is refused.

A `Diagnostic` has a kind, a span, a message and perhaps a word of help; its `label` is the
text under the marked part of the source. `Diagnostic.report` places a diagnostic in a
source: an empty source has nothing to show, so its report is the headline alone.
-/
import Bindcheck.Text.Lines

namespace Bindcheck

/-- What went wrong: in a token, in the grammar, between types, or after the last statement. -/
inductive DiagnosticKind where
  | scan
  | parse
  | type
  | trailing
  deriving DecidableEq, Repr

namespace DiagnosticKind

/-- The first words of the headline. -/
def title : DiagnosticKind → String
  | scan => "Scan Error"
  | parse => "Parse Error"
  | type => "Type Error"
  | trailing => "Unrecognized Input"

/-- The terminal colour of the headline, by its ANSI number. -/
def color : DiagnosticKind → Nat
  | scan => 31
  | parse => 33
  | type => 35
  | trailing => 34

end DiagnosticKind

/-- A complaint about a part of a source text. -/
structure Diagnostic where
  kind : DiagnosticKind
  span : Span
  message : String
  help : Option String
  deriving DecidableEq, Repr

/-- The part of a report that shows the source. -/
structure Excerpt where
  file : String
  location : Location
  range : Span
  label : String
  help : Option String
  deriving DecidableEq, Repr

/-- A diagnostic as it is printed. -/
structure Report where
  kind : DiagnosticKind
  message : String
  excerpt : Option Excerpt
  deriving DecidableEq, Repr

namespace Diagnostic

/-- The words under the marked part of a source of the given length. -/
def label (d : Diagnostic) (length : Nat) : String :=
  if length ≤ d.span.start then "input ends here"
  else
    match d.kind with
    | .type => "this operand has a different type"
    | .trailing => "parsing stopped here"
    | .scan | .parse => d.message

/-- The name that stands for a source without a file. -/
def unnamedSource : String := "<repl>"

/-- A diagnostic about a source, with the part of the source that it marks. -/
def excerpt (d : Diagnostic) (source : Text) (file : Option String) : Excerpt where
  file := file.getD unnamedSource
  location := Location.ofOffset source (min d.span.start source.length)
  range := d.span.clamp source.length
  label := d.label source.length
  help := d.help

/-- The report of a diagnostic about a source. -/
def report (d : Diagnostic) (source : Text) (file : Option String) : Report where
  kind := d.kind
  message := d.message
  excerpt := if source.isEmpty then none else some (d.excerpt source file)

end Diagnostic

namespace Excerpt

/-- File, line and column, as an excerpt shows them. -/
def locationText (e : Excerpt) : String :=
  e.file ++ ":" ++ toString e.location.line ++ ":" ++ toString e.location.column

end Excerpt

end Bindcheck
