/-
Bindcheck.Failure — the causes for which a text is refused.

A `Cause` is what reading found wrong, without words; `Failure` adds the part of the text that
is to blame. The wording is in `Cause.kind`, `Cause.message` and `Cause.help`, and
`Failure.diagnostic` puts them together.
-/
import Bindcheck.Diagnostic
import Bindcheck.Operator

namespace Bindcheck

/-- How deep parentheses may be nested. -/
def nestingLimit : Nat := 128

/-- Why a text is refused. -/
inductive Cause where
  /-- A numeral denotes more than the largest integer. -/
  | integerOutOfRange (digits : String)
  /-- No quote follows the sign of a raw string. -/
  | rawQuoteExpected
  /-- A backslash in a string stands before a character that it does not escape. -/
  | invalidEscape (escaped : Char)
  /-- A string runs to the end of the text. -/
  | unterminatedString
  /-- A variable is used that no statement before has assigned. -/
  | undefinedVariable (name : String)
  /-- No equals sign follows the name of an assignment. -/
  | equalsExpected (name : String)
  /-- No semicolon follows the expression of an assignment. -/
  | semicolonExpected
  /-- There is no operand at the start of an expression, or after an operator. -/
  | operandExpected (after : Option Operator)
  /-- The parenthesis opened at an offset is not closed after its expression. -/
  | unclosedGroup (opened : Nat)
  /-- More parentheses are open than may be nested. -/
  | nestedTooDeeply
  /-- An operand differs in type from the first operand of its expression. -/
  | mismatchedTypes (expected found : Ty)
  /-- Text that is no assignment follows the last statement. -/
  | assignmentExpected
  /-- Text follows an expression that should stand alone. -/
  | inputAfterExpression
  deriving DecidableEq, Repr

namespace Cause

/-- The kind of diagnostic that a cause gives. -/
def kind : Cause → DiagnosticKind
  | integerOutOfRange _ | rawQuoteExpected | invalidEscape _ | unterminatedString => .scan
  | undefinedVariable _ | equalsExpected _ | semicolonExpected | operandExpected _
  | unclosedGroup _ | nestedTooDeeply => .parse
  | mismatchedTypes _ _ => .type
  | assignmentExpected | inputAfterExpression => .trailing

/-- What is wrong. -/
def message : Cause → String
  | integerOutOfRange digits => "Integer literal out of range: " ++ digits
  | rawQuoteExpected => "Expected ''' after '@'"
  | invalidEscape escaped => "Invalid escape sequence '\\" ++ String.singleton escaped ++ "'"
  | unterminatedString => "Unterminated string"
  | undefinedVariable name => "Undefined variable '" ++ name ++ "'"
  | equalsExpected name => "Expected '=' after '" ++ name ++ "'"
  | semicolonExpected => "Expected ';' after expression"
  | operandExpected none => "Expected operand"
  | operandExpected (some op) => "Expected operand after '" ++ op.symbol ++ "'"
  | unclosedGroup _ => "Expected ')' after expression"
  | nestedTooDeeply => "Expressions nested too deeply"
  | mismatchedTypes expected found =>
    "Mismatched types: expected " ++ expected.name ++ ", found " ++ found.name
  | assignmentExpected => "Expected an assignment"
  | inputAfterExpression => "Unexpected input after expression"

/-- How to mend it. -/
def help : Cause → Option String
  | integerOutOfRange _ => none
  | rawQuoteExpected => some "Raw strings are written as @'text'."
  | invalidEscape _ =>
    some "Valid escapes are \\n, \\t, \\r, \\\\ and \\'. Use @'...' for raw strings."
  | unterminatedString => none
  | undefinedVariable _ => some "Variables must be assigned before they are used."
  | equalsExpected _ => some "Statements are assignments: name = expression;"
  | semicolonExpected => some "Every assignment ends with ';'."
  | operandExpected _ =>
    some "Operands are numbers, 'strings', declared variables or (expressions)."
  | unclosedGroup opened =>
    some ("The '(' at offset " ++ toString opened ++ " is never closed.")
  | nestedTooDeeply =>
    some ("At most " ++ toString nestingLimit ++ " levels of parentheses are allowed.")
  | mismatchedTypes expected _ =>
    some ("All operands of an expression must have the type of its first operand ("
      ++ expected.name ++ ").")
  | assignmentExpected => some "A program is a sequence of assignments: name = expression;"
  | inputAfterExpression =>
    some "An expression is operands joined by operators, e.g. 1 + 2 * 3."

/-- The same cause in a text that has `distance` more characters in front. -/
def shift (distance : Nat) : Cause → Cause
  | unclosedGroup opened => unclosedGroup (opened + distance)
  | cause => cause

end Cause

/-- A cause, and the part of the text to blame. -/
structure Failure where
  cause : Cause
  span : Span
  deriving DecidableEq, Repr

namespace Failure

/-- A failure in the words that users see. -/
def diagnostic (f : Failure) : Diagnostic where
  kind := f.cause.kind
  span := f.span
  message := f.cause.message
  help := f.cause.help

/-- The same failure in a text that has `distance` more characters in front. -/
def shift (f : Failure) (distance : Nat) : Failure :=
  ⟨f.cause.shift distance, f.span.shift distance⟩

end Failure

end Bindcheck
