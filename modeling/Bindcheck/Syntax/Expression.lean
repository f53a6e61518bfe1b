/-
Bindcheck.Syntax.Expression — reading and checking expressions.

  expression := operand (operator operand)*
  operand    := '(' expression ')' | string | integer | name

Layout may stand before every token. Types are checked while reading: every operand has to
have the type of the first, and every name has to be bound in the table at hand, which does not
change within an expression.

`Reader.operand` is a recursion on the number of parentheses that may still be opened, so a
text of any depth is read in bounded depth and one that goes deeper is refused. The repetition
in `Reader.expression` ends because every operator takes a character.
-/
import Bindcheck.Lexical.Numeral
import Bindcheck.Lexical.Quoted
import Bindcheck.Reader.Many
import Bindcheck.Syntax.Code

namespace Bindcheck

namespace Reader

/-! ## Operands in a row -/

/-- Reads an operand that has to be there, after an operator or at the start. -/
def required (operand : Reader (Option Operand)) (after : Option Operator) :
    Reader Operand := do
  match ← operand with
  | some found => return found
  | none => failHere (.operandExpected after)

/-- Reads an operator and the operand after it, which has to have the given type. -/
def link (operand : Reader (Option Operand)) (ty : Ty) : Reader (Option (Operator × Operand)) :=
  after .operator fun op => do
    let next ← required operand (some op)
    if next.ty = ty then
      return (op, next)
    else
      fail (.mismatchedTypes ty next.ty) next.span

/-- A further operand is behind an operator, which takes a character. -/
theorem consumes_link (operand : Reader (Option Operand)) (ty : Ty) :
    (link operand ty).Consumes :=
  fun _ _ _ => length_lt_of_after Token.operator_pos

/-- Reads an expression, of operands that a given reader reads. -/
def expression (operand : Reader (Option Operand)) : Reader Expr := do
  skipLayout
  let start ← offset
  let first ← required operand none
  let links ← many (link operand first.ty) (consumes_link operand first.ty)
  return .mk first (.ofList links) (← spanSince start)

/-! ## Single operands -/

/-- Reads the rest of an operand in parentheses, opened at the given offset. -/
def group (operand : Reader (Option Operand)) (opened : Nat) : Reader Operand := do
  let inner ← expression operand
  if ← accept ')' then
    return .group inner
  else
    failHere (.unclosedGroup opened)

/-- The operand that a name stands for, read at the given span. -/
def named (scope : SymbolTable) (name : String) (span : Span) : Reader Operand :=
  match scope.get? name with
  | some entry => pure (.var name entry.ty span)
  | none => fail (.undefinedVariable name) span

/-- Reads an operand, what follows a parenthesis opened at some offset by a given reader. -/
def operandWith (scope : SymbolTable) (opened : Nat → Reader Operand) :
    Reader (Option Operand) := do
  skipLayout
  let start ← offset
  if ← accept '(' then
    return some (← opened start)
  else
    match ← quoted with
    | some text => return some (.literal (.str text) (← spanSince start))
    | none =>
      match ← integer with
      | some value => return some (.literal (.int value) (← spanSince start))
      | none =>
        match ← token .name with
        | some name => return some (← named scope name (← spanSince start))
        | none => return none

/-- Reads an operand with at most so many parentheses open at a time. -/
def operand (scope : SymbolTable) : Nat → Reader (Option Operand)
  | 0 => operandWith scope fun opened => fail .nestedTooDeeply (Span.single opened)
  | depth + 1 => operandWith scope (group (operand scope depth))

/-- Reads an expression over the names of a table. -/
def expr (scope : SymbolTable) : Reader Expr := expression (operand scope nestingLimit)

/-- Reads an expression with layout around it, after which nothing may be left. -/
def wholeExpr (scope : SymbolTable) : Reader Statement := do
  let start ← offset
  let expr ← expr scope
  if ← atEnd then
    return .expression expr (← spanSince start)
  else
    failRest .inputAfterExpression

end Reader

end Bindcheck
