/-
Bindcheck.Syntax.Code — checked programs.

An expression is a first operand and a chain of further ones, each behind its operator, flat
and in source order: there are no precedences. An operand is a literal, a variable with the
type it is bound to, or an expression in parentheses. The type of an expression is that of its
first operand.

Every literal, variable, expression and statement has the span of its source text. The span
of an operand in parentheses is that of the expression between them.
-/
import Bindcheck.SymbolTable
import Bindcheck.Operator
import Bindcheck.Text.Span
import Bindcheck.Value

namespace Bindcheck

mutual

/-- What operators join. -/
inductive Operand where
  | literal (value : Constant) (span : Span)
  | var (name : String) (ty : Ty) (span : Span)
  | group (inner : Expr)
  deriving DecidableEq, Repr

/-- Operands joined by operators. -/
inductive Expr where
  | mk (first : Operand) (rest : Chain) (span : Span)
  deriving DecidableEq, Repr

/-- Operators, each with the operand after it. -/
inductive Chain where
  | nil
  | cons (op : Operator) (operand : Operand) (rest : Chain)
  deriving DecidableEq, Repr

end

namespace Chain

/-- The chain of some operators and operands. -/
def ofList : List (Operator × Operand) → Chain
  | [] => nil
  | (op, operand) :: links => cons op operand (ofList links)

/-- The operators and operands of a chain. -/
def toList : Chain → List (Operator × Operand)
  | nil => []
  | cons op operand rest => (op, operand) :: toList rest

@[simp] theorem toList_ofList (links : List (Operator × Operand)) :
    (ofList links).toList = links := by
  induction links with
  | nil => rfl
  | cons link links ih => simp [ofList, toList, ih]

@[simp] theorem ofList_toList : (chain : Chain) → ofList chain.toList = chain
  | nil => rfl
  | cons op operand rest => by simp [toList, ofList, ofList_toList rest]

end Chain

namespace Expr

/-- The first operand. -/
def first : Expr → Operand
  | mk first _ _ => first

/-- The operators and operands after the first operand. -/
def rest : Expr → Chain
  | mk _ rest _ => rest

/-- Where the expression stands, with the layout after it. -/
def span : Expr → Span
  | mk _ _ span => span

/-- All operands, in order. -/
def operands (e : Expr) : List Operand := e.first :: e.rest.toList.map (·.2)

/-- All operators, in order. -/
def operators (e : Expr) : List Operator := e.rest.toList.map (·.1)

end Expr

mutual

/-- The type of an operand. -/
def Operand.ty : Operand → Ty
  | .literal value _ => value.ty
  | .var _ ty _ => ty
  | .group inner => inner.ty

/-- The type of an expression: that of its first operand. -/
def Expr.ty : Expr → Ty
  | .mk first _ _ => first.ty

end

/-- Where an operand stands; for an operand in parentheses, where its expression stands. -/
def Operand.span : Operand → Span
  | .literal _ span => span
  | .var _ _ span => span
  | .group inner => inner.span

/-- A statement that gives a variable the value of an expression. -/
structure Assignment where
  name : String
  expr : Expr
  span : Span
  deriving DecidableEq, Repr

/-- An assignment, or an expression that stands alone. -/
inductive Statement where
  | assignment (a : Assignment)
  | expression (expr : Expr) (span : Span)
  deriving DecidableEq, Repr

namespace Statement

/-- The variable that is assigned, if one is. -/
def target? : Statement → Option String
  | assignment a => some a.name
  | expression _ _ => none

/-- The expression of a statement. -/
def expr : Statement → Expr
  | assignment a => a.expr
  | expression expr _ => expr

/-- Where a statement stands. -/
def span : Statement → Span
  | assignment a => a.span
  | expression _ span => span

end Statement

/-- Checked statements, and what the names in them are bound to. -/
structure Code where
  statements : List Statement
  symbols : SymbolTable
  deriving DecidableEq

end Bindcheck
