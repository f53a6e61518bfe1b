/-
Bindcheck.Operator — the operators, how they are written and what they yield.

  * `symbol` and `ofText?` write and read an operator; `ofText?_symbol` says that reading what
    was written gives the operator back. The two signs have a second, capitalised spelling.
  * `binary` lists the operators that join operands in source text, in the order in which
    they are tried: a symbol stands before every symbol that it begins with.
  * `resultType` is the type of an operator applied to operands of given types.
-/
import Bindcheck.Ty

namespace Bindcheck

/-- An operator of the language or of its evaluator. -/
inductive Operator where
  | add
  | subtract
  | multiply
  | divide
  | modulo
  | equal
  | notEqual
  | lessEqual
  | greaterEqual
  | less
  | greater
  | increment
  | decrement
  | unaryPlus
  | unaryMinus
  | not
  | and
  | or
  deriving DecidableEq, Repr

namespace Operator

/-! ## Spelling -/

/-- How an operator is written. -/
def symbol : Operator → String
  | add => "+"
  | subtract => "-"
  | multiply => "*"
  | divide => "/"
  | modulo => "%"
  | equal => "=="
  | notEqual => "!="
  | lessEqual => "<="
  | greaterEqual => ">="
  | less => "<"
  | greater => ">"
  | increment => "++"
  | decrement => "--"
  | unaryPlus => "unary+"
  | unaryMinus => "unary-"
  | not => "!"
  | and => "&&"
  | or => "||"

/-- The operator that a text spells, if it spells one. -/
def ofText? : String → Option Operator
  | "+" => some add
  | "-" => some subtract
  | "*" => some multiply
  | "/" => some divide
  | "%" => some modulo
  | "==" => some equal
  | "!=" => some notEqual
  | "<=" => some lessEqual
  | ">=" => some greaterEqual
  | "<" => some less
  | ">" => some greater
  | "++" => some increment
  | "--" => some decrement
  | "unary+" | "Unary+" => some unaryPlus
  | "unary-" | "Unary-" => some unaryMinus
  | "!" => some not
  | "&&" => some and
  | "||" => some or
  | _ => none

/-- The complaint about a text that spells no operator. -/
def unknownMessage (text : String) : String := "unknown operation '" ++ text ++ "'"

/-- Reading what was written gives the operator back. -/
theorem ofText?_symbol (op : Operator) : ofText? op.symbol = some op := by
  cases op <;> rfl

/-- The operators that may join two operands, in the order in which a reader tries them. -/
def binary : List Operator :=
  [equal, notEqual, lessEqual, greaterEqual, less, greater, increment, decrement, add, subtract,
    multiply, divide, modulo]

/-! ## Classes -/

/-- Operators that compare two operands of one type. -/
def isComparison : Operator → Bool
  | equal | notEqual | lessEqual | greaterEqual | less | greater => true
  | _ => false

/-- The four operations that any mixture of numbers admits; the remainder is not among them. -/
def isArithmetic : Operator → Bool
  | add | subtract | multiply | divide => true
  | _ => false

/-! ## Result types -/

/-- The signs, which apply to a single number. -/
def isSign : Operator → Bool
  | unaryPlus | unaryMinus => true
  | _ => false

/-- The type of an operator between two numbers, of types `left` and `right`. -/
def numericType (op : Operator) (left right : Ty) : Ty :=
  if op.isArithmetic then
    if left = .double ∨ right = .double then .double else .int
  else if op = .modulo ∧ (left = .int ∨ right = .int) then left
  else .undefined

/-- The type of an operator after an operand that is true or false. -/
def booleanType (op : Operator) (right : Ty) : Ty :=
  if op = .not then .bool
  else if right = .bool ∧ (op = .and ∨ op = .or) then .bool
  else .undefined

/--
The type of `left op right`, or `undefined` where the operator does not admit such operands.
The signs and the negation look at the left operand alone.
-/
def resultType (op : Operator) (left right : Ty) : Ty :=
  if left.isNumeric ∧ op.isSign then left
  else if left = right ∧ op.isComparison then .bool
  else if left = right ∧ op = .add then left
  else if left.isNumeric ∧ right.isNumeric then op.numericType left right
  else if left = .bool then op.booleanType right
  else .undefined

end Operator

end Bindcheck
