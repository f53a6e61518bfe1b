/-
Bindcheck.Ty — the types of values and expressions.

`Ty.undefined` is the type of what has no value yet, and the answer for an operator that its
operands do not admit. Only `int` and `double` are numeric.
-/
namespace Bindcheck

/-- The type of a value or of an expression. -/
inductive Ty where
  | undefined
  | int
  | double
  | str
  | bool
  deriving DecidableEq, Repr, Inhabited

namespace Ty

/-- The word for a type in diagnostics and listings. -/
def name : Ty → String
  | undefined => "undefined"
  | int => "int"
  | double => "double"
  | str => "str"
  | bool => "bool"

/-- Numbers of either kind. -/
def isNumeric : Ty → Bool
  | int | double => true
  | undefined | str | bool => false

/-- Types are told apart by their names. -/
theorem name_inj {t u : Ty} : t.name = u.name ↔ t = u := by
  cases t <;> cases u <;> decide

end Ty

end Bindcheck
