/-
Bindcheck.Value — constants, and values that may still be undefined.

A `Constant` is what a literal denotes. A `Value` is a constant or nothing yet; its type is
that of its constant, or `Ty.undefined`.
-/
import Bindcheck.Double
import Bindcheck.Ty

namespace Bindcheck

/-- A constant of one of the four types. -/
inductive Constant where
  | int (value : Int64)
  | double (value : Double)
  | str (value : String)
  | bool (value : Bool)
  deriving DecidableEq, Repr

namespace Constant

/-- The type of a constant. -/
def ty : Constant → Ty
  | int _ => .int
  | double _ => .double
  | str _ => .str
  | bool _ => .bool

/-- How a constant is shown; a text is shown bare. -/
def text : Constant → String
  | int value => toString value.toInt
  | double value => value.text
  | str value => value
  | bool true => "true"
  | bool false => "false"

/-- The comparison that programs make: by type and value, doubles as numbers. -/
def valueEq : Constant → Constant → Bool
  | int m, int n => m = n
  | double x, double y => x.numericEq y
  | str s, str t => s = t
  | bool a, bool b => a = b
  | _, _ => false

/-- A constant has a type that is defined. -/
theorem ty_ne_undefined (constant : Constant) : constant.ty ≠ .undefined := by
  cases constant <;> simp [ty]

end Constant

/-- A constant, or no value yet. -/
inductive Value where
  | undefined
  | constant (value : Constant)
  deriving DecidableEq, Repr, Inhabited

namespace Value

/-- The type of a value. -/
def ty : Value → Ty
  | undefined => .undefined
  | constant value => value.ty

/-- There is a constant. -/
def isDefined : Value → Bool
  | undefined => false
  | constant _ => true

/-- How a value is shown. -/
def text : Value → String
  | undefined => Ty.undefined.name
  | constant value => value.text

/-- The comparison that programs make; two undefined values are equal. -/
def valueEq : Value → Value → Bool
  | undefined, undefined => true
  | constant a, constant b => a.valueEq b
  | _, _ => false

/-- The integer, of a value that is one. -/
def int? : Value → Option Int64
  | constant (.int value) => some value
  | _ => none

/-- The double, of a value that is one. -/
def double? : Value → Option Double
  | constant (.double value) => some value
  | _ => none

/-- The text, of a value that is one. -/
def str? : Value → Option String
  | constant (.str value) => some value
  | _ => none

/-- The truth value, of a value that is one. -/
def bool? : Value → Option Bool
  | constant (.bool value) => some value
  | _ => none

/-- A value is defined exactly when its type is. -/
theorem isDefined_iff {value : Value} : value.isDefined = true ↔ value.ty ≠ .undefined := by
  cases value <;> simp [isDefined, ty, Constant.ty_ne_undefined]

end Value

end Bindcheck
