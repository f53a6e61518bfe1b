/-
Bindcheck.Decimal.Basic — decimal numbers with a fixed number of places.

A `Decimal` is a sign, a whole number of units, and how many of its digits stand after the
point. `Decimal.text` writes it positionally, never with an exponent.
-/
namespace Bindcheck

/-- The number `units / 10 ^ places`, with a sign; zero too may be negative. -/
structure Decimal where
  negative : Bool
  units : Nat
  places : Nat
  deriving DecidableEq, Repr

namespace Decimal

/-- The digits before the point. -/
def wholeDigits (d : Decimal) : List Char := Nat.toDigits 10 (d.units / Nat.pow 10 d.places)

/-- The digits after the point, as many as there are places. -/
def fractionDigits (d : Decimal) : List Char :=
  (Nat.toDigits 10 (d.units % Nat.pow 10 d.places)).leftpad d.places '0'

/-- Sign, whole digits, point, fraction digits. -/
def text (d : Decimal) : String :=
  String.ofList ((if d.negative then ['-'] else []) ++ d.wholeDigits ++ '.' :: d.fractionDigits)

end Decimal

end Bindcheck
