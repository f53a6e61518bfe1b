/-
Bindcheck.Double — IEEE 754 double-precision numbers, by their 64 bits.

A double is its bits: one for the sign, eleven for the exponent, fifty-two for the fraction.
Two doubles with the same bits are the same value here; `numericEq` is the comparison that
programs make, in which NaN equals nothing and the two zeros are equal.

A finite double is `significand * 2 ^ scale / 2 ^ 1075` up to its sign. `decimal` gives the
decimal that identifies it: all digits of a whole number and one place, and otherwise the
fewest places that tell it from every other double.
-/
import Bindcheck.Decimal.Basic
import Bindcheck.Decimal.Window

namespace Bindcheck

/-- A double-precision number. -/
structure Double where
  bits : UInt64
  deriving DecidableEq, Repr

namespace Double

/-! ## Fields -/

/-- The sign bit is set. -/
def isNegative (x : Double) : Bool := Nat.pow 2 63 ≤ x.bits.toNat

/-- The exponent, as it is stored. -/
def exponentField (x : Double) : Nat := x.bits.toNat / Nat.pow 2 52 % Nat.pow 2 11

/-- The digits of the significand that are stored. -/
def fractionField (x : Double) : Nat := x.bits.toNat % Nat.pow 2 52

/-- An infinity or a NaN. -/
def isSpecial (x : Double) : Bool := x.exponentField = Nat.pow 2 11 - 1

/-- Not a number. -/
def isNaN (x : Double) : Bool := x.isSpecial && x.fractionField ≠ 0

/-- One of the two zeros. -/
def isZero (x : Double) : Bool := x.exponentField = 0 && x.fractionField = 0

/-- Equality of numbers: none with NaN, and the two zeros are equal. -/
def numericEq (x y : Double) : Bool :=
  !x.isNaN && !y.isNaN && (x = y || (x.isZero && y.isZero))

/-! ## Magnitude of a finite double -/

/-- The digits of the number, with the leading one that a normal number does not store. -/
def significand (x : Double) : Nat :=
  if x.exponentField = 0 then x.fractionField else Nat.pow 2 52 + x.fractionField

/-- The power of two that scales the significand, counted from that of the last place. -/
def scale (x : Double) : Nat := max x.exponentField 1

/-- The magnitude in units of `1 / 2 ^ 1075`. -/
def magnitude (x : Double) : Nat := x.significand * Nat.pow 2 x.scale

/-- The number is whole. -/
def isWhole (x : Double) : Bool := x.magnitude % Nat.pow 2 1075 = 0

/-- Doubles are half as dense above a power of two as below it. -/
def isNarrowBelow (x : Double) : Bool := x.fractionField = 0 && 1 < x.exponentField

/--
The reals that round to a finite double, ties going to an even significand; four units of this
window make one step of the significand.
-/
def window (x : Double) : Window where
  unit := Nat.pow 2 (1077 - x.scale)
  low := 4 * x.significand - (if x.isNarrowBelow then 1 else 2)
  middle := 4 * x.significand
  high := 4 * x.significand + 2
  closed := x.significand % 2 = 0

/-! ## Writing -/

/-- The decimal that identifies a finite double. -/
def decimal (x : Double) : Decimal :=
  if x.isWhole then ⟨x.isNegative, x.magnitude / Nat.pow 2 1075 * 10, 1⟩
  else
    let (units, places) := x.window.fewest (1075 - x.scale)
    ⟨x.isNegative, units, places⟩

/-- How a double is written: always with a point, unless it is special. -/
def text (x : Double) : String :=
  if x.isNaN then "NaN"
  else if x.isSpecial then (if x.isNegative then "-inf" else "inf")
  else x.decimal.text

end Double

end Bindcheck
