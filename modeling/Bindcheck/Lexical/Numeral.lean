/-
Bindcheck.Lexical.Numeral — integers.

A numeral is a run of decimal digits, of any length and with any number of zeros in front.
It denotes its decimal value, which has to be an integer of 64 bits.
-/
import Bindcheck.Lexical.Token

namespace Bindcheck

namespace Numeral

/-- The number that a run of digits denotes. -/
def value (digits : Text) : Nat := Nat.ofDigitChars 10 digits 0

/-- The largest integer. -/
def maxInteger : Nat := Nat.pow 2 63 - 1

end Numeral

namespace Reader

/-- Reads an integer after the layout, if there is a digit. -/
def integer : Reader (Option Int64) := do
  skipLayout
  let start ← offset
  match ← token .digits with
  | none => return none
  | some digits =>
    if Numeral.value digits ≤ Numeral.maxInteger then
      return some (Int64.ofNat (Numeral.value digits))
    else
      fail (.integerOutOfRange (String.ofList digits)) (← spanSince start)

end Reader

end Bindcheck
