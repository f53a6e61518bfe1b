/-
Bindcheck.Proofs.Decimal.Digits — decimal digits and the number that they
denote.

`decimalValue` is the positional system: the last digit counts once, the
one before it ten times, and so on. Numerals are evaluated from the front,
one digit after the other, and this is the same number (`Numeral.value_eq`).
`decimalValue_append` takes a run of digits apart at any place, so zeros in
front do not count, and `decimalValue_toDigits` says that the digits of a
number denote it. They are a numeral, also with zeros in front.
-/
import Mathlib.Data.Nat.Digits.Defs
import Bindcheck.Proofs.Grammar.Lexeme

namespace Bindcheck

/-- The number that some digits denote in the decimal system. -/
def decimalValue (digits : Text) : Nat :=
  Nat.ofDigits 10 (digits.reverse.map fun c => c.toNat - '0'.toNat)

variable {digits : Text} {n k : Nat}

/-- Digits in front count as many times ten as there are digits behind them. -/
theorem decimalValue_append (a b : Text) :
    decimalValue (a ++ b) = decimalValue a * 10 ^ b.length + decimalValue b := by
  simp only [decimalValue, List.reverse_append, List.map_append, Nat.ofDigits_append,
    List.length_map, List.length_reverse]
  rw [Nat.add_comm, Nat.mul_comm]

theorem decimalValue_singleton (c : Char) : decimalValue [c] = c.toNat - '0'.toNat := by
  simp [decimalValue]

/-- Evaluated from the front, some digits denote the same number, behind what came before. -/
theorem ofDigitChars_eq (digits : Text) (sofar : Nat) :
    Nat.ofDigitChars 10 digits sofar = sofar * 10 ^ digits.length + decimalValue digits := by
  induction digits generalizing sofar with
  | nil => simp [decimalValue]
  | cons c digits ih =>
    have hcons : decimalValue (c :: digits)
        = (c.toNat - '0'.toNat) * 10 ^ digits.length + decimalValue digits := by
      rw [← decimalValue_singleton]
      exact decimalValue_append [c] digits
    rw [Nat.ofDigitChars_cons, ih, hcons, List.length_cons, pow_succ]
    ring

/-- A numeral is evaluated to what its digits denote. -/
theorem Numeral.value_eq (digits : Text) : Numeral.value digits = decimalValue digits := by
  rw [Numeral.value, ofDigitChars_eq, Nat.zero_mul, Nat.zero_add]

/-- The digits of a number denote it. -/
theorem decimalValue_toDigits (n : Nat) : decimalValue (Nat.toDigits 10 n) = n := by
  rw [← Numeral.value_eq]
  exact Nat.ofDigitChars_ten_toDigits

theorem decimalValue_replicate_zero (k : Nat) : decimalValue (List.replicate k '0') = 0 := by
  rw [← Numeral.value_eq, Numeral.value, Nat.ofDigitChars_replicate_zero, Nat.mul_zero]

/-- Zeros in front do not count. -/
theorem decimalValue_zeros_append (k : Nat) (digits : Text) :
    decimalValue (List.replicate k '0' ++ digits) = decimalValue digits := by
  rw [decimalValue_append, decimalValue_replicate_zero, Nat.zero_mul, Nat.zero_add]

namespace Grammar

/-- A numeral is digits only, and at least one. -/
theorem isNumeral_iff : IsNumeral digits ↔ digits ≠ [] ∧ ∀ c ∈ digits, c.isDigit = true := by
  constructor
  · rintro ⟨c, part, rfl, hc, hpart⟩
    exact ⟨List.cons_ne_nil c part, List.forall_mem_cons.mpr ⟨hc, hpart⟩⟩
  · rintro ⟨hne, hdigits⟩
    obtain ⟨c, part, rfl⟩ := List.exists_cons_of_ne_nil hne
    obtain ⟨hc, hpart⟩ := List.forall_mem_cons.mp hdigits
    exact ⟨c, part, rfl, hc, hpart⟩

/-- The decimal text of a number is a numeral, with any number of zeros in front. -/
theorem isNumeral_toDigits (zeros n : Nat) :
    IsNumeral (List.replicate zeros '0' ++ Nat.toDigits 10 n) := by
  refine isNumeral_iff.mpr ⟨List.append_ne_nil_of_right_ne_nil _ Nat.toDigits_ne_nil, ?_⟩
  intro c hc
  rcases List.mem_append.mp hc with hzero | hdigit
  · obtain rfl := List.eq_of_mem_replicate hzero
    decide
  · exact Nat.isDigit_of_mem_toDigits (by decide) (by decide) hdigit

end Grammar

end Bindcheck
