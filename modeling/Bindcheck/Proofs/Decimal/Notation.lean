/-
Bindcheck.Proofs.Decimal.Notation — decimal notation and the number that
it denotes.

`DecimalText` is the notation with a point and without an exponent: at
least one digit stands on either side of the point, and the digits behind
it count as parts of one. A text is in this notation in one way only
(`DecimalText.unique`), and `decimalText_text` says that a decimal is
written in it. An integer is written without a point.
-/
import Bindcheck.Decimal.Basic
import Bindcheck.Proofs.Decimal.Digits
import Bindcheck.Proofs.Double.Order

namespace Bindcheck

open Grammar

/-- A text in decimal notation, whether it has a sign, its places, and the number that it denotes:
perhaps a minus sign, one digit or more, a point, and one digit or more. -/
inductive DecimalText : Text → Bool → Nat → ℚ → Prop where
  | intro (negative : Bool) {whole fraction : Text} (hwhole : IsNumeral whole)
    (hfraction : IsNumeral fraction) :
    DecimalText ((if negative then ['-'] else []) ++ whole ++ '.' :: fraction) negative
      fraction.length (signed negative (decimalValue (whole ++ fraction) / 10 ^ fraction.length))

namespace DecimalText

variable {text : Text} {negative negative' : Bool} {places places' : Nat} {q q' : ℚ}

/-- The digits before a point end there. -/
theorem takeWhile_whole {whole : Text} (h : IsNumeral whole) (fraction : Text) :
    (whole ++ '.' :: fraction).takeWhile Char.isDigit = whole := by
  rw [List.takeWhile_append_of_pos (isNumeral_iff.mp h).2, List.takeWhile_cons_of_neg (by decide),
    List.append_nil]

/-- Digits do not begin with a minus sign. -/
theorem ne_minus_cons {whole : Text} (h : IsNumeral whole) (rest behind : Text) :
    whole ++ behind ≠ '-' :: rest := by
  obtain ⟨c, part, rfl, hc, -⟩ := h
  rintro heq
  obtain rfl : c = '-' := (List.cons.inj heq).1
  exact absurd hc (by decide)

/-- A text is in decimal notation in one way only. -/
theorem unique (h : DecimalText text negative places q)
    (h' : DecimalText text negative' places' q') :
    negative = negative' ∧ places = places' ∧ q = q' := by
  obtain @⟨negative, whole, fraction, hwhole, hfraction⟩ := h
  generalize htext : (if negative then ['-'] else []) ++ whole ++ '.' :: fraction = text at h'
  obtain @⟨negative', whole', fraction', hwhole', hfraction'⟩ := h'
  simp only [List.append_assoc] at htext
  have hsign : negative = negative' := by
    cases negative <;> cases negative'
    · rfl
    · exact absurd htext (ne_minus_cons hwhole _ _)
    · exact absurd htext.symm (ne_minus_cons hwhole' _ _)
    · rfl
  subst hsign
  have hdigits := List.append_cancel_left htext
  have hwholes : whole = whole' := by
    rw [← takeWhile_whole hwhole fraction, hdigits, takeWhile_whole hwhole']
  subst hwholes
  obtain rfl : fraction = fraction' := (List.cons.inj (List.append_cancel_left hdigits)).2
  exact ⟨rfl, rfl, rfl⟩

theorem point_mem (h : DecimalText text negative places q) : '.' ∈ text := by
  obtain ⟨_, _, _⟩ := h
  exact List.mem_append_right _ List.mem_cons_self

end DecimalText

/-- A decimal with a place is written in decimal notation, and as it is. -/
theorem decimalText_text {d : Decimal} (h : 1 ≤ d.places) :
    DecimalText d.text.toList d.negative d.places
      (signed d.negative (d.units / 10 ^ d.places)) := by
  obtain ⟨negative, units, places⟩ := d
  have hten : 0 < 10 ^ places := Nat.pow_pos (by decide)
  have hlength : (Decimal.fractionDigits ⟨negative, units, places⟩).length = places := by
    rw [Decimal.fractionDigits, List.length_leftpad, max_eq_left]
    exact (Nat.length_toDigits_le_iff (by decide) h).mpr (Nat.mod_lt _ hten)
  have hwhole : IsNumeral (Decimal.wholeDigits ⟨negative, units, places⟩) :=
    isNumeral_toDigits 0 _
  have hfraction : IsNumeral (Decimal.fractionDigits ⟨negative, units, places⟩) :=
    isNumeral_toDigits _ _
  have hvalue : decimalValue (Decimal.wholeDigits ⟨negative, units, places⟩
      ++ Decimal.fractionDigits ⟨negative, units, places⟩) = units := by
    rw [decimalValue_append, hlength, Decimal.wholeDigits, decimalValue_toDigits,
      Decimal.fractionDigits, List.leftpad, decimalValue_zeros_append, decimalValue_toDigits]
    exact Nat.div_add_mod' units (10 ^ places)
  have hdenotes := DecimalText.intro negative hwhole hfraction
  rw [hvalue, hlength] at hdenotes
  rw [Decimal.text, String.toList_ofList]
  exact hdenotes

/-- An integer is written without a point. -/
theorem point_notMem_toString (n : ℤ) : '.' ∉ (toString n).toList := by
  have hdigits : ∀ m : Nat, '.' ∉ (Nat.repr m).toList := by
    intro m hmem
    rw [Nat.toList_repr] at hmem
    exact absurd (Nat.isDigit_of_mem_toDigits (by decide) (by decide) hmem) (by decide)
  cases n with
  | ofNat m => exact hdigits m
  | negSucc m =>
    intro hmem
    have hminus : (toString (Int.negSucc m)).toList = '-' :: (Nat.repr (m + 1)).toList := by
      simp [toString, Int.repr]
    rw [hminus, List.mem_cons] at hmem
    exact hmem.elim (by decide) (hdigits (m + 1))

end Bindcheck
