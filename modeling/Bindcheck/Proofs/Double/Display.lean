/-
Bindcheck.Proofs.Double.Display — doubles are shown faithfully.

A finite double is shown in decimal notation, and from what is shown it
can be told which double it is. There are two ways of writing, and
`text_injective` has to compare all four pairs: the number that a whole
double denotes is its own, what another double denotes rounds to it, and
no integer does that. So a whole double is never shown as one that is not,
and within each way the number and the sign decide.
-/
import Bindcheck.Proofs.Decimal.Notation
import Bindcheck.Proofs.Double.Shortest
import Bindcheck.Value

namespace Bindcheck

open Grammar

namespace Double

variable {x y : Double}

theorem text_of_finite (hx : x.isSpecial = false) : x.text = x.decimal.text := by
  simp [text, isNaN, hx]

/-- A finite double is shown in decimal notation: a whole one as it is and with one place, any other
with the fewest places that make a decimal round to it. -/
theorem decimalText_of_finite (hx : x.isSpecial = false) :
    ∃ places q, DecimalText x.text.toList x.isNegative places q ∧
      (x.isWhole = true → places = 1 ∧ q = x.value) ∧
      (x.isWhole = false → Rounds q x ∧
        ∀ fewer < places, ∀ n : ℤ, ¬ Rounds (n / 10 ^ fewer) x) := by
  rw [text_of_finite hx]
  cases hwhole : x.isWhole with
  | true =>
    obtain ⟨hsign, hplaces, hvalue⟩ := decimal_of_isWhole hwhole
    have htext := decimalText_text hplaces.ge
    rw [hsign, hvalue] at htext
    exact ⟨_, _, htext, fun _ => ⟨hplaces, rfl⟩, nofun⟩
  | false =>
    obtain ⟨hsign, hcoarsest⟩ := coarsest_decimal hwhole
    have htext := decimalText_text hcoarsest.first_le
    rw [hsign] at htext
    exact ⟨_, _, htext, nofun, fun _ =>
      ⟨(rounds_iff_holds hwhole).mpr hcoarsest.holds,
        fun fewer hfewer => not_rounds_of_lt_places hwhole hfewer⟩⟩

/-- What is shown of a double that is not whole is no integer. -/
theorem ne_value_of_rounds {q : ℚ} (hx : x.isWhole = true) (hy : y.isWhole = false)
    (h : Rounds q y) : q ≠ x.value := by
  obtain ⟨n, hn⟩ := isWhole_iff.mp hx
  rw [hn]
  rintro rfl
  exact not_rounds_intCast hy n h

/-- Finite doubles that are shown alike are the same. -/
theorem text_injective (hx : x.isSpecial = false) (hy : y.isSpecial = false)
    (h : x.text = y.text) : x = y := by
  obtain ⟨_, q, htext, hwhole, hother⟩ := decimalText_of_finite hx
  obtain ⟨_, q', htext', hwhole', hother'⟩ := decimalText_of_finite hy
  rw [h] at htext
  obtain ⟨hsign, -, rfl⟩ := htext.unique htext'
  cases hxw : x.isWhole <;> cases hyw : y.isWhole
  case false.false => exact (hother hxw).1.unique (hother' hyw).1
  case false.true => exact absurd (hwhole' hyw).2 (ne_value_of_rounds hyw hxw (hother hxw).1)
  case true.false => exact absurd (hwhole hxw).2 (ne_value_of_rounds hxw hyw (hother' hyw).1)
  case true.true => exact ext_value hsign ((hwhole hxw).2.symm.trans (hwhole' hyw).2)

end Double

/-- A finite double is shown in decimal notation, with a minus sign exactly if its sign bit is set.
If it is an integer, the number that is shown is the double itself, and otherwise it rounds to the
double, as no decimal with fewer places does. No other finite double is shown alike, and no
integer. -/
theorem double_text_identifies (x : Double) (hx : x.isSpecial = false) :
    (∃ places q, DecimalText (Value.constant (.double x)).text.toList x.isNegative places q ∧
      ((∃ n : ℤ, x.value = n) → places = 1 ∧ q = x.value) ∧
      ((¬ ∃ n : ℤ, x.value = n) → x.Rounds q ∧
        ∀ fewer < places, ∀ n : ℤ, ¬ Double.Rounds (n / 10 ^ fewer) x)) ∧
    (∀ y : Double, y.isSpecial = false → y.bits ≠ x.bits →
      (Value.constant (.double y)).text ≠ (Value.constant (.double x)).text) ∧
    ∀ v : Int64, (Value.constant (.int v)).text ≠ (Value.constant (.double x)).text := by
  obtain ⟨places, q, htext, hwhole, hother⟩ := Double.decimalText_of_finite hx
  refine ⟨⟨places, q, htext, ?_, ?_⟩, ?doubles, ?integers⟩
  · exact fun h => hwhole (Double.isWhole_iff.mpr h)
  · exact fun h => hother (Bool.eq_false_iff.mpr fun hw => h (Double.isWhole_iff.mp hw))
  case doubles =>
    intro y hy hbits h
    exact hbits (congrArg Double.bits (Double.text_injective hy hx h))
  case integers =>
    intro v h
    have hpoint := htext.point_mem
    have hinteger : x.text = toString v.toInt := h.symm
    rw [hinteger] at hpoint
    exact point_notMem_toString v.toInt hpoint

/-- The double that is written `0.1` is the one to which a tenth rounds, and no integer rounds to
it. The two zeros are shown with and without a sign, and neither is shown as an integer. -/
theorem double_text_identifies_tenth :
    let tenth : Double := ⟨0x3FB999999999999A⟩
    let zero : Double := ⟨0⟩
    let negativeZero : Double := ⟨0x8000000000000000⟩
    tenth.isSpecial = false ∧ zero.isSpecial = false ∧ negativeZero.isSpecial = false ∧
    (Value.constant (.double tenth)).text = "0.1" ∧ tenth.Rounds (1 / 10) ∧
      (∀ n : ℤ, ¬ tenth.Rounds n) ∧
    (Value.constant (.double negativeZero)).text ≠ (Value.constant (.double zero)).text ∧
    (Value.constant (.int 0)).text ≠ (Value.constant (.double zero)).text := by
  intro tenth zero negativeZero
  have htext : (Value.constant (.double tenth)).text = "0.1" := by decide +kernel
  have hfraction : ¬ ∃ n : ℤ, tenth.value = n := by
    rw [← Double.isWhole_iff]
    decide +kernel
  obtain ⟨⟨places, q, hdenotes, -, hrounds⟩, -⟩ :=
    double_text_identifies tenth (by decide +kernel)
  have hpoint : DecimalText "0.1".toList false 1 (1 / 10) := by
    have hwhole : IsNumeral ['0'] := isNumeral_toDigits 0 0
    have hplace : IsNumeral ['1'] := isNumeral_toDigits 0 1
    have hvalue : decimalValue (['0'] ++ ['1']) = 1 := by decide
    have htenth := DecimalText.intro false hwhole hplace
    rw [hvalue, List.length_singleton, Nat.cast_one, pow_one] at htenth
    exact htenth
  rw [htext] at hdenotes
  obtain ⟨-, rfl, rfl⟩ := hdenotes.unique hpoint
  obtain ⟨hnearest, hfewest⟩ := hrounds hfraction
  have hzero := double_text_identifies zero (by decide)
  refine ⟨by decide +kernel, by decide, by decide, htext, hnearest, fun n => ?_,
    hzero.2.1 negativeZero (by decide) (by decide), hzero.2.2 0⟩
  have hinteger := hfewest 0 Nat.one_pos n
  rwa [pow_zero, div_one] at hinteger

end Bindcheck
