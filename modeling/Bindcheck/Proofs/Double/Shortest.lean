/-
Bindcheck.Proofs.Double.Shortest — the decimal of a double that is not
whole.

The window of such a double is its cell. Its two ends are the middles
between the double and its neighbours (`low_mul`, `high_mul`, and
`end_eq` as numbers), where the one below is nearer if the significand
is the smallest. So a decimal is in the window if it rounds to the double
(`rounds_iff_holds`), and the decimal that is written is one of those
with the fewest places (`coarsest_decimal`).
-/
import Mathlib.Tactic.FieldSimp
import Bindcheck.Proofs.Decimal.Fewest
import Bindcheck.Proofs.Double.Rounding

namespace Bindcheck

namespace Double

variable {x : Double} {places units : Nat}

/-! ## The neighbours of a double -/

theorem scale_eq (x : Double) : x.scale = max (x.rank / 2 ^ 52) 1 := by
  rw [scale, exponentField_eq]

theorem significand_mul (x : Double) : x.significand * 2 ^ x.scale = magnitudeAt x.rank := by
  rw [← magnitude_eq, magnitude, Nat.pow_eq]

/-- The next double is one unit of the last place away. -/
theorem magnitudeAt_next (x : Double) :
    magnitudeAt (x.rank + 1) = magnitudeAt x.rank + 2 ^ x.scale := by
  rw [magnitudeAt_succ, scale_eq]

/-- The double before is as far away, or half as far at the smallest significand of an exponent. -/
theorem magnitudeAt_previous (h : 0 < x.rank) :
    magnitudeAt x.rank = magnitudeAt (x.rank - 1) + 2 ^ (x.scale - x.isNarrowBelow.toNat) := by
  obtain ⟨r, hr⟩ : ∃ r, x.rank = r + 1 := Nat.exists_eq_add_of_lt h |>.imp fun _ h => by omega
  have hexponent : x.scale - x.isNarrowBelow.toNat = max (r / 2 ^ 52) 1 := by
    cases hnarrow : x.isNarrowBelow with
    | true =>
      simp only [isNarrowBelow, Bool.and_eq_true, decide_eq_true_eq, fractionField_eq,
        exponentField_eq] at hnarrow
      rw [scale_eq, Bool.toNat_true]
      omega
    | false =>
      simp only [isNarrowBelow, Bool.and_eq_false_iff, decide_eq_false_iff_not, fractionField_eq,
        exponentField_eq] at hnarrow
      rw [scale_eq, Bool.toNat_false]
      omega
  rw [hexponent, hr, Nat.add_sub_cancel, magnitudeAt_succ]

/-! ## The window of a double -/

theorem high_mul (x : Double) : x.window.high * 2 ^ x.scale
    = 2 * (magnitudeAt x.rank + magnitudeAt (x.rank + 1)) := by
  have hnext := magnitudeAt_next x
  have hself := significand_mul x
  simp only [window]
  rw [Nat.add_mul, Nat.mul_assoc, hself]
  omega

section NotWhole

variable (hx : x.isWhole = false)
include hx

theorem significand_pos : 0 < x.significand := by
  refine Nat.pos_of_ne_zero fun hzero => ?_
  have hmagnitude := significand_mul x
  rw [hzero, Nat.zero_mul] at hmagnitude
  have hlt := magnitudeAt_strictMono (rank_of_not_isWhole hx).1
  omega

theorem scale_lt : x.scale < 1075 := by
  have hrank := (rank_of_not_isWhole hx).2
  rw [scale_eq]
  simp only [wholeFrom] at hrank
  omega

theorem proper_window : x.window.Proper := by
  have hpos := significand_pos hx
  refine ⟨Nat.pow_pos (by decide), ?_, by simp [window]⟩
  simp only [window]
  split <;> omega

/-- Written with all its places a double is a decimal. -/
theorem unit_dvd_middle :
    x.window.unit ∣ x.window.middle * Nat.pow 10 (1075 - x.scale) := by
  have hscale := scale_lt hx
  obtain ⟨k, hk⟩ : ∃ k, k = 1075 - x.scale := ⟨_, rfl⟩
  have hunit : x.window.unit = 2 ^ k * 4 := by
    have hexponent : 1077 - x.scale = k + 2 := by omega
    rw [window, hexponent, Nat.pow_eq, Nat.pow_add]
  have hten : Nat.pow 10 k = 2 ^ k * 5 ^ k := by
    rw [Nat.pow_eq, ← Nat.mul_pow]
  rw [← hk, hunit, hten]
  exact ⟨x.significand * 5 ^ k, by simp only [window]; ring⟩

/-- The unit of the window is a fourth of that of the last place. -/
theorem unit_mul : x.window.unit * 2 ^ x.scale = 4 * unitsPerOne := by
  have hscale := scale_lt hx
  obtain ⟨k, hk⟩ : ∃ k, k = 1075 - x.scale := ⟨_, rfl⟩
  have hexponent : 1077 - x.scale = k + 2 := by omega
  rw [window, hexponent, Nat.pow_eq, unitsPerOne_eq (n := k + x.scale) (by omega)]
  ring

theorem low_mul : x.window.low * 2 ^ x.scale
    = 2 * (magnitudeAt (x.rank - 1) + magnitudeAt x.rank) := by
  have hprevious := magnitudeAt_previous (rank_of_not_isWhole hx).1
  have hself := significand_mul x
  have hpos := significand_pos hx
  simp only [window]
  cases hnarrow : x.isNarrowBelow with
  | true =>
    have hscale : x.scale = (x.scale - 1) + 1 := by
      have := le_max_right x.exponentField 1
      rw [scale]
      omega
    have hhalf : 2 ^ x.scale = 2 * 2 ^ (x.scale - 1) := by
      rw [← pow_succ', ← hscale]
    rw [hnarrow, Bool.toNat_true] at hprevious
    rw [if_pos rfl, Nat.sub_mul, Nat.mul_assoc, hself]
    omega
  | false =>
    rw [hnarrow, Bool.toNat_false, Nat.sub_zero] at hprevious
    rw [if_neg Bool.false_ne_true, Nat.sub_mul, Nat.mul_assoc, hself]
    omega

/-- An end of the window is the middle of two neighbours. -/
theorem end_eq {edge a b : Nat} (h : edge * 2 ^ x.scale = 2 * (magnitudeAt a + magnitudeAt b)) :
    (edge : ℚ) / x.window.unit = (valueAt a + valueAt b) / 2 := by
  have hunit : (x.window.unit : ℚ) * 2 ^ x.scale = 4 * unitsPerOne := by
    exact_mod_cast unit_mul hx
  have hedge : (edge : ℚ) * 2 ^ x.scale = 2 * (magnitudeAt a + magnitudeAt b) := by
    exact_mod_cast h
  have hpos := unitsPerOne_pos
  have hscale : (0 : ℚ) < 2 ^ x.scale := by positivity
  calc (edge : ℚ) / x.window.unit
      = edge * 2 ^ x.scale / (x.window.unit * 2 ^ x.scale) :=
        (mul_div_mul_right _ _ hscale.ne').symm
    _ = 2 * (magnitudeAt a + magnitudeAt b) / (4 * unitsPerOne) := by rw [hedge, hunit]
    _ = (valueAt a + valueAt b) / 2 := by
      rw [valueAt_natCast, valueAt_natCast]
      field_simp
      ring

/-- A window holds the decimals of a cell. -/
theorem holds_iff_cell :
    x.window.Holds places units ↔ Cell x.rank (units / 10 ^ places) := by
  have hrank := (rank_of_not_isWhole hx).1
  have hlow := end_eq hx (low_mul hx)
  have hhigh := end_eq hx (high_mul x)
  have hunit : (0 : ℚ) < x.window.unit := by exact_mod_cast (proper_window hx).unit_pos
  have hten : (0 : ℚ) < 10 ^ places := by positivity
  have hparity : x.window.closed = true ↔ (x.rank : ℤ) % 2 = 0 := by
    rw [window, decide_eq_true_eq, significand_mod_two]
    omega
  rw [Nat.cast_pred hrank] at hlow
  rw [Nat.cast_succ] at hhigh
  have hpow : Nat.pow 10 places = 10 ^ places := rfl
  simp only [Window.Holds, Cell, hparity, ← hlow, ← hhigh, hpow, div_le_div_iff₀ hunit hten,
    div_le_div_iff₀ hten hunit, div_lt_div_iff₀ hunit hten, div_lt_div_iff₀ hten hunit]
  norm_cast

/-- The decimals in the window, with the sign of the double, are those that round to it. -/
theorem rounds_iff_holds :
    Rounds (signed x.isNegative (units / 10 ^ places)) x ↔ x.window.Holds places units := by
  rw [rounds_iff_cell hx, holds_iff_cell hx, index, signed]
  split
  · exact cell_neg
  · rfl

/-! ## The decimal of a double -/

/-- The decimal that is written has the sign of the double and the fewest places. -/
theorem coarsest_decimal : x.decimal.negative = x.isNegative ∧
    x.window.Coarsest 1 (x.decimal.units, x.decimal.places) := by
  have hdecimal : x.decimal = ⟨x.isNegative, (x.window.fewest (1075 - x.scale)).1,
      (x.window.fewest (1075 - x.scale)).2⟩ := by
    rw [decimal, hx]
    rfl
  have hlimit : 1 ≤ 1075 - x.scale := Nat.sub_pos_of_lt (scale_lt hx)
  rw [hdecimal]
  exact ⟨rfl, (proper_window hx).coarsest_fewest hlimit (unit_dvd_middle hx)⟩

/-- No decimal with fewer places rounds to the double, and no integer does. -/
theorem not_rounds_of_lt_places {fewer : Nat} (h : fewer < x.decimal.places) (n : ℤ) :
    ¬ Rounds (n / 10 ^ fewer) x := by
  rcases Nat.eq_zero_or_pos fewer with rfl | hpos
  · rw [pow_zero, div_one]
    exact not_rounds_intCast hx n
  · intro hrounds
    have hten : (0 : ℚ) < 10 ^ fewer := by positivity
    have hsign : (n / 10 ^ fewer : ℚ) = signed x.isNegative (n.natAbs / 10 ^ fewer) := by
      rw [hrounds.sign, signed]
      split
      case isTrue hneg =>
        rw [decide_eq_true_eq, div_lt_iff₀ hten, zero_mul, Int.cast_lt_zero] at hneg
        rw [← neg_div, Nat.cast_natAbs, abs_of_neg hneg, Int.cast_neg, neg_neg]
      case isFalse hnonneg =>
        rw [decide_eq_true_eq, div_lt_iff₀ hten, zero_mul, Int.cast_lt_zero, not_lt] at hnonneg
        rw [Nat.cast_natAbs, abs_of_nonneg hnonneg]
    rw [hsign, rounds_iff_holds hx] at hrounds
    exact (coarsest_decimal hx).2.coarsest fewer hpos h n.natAbs hrounds

end NotWhole

/-- A whole double is written with one place, and as it is. -/
theorem decimal_of_isWhole (h : x.isWhole = true) : x.decimal.negative = x.isNegative ∧
    x.decimal.places = 1 ∧
    signed x.isNegative (x.decimal.units / 10 ^ x.decimal.places) = x.value := by
  have hdecimal : x.decimal = ⟨x.isNegative, x.magnitude / unitsPerOne * 10, 1⟩ := by
    rw [decimal, h]
    unfold unitsPerOne
    rfl
  have hmagnitude : x.magnitude = x.magnitude / unitsPerOne * unitsPerOne := by
    rw [isWhole_eq, decide_eq_true_eq] at h
    exact (Nat.div_mul_cancel (Nat.dvd_of_mod_eq_zero h)).symm
  have hvalue : (x.magnitude : ℚ) / unitsPerOne = (x.magnitude / unitsPerOne : Nat) := by
    conv_lhs => rw [hmagnitude]
    exact natCast_mul_unitsPerOne_div _
  rw [hdecimal, value, hvalue]
  refine ⟨rfl, rfl, ?_⟩
  rw [Nat.cast_mul, pow_one, Nat.cast_ofNat, mul_div_cancel_right₀ _ (by norm_num)]

end Double

end Bindcheck
