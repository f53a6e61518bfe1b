/-
Bindcheck.Proofs.Double.Rounding — rounding to the nearest double.

`Rounds` says when a number is rounded to a double: no finite double is
nearer, of two that are equally near the one with an even significand is
taken, and the sign of zero is that of the number. There is only one such
double (`Rounds.unique`).

The numbers that round to a double reach on either side to the middle
between it and its neighbour: `Cell` says so of an index, and
`rounds_iff_cell` says that this is rounding, of a double that is not
whole. No integer rounds to such a double (`not_rounds_intCast`).
-/
import Mathlib.Algebra.Order.Ring.Abs
import Bindcheck.Proofs.Double.Whole

namespace Bindcheck

namespace Double

variable {x y : Double} {q : ℚ} {i j : ℤ}

/-- A number is rounded to a finite double: to the nearest, of two to the one with an even
significand, unless the number is so large that it is rounded to an infinity. -/
structure Rounds (q : ℚ) (x : Double) : Prop where
  finite : x.isSpecial = false
  bounded : |q| < 2 ^ 1024 - 2 ^ 970
  sign : x.isNegative = decide (q < 0)
  nearest : ∀ y : Double, y.isSpecial = false → |q - x.value| ≤ |q - y.value|
  even : ∀ y : Double, y.isSpecial = false → |q - y.value| = |q - x.value| →
    y.value ≠ x.value → x.significand % 2 = 0

theorem significand_even_iff : x.significand % 2 = 0 ↔ x.index % 2 = 0 := by
  rw [significand_mod_two, ← natAbs_index]
  omega

/-! ## Uniqueness -/

/-- Of two indices that are equally near, the one between is nearer. -/
theorem exists_nearer (hij : i < j) (hi : IsFinite i) (hj : IsFinite j)
    (heven : i % 2 = 0 ∧ j % 2 = 0) (htie : |q - valueAt i| = |q - valueAt j|) :
    ∃ y : Double, y.isSpecial = false ∧ |q - y.value| < |q - valueAt i| := by
  have hfinite : IsFinite (i + 1) := by
    simp only [IsFinite] at hi hj ⊢
    omega
  obtain ⟨y, hy, hindex⟩ := exists_index_eq hfinite
  have hlow : valueAt i < y.value := by
    rw [value_eq, hindex]
    exact valueAt_strictMono (by omega)
  have hhigh : y.value < valueAt j := by
    rw [value_eq, hindex]
    exact valueAt_strictMono (by omega)
  refine ⟨y, hy, ?_⟩
  have hleft : |q - valueAt i| = q - valueAt i := by
    rcases abs_cases (q - valueAt i) with h | h <;>
      rcases abs_cases (q - valueAt j) with h' | h' <;> linarith
  have hright : |q - valueAt j| = valueAt j - q := by
    rcases abs_cases (q - valueAt j) with h | h <;> linarith
  exact abs_lt.mpr ⟨by linarith, by linarith⟩

theorem Rounds.value_eq (hx : Rounds q x) (hy : Rounds q y) : x.value = y.value := by
  have htie : |q - x.value| = |q - y.value| :=
    le_antisymm (hx.nearest y hy.finite) (hy.nearest x hx.finite)
  by_contra hne
  have heven : x.index % 2 = 0 ∧ y.index % 2 = 0 :=
    ⟨significand_even_iff.mp (hx.even y hy.finite htie.symm (Ne.symm hne)),
      significand_even_iff.mp (hy.even x hx.finite htie hne)⟩
  have hfinite := And.intro (isFinite_index.mpr hx.finite) (isFinite_index.mpr hy.finite)
  rw [Double.value_eq, Double.value_eq] at htie hne
  rcases lt_trichotomy x.index y.index with hlt | heq | hgt
  · obtain ⟨z, hz, hnear⟩ := exists_nearer hlt hfinite.1 hfinite.2 heven htie
    rw [← Double.value_eq] at hnear
    exact absurd (hx.nearest z hz) (not_le.mpr hnear)
  · exact hne (congrArg valueAt heq)
  · obtain ⟨z, hz, hnear⟩ := exists_nearer hgt hfinite.2 hfinite.1 heven.symm htie.symm
    rw [← Double.value_eq] at hnear
    exact absurd (hy.nearest z hz) (not_le.mpr hnear)

/-- A number is rounded to one double only. -/
theorem Rounds.unique (hx : Rounds q x) (hy : Rounds q y) : x = y :=
  ext_value (hx.sign.trans hy.sign.symm) (hx.value_eq hy)

/-! ## Cells -/

/-- Not farther from the number at an index than from those at the next indices; as far only if the
index is even. -/
def Cell (i : ℤ) (q : ℚ) : Prop :=
  if i % 2 = 0 then
    (valueAt (i - 1) + valueAt i) / 2 ≤ q ∧ q ≤ (valueAt i + valueAt (i + 1)) / 2
  else
    (valueAt (i - 1) + valueAt i) / 2 < q ∧ q < (valueAt i + valueAt (i + 1)) / 2

theorem Cell.le (h : Cell i q) :
    (valueAt (i - 1) + valueAt i) / 2 ≤ q ∧ q ≤ (valueAt i + valueAt (i + 1)) / 2 := by
  unfold Cell at h
  split at h
  · exact h
  · exact ⟨h.1.le, h.2.le⟩

/-- The cells lie about zero as the numbers do. -/
theorem cell_neg : Cell (-i) (-q) ↔ Cell i q := by
  have hparity : -i % 2 = 0 ↔ i % 2 = 0 := by omega
  have hbelow : valueAt (-i - 1) = -valueAt (i + 1) := by
    rw [← valueAt_neg, neg_add, sub_eq_add_neg]
  have habove : valueAt (-i + 1) = -valueAt (i - 1) := by
    rw [← valueAt_neg, neg_sub, sub_eq_add_neg, add_comm]
  simp only [Cell, hparity, hbelow, habove, valueAt_neg]
  split
  · constructor <;> rintro ⟨h, h'⟩ <;> constructor <;> linarith
  · constructor <;> rintro ⟨h, h'⟩ <;> constructor <;> linarith

/-- A later index is not nearer to a number of the cell, and as near only if the cell is closed. -/
theorem Cell.nearest_of_lt (h : Cell i q) (hlt : i < j) :
    |q - valueAt i| ≤ |q - valueAt j| ∧ (|q - valueAt j| = |q - valueAt i| → i % 2 = 0) := by
  have hbefore : valueAt (i - 1) < valueAt i := valueAt_strictMono (by omega)
  have hnext : valueAt i < valueAt (i + 1) := valueAt_strictMono (by omega)
  have hfar : valueAt (i + 1) ≤ valueAt j := valueAt_strictMono.monotone (by omega)
  have hle := h.le
  have hright : |q - valueAt j| = valueAt j - q := by
    rw [abs_of_nonpos (by linarith), neg_sub]
  rw [hright]
  refine ⟨abs_le.mpr ⟨by linarith, by linarith⟩, fun htie => ?_⟩
  by_contra hodd
  rw [Cell, if_neg hodd] at h
  rcases abs_cases (q - valueAt i) with hcase | hcase <;> linarith

/-- No other index is nearer to a number of the cell, and as near only if the cell is closed. -/
theorem Cell.nearest (h : Cell i q) (hj : j ≠ i) :
    |q - valueAt i| ≤ |q - valueAt j| ∧ (|q - valueAt j| = |q - valueAt i| → i % 2 = 0) := by
  rcases lt_or_gt_of_ne hj with hlt | hgt
  · have hmirror : ∀ k, |-q - valueAt (-k)| = |q - valueAt k| := by
      intro k
      rw [valueAt_neg, ← abs_neg]
      congr 1
      ring
    have hnear := (cell_neg.mpr h).nearest_of_lt (neg_lt_neg hlt)
    rw [hmirror, hmirror] at hnear
    exact ⟨hnear.1, fun htie => by have := hnear.2 htie; omega⟩
  · exact h.nearest_of_lt hgt

/-- If neither neighbour is nearer, and as near only with an even index, a number is in the cell. -/
theorem cell_of_nearest
    (hnear : ∀ j, j = i - 1 ∨ j = i + 1 → |q - valueAt i| ≤ |q - valueAt j| ∧
      (|q - valueAt j| = |q - valueAt i| → i % 2 = 0)) : Cell i q := by
  have hbefore : valueAt (i - 1) < valueAt i := valueAt_strictMono (by omega)
  have hnext : valueAt i < valueAt (i + 1) := valueAt_strictMono (by omega)
  obtain ⟨hlow, hlow'⟩ := hnear _ (.inl rfl)
  obtain ⟨hhigh, hhigh'⟩ := hnear _ (.inr rfl)
  have hle : (valueAt (i - 1) + valueAt i) / 2 ≤ q := by
    rcases abs_cases (q - valueAt (i - 1)) with h | h <;>
      rcases abs_cases (q - valueAt i) with h' | h' <;> linarith
  have hge : q ≤ (valueAt i + valueAt (i + 1)) / 2 := by
    rcases abs_cases (q - valueAt (i + 1)) with h | h <;>
      rcases abs_cases (q - valueAt i) with h' | h' <;> linarith
  unfold Cell
  split
  case isTrue => exact ⟨hle, hge⟩
  case isFalse hodd =>
    -- at the middle a neighbour would be as near
    refine ⟨lt_of_le_of_ne hle fun h => hodd (hlow' ?_),
      lt_of_le_of_ne hge fun h => hodd (hhigh' ?_)⟩
    · rw [abs_of_nonneg (by linarith), abs_of_nonpos (by linarith)]
      linarith
    · rw [abs_of_nonpos (by linarith), abs_of_nonneg (by linarith)]
      linarith

/-! ## Doubles that are not whole -/

theorem lt_roundingBound : (2 ^ 52 : ℚ) < 2 ^ 1024 - 2 ^ 970 := by
  have hlast : ∀ p : ℚ, 1 ≤ p → 2 ^ 52 < 2 ^ 54 * p - p := fun p hp => by linarith
  calc (2 ^ 52 : ℚ) < 2 ^ 54 * 2 ^ 970 - 2 ^ 970 := hlast _ (one_le_pow₀ one_le_two)
    _ = 2 ^ 1024 - 2 ^ 970 := by rw [← pow_add]

section NotWhole

variable (hx : x.isWhole = false)
include hx

/-- What is in the cell is at most `2 ^ 52`. -/
theorem abs_le_of_cell (h : Cell x.index q) : |q| ≤ 2 ^ 52 := by
  obtain ⟨-, hlow, hhigh⟩ := index_of_not_isWhole hx
  have hle := h.le
  have habove : valueAt (x.index + 1) ≤ valueAt wholeFrom :=
    valueAt_strictMono.monotone (by omega)
  have hbelow : valueAt (-wholeFrom) ≤ valueAt (x.index - 1) :=
    valueAt_strictMono.monotone (by omega)
  have hbefore : valueAt (x.index - 1) < valueAt x.index := valueAt_strictMono (by omega)
  have hnext : valueAt x.index < valueAt (x.index + 1) := valueAt_strictMono (by omega)
  rw [valueAt_neg] at hbelow
  rw [valueAt_wholeFrom] at habove hbelow
  exact abs_le.mpr ⟨by linarith, by linarith⟩

/-- What is in the cell has the sign of the double. -/
theorem sign_of_cell (h : Cell x.index q) : x.isNegative = decide (q < 0) := by
  have hrank := (rank_of_not_isWhole hx).1
  have hle := h.le
  cases hsign : x.isNegative with
  | true =>
    have hneg : x.index < 0 := by simp [index, hsign, hrank]
    have hself : valueAt x.index < 0 := valueAt_zero ▸ valueAt_strictMono hneg
    have hnext : valueAt (x.index + 1) ≤ 0 := valueAt_zero ▸ valueAt_strictMono.monotone (by omega)
    exact (decide_eq_true (by linarith)).symm
  | false =>
    have hpos : 0 < x.index := by simp [index, hsign, hrank]
    have hself : 0 < valueAt x.index := valueAt_zero ▸ valueAt_strictMono hpos
    have hbefore : 0 ≤ valueAt (x.index - 1) := valueAt_zero ▸ valueAt_strictMono.monotone (by omega)
    exact (decide_eq_false (by linarith)).symm

theorem cell_of_rounds (h : Rounds q x) : Cell x.index q := by
  obtain ⟨-, hlow, hhigh⟩ := index_of_not_isWhole hx
  refine cell_of_nearest fun j hj => ?_
  have hfinite : IsFinite j := by
    simp only [IsFinite, infinity, wholeFrom] at hlow hhigh ⊢
    omega
  obtain ⟨y, hy, rfl⟩ := exists_index_eq hfinite
  have hne : y.value ≠ x.value := by
    rw [value_eq, value_eq]
    exact valueAt_strictMono.injective.ne (by omega)
  rw [← value_eq, ← value_eq, ← significand_even_iff]
  exact ⟨h.nearest y hy, fun htie => h.even y hy htie hne⟩

theorem rounds_of_cell (h : Cell x.index q) : Rounds q x := by
  have hother : ∀ y : Double, y.value ≠ x.value → |q - x.value| ≤ |q - y.value| ∧
      (|q - y.value| = |q - x.value| → x.significand % 2 = 0) := by
    intro y hne
    rw [significand_even_iff, value_eq x, value_eq y]
    exact h.nearest fun heq => hne (by rw [value_eq, value_eq, heq])
  refine ⟨finite_of_not_isWhole hx, ?bounded, sign_of_cell hx h, ?nearest, ?even⟩
  case bounded =>
    calc |q| ≤ 2 ^ 52 := abs_le_of_cell hx h
      _ < 2 ^ 1024 - 2 ^ 970 := lt_roundingBound
  case nearest =>
    intro y _
    by_cases hvalue : y.value = x.value
    · rw [hvalue]
    · exact (hother y hvalue).1
  case even => exact fun y _ htie hne => (hother y hne).2 htie

/-- The cell is what rounds to the double. -/
theorem rounds_iff_cell : Rounds q x ↔ Cell x.index q :=
  ⟨cell_of_rounds hx, rounds_of_cell hx⟩

/-- No integer rounds to a double that is not whole: it would be a double itself. -/
theorem not_rounds_intCast (n : ℤ) : ¬ Rounds n x := by
  intro h
  obtain ⟨y, hy, hvalue⟩ := exists_value_eq_intCast (abs_le_of_cell hx (cell_of_rounds hx h))
  have hnear := h.nearest y hy
  rw [hvalue, sub_self, abs_zero, abs_nonpos_iff, sub_eq_zero] at hnear
  rw [isWhole_iff.mpr ⟨n, hnear.symm⟩] at hx
  cases hx

end NotWhole

end Double

end Bindcheck
