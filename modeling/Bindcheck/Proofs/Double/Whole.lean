/-
Bindcheck.Proofs.Double.Whole — the doubles that are integers.

From `2 ^ 52` on every double is whole, so a double that is not whole is
below, and up to there every integer is a double
(`exists_value_eq_intCast`): moved to the left until its first bit is the
hidden one, it is a significand.
-/
import Mathlib.Tactic.NormNum
import Bindcheck.Proofs.Double.Order

namespace Bindcheck

namespace Double

variable {x : Double}

/-- The rank of `2 ^ 52`, from which on every double is whole. -/
def wholeFrom : Nat := 1075 * 2 ^ 52

theorem valueAt_wholeFrom : valueAt wholeFrom = 2 ^ 52 := by
  have hmagnitude : magnitudeAt wholeFrom = 2 ^ 52 * unitsPerOne := by
    have hexponent : wholeFrom / 2 ^ 52 = 1075 := by decide
    have hfraction : wholeFrom % 2 ^ 52 = 0 := by decide
    rw [magnitudeAt, hfraction, Nat.add_zero, unitsPerOne_eq (n := max (wholeFrom / 2 ^ 52) 1),
      hexponent, if_neg (by decide)]
    rw [hexponent, max_eq_left (by decide)]
  rw [valueAt_natCast, hmagnitude, natCast_mul_unitsPerOne_div, Nat.cast_pow, Nat.cast_ofNat]

/-- A double that is not whole is no zero, and below `2 ^ 52`. -/
theorem rank_of_not_isWhole (h : x.isWhole = false) : 0 < x.rank ∧ x.rank < wholeFrom := by
  rw [isWhole_eq, decide_eq_false_iff_not, magnitude_eq] at h
  constructor
  · by_contra hzero
    rw [Nat.eq_zero_of_not_pos hzero, magnitudeAt_zero] at h
    exact h (Nat.zero_mod _)
  · by_contra hlarge
    obtain ⟨n, hn⟩ : ∃ n, n = 1075 := ⟨_, rfl⟩
    have hexponent : n ≤ max (x.rank / 2 ^ 52) 1 := by
      simp only [wholeFrom] at hlarge
      omega
    rw [unitsPerOne_eq hn, magnitudeAt] at h
    exact h (Nat.mod_eq_zero_of_dvd (Dvd.dvd.mul_left (pow_dvd_pow 2 hexponent) _))

theorem index_of_not_isWhole (hx : x.isWhole = false) :
    x.index ≠ 0 ∧ -wholeFrom < x.index ∧ x.index < wholeFrom := by
  have hrank := rank_of_not_isWhole hx
  rw [← natAbs_index] at hrank
  omega

theorem finite_of_not_isWhole (hx : x.isWhole = false) : x.isSpecial = false := by
  rw [isSpecial_eq_false_iff]
  exact Nat.lt_trans (rank_of_not_isWhole hx).2 (by decide)

/-- A double is whole if it stands for an integer. -/
theorem isWhole_iff : x.isWhole = true ↔ ∃ n : ℤ, x.value = n := by
  rw [isWhole_eq, decide_eq_true_eq]
  constructor
  · intro h
    obtain ⟨k, hk⟩ := Nat.dvd_of_mod_eq_zero h
    rw [Nat.mul_comm] at hk
    refine ⟨if x.isNegative then -k else k, ?_⟩
    rw [value, hk, natCast_mul_unitsPerOne_div, signed]
    split <;> simp
  · rintro ⟨n, hn⟩
    have hmagnitude : x.magnitude = n.natAbs * unitsPerOne := by
      have habs := abs_value x
      rw [hn, eq_div_iff unitsPerOne_pos.ne', ← Int.cast_abs, ← Int.natCast_natAbs,
        Int.cast_natCast] at habs
      exact_mod_cast habs.symm
    rw [hmagnitude]
    exact Nat.mul_mod_left _ _

/-- The integers up to `2 ^ 52` are doubles. -/
theorem exists_valueAt_eq_natCast {m : Nat} (h : m ≤ 2 ^ 52) :
    ∃ r : Nat, IsFinite r ∧ valueAt r = m := by
  rcases Nat.eq_zero_or_pos m with rfl | hpos
  · exact ⟨0, by simp [IsFinite, infinity], by simp [valueAt]⟩
  have hlog : m.log2 ≤ 52 := Nat.lt_succ_iff.mp ((Nat.log2_lt hpos.ne').mpr (by omega))
  -- the significand is the number, moved to the left until its first one is hidden
  obtain ⟨moved, hmoved⟩ : ∃ k, k = m * 2 ^ (52 - m.log2) := ⟨_, rfl⟩
  obtain ⟨r, hr⟩ : ∃ r, r = (1023 + m.log2) * 2 ^ 52 + (moved - 2 ^ 52) := ⟨_, rfl⟩
  have hlow : 2 ^ 52 ≤ moved := by
    calc 2 ^ 52 = 2 ^ m.log2 * 2 ^ (52 - m.log2) := by rw [← pow_add]; congr 1; omega
      _ ≤ m * 2 ^ (52 - m.log2) := Nat.mul_le_mul_right _ (Nat.log2_self_le hpos.ne')
      _ = moved := hmoved.symm
  have hhigh : moved < 2 ^ 53 := by
    calc moved = m * 2 ^ (52 - m.log2) := hmoved
      _ < 2 ^ (m.log2 + 1) * 2 ^ (52 - m.log2) :=
        Nat.mul_lt_mul_of_pos_right Nat.lt_log2_self (Nat.two_pow_pos _)
      _ = 2 ^ 53 := by rw [← pow_add]; congr 1; omega
  have hexponent : r / 2 ^ 52 = 1023 + m.log2 := by omega
  have hfraction : r % 2 ^ 52 = moved - 2 ^ 52 := by omega
  have hmagnitude : magnitudeAt r = m * unitsPerOne := by
    rw [magnitudeAt, hexponent, hfraction, if_neg (by omega), max_eq_left (by omega),
      Nat.add_sub_cancel' hlow, hmoved, Nat.mul_assoc, ← pow_add,
      ← unitsPerOne_eq (n := 52 - m.log2 + (1023 + m.log2)) (by omega)]
  refine ⟨r, ?_, ?_⟩
  · simp only [IsFinite, infinity, Int.natAbs_natCast]
    omega
  · rw [valueAt_natCast, hmagnitude, natCast_mul_unitsPerOne_div]

theorem exists_value_eq_intCast {n : ℤ} (h : |(n : ℚ)| ≤ 2 ^ 52) :
    ∃ y : Double, y.isSpecial = false ∧ y.value = n := by
  have hle : n.natAbs ≤ 2 ^ 52 := by
    rw [← Int.cast_abs, ← Int.natCast_natAbs] at h
    exact_mod_cast h
  obtain ⟨r, hfinite, hr⟩ := exists_valueAt_eq_natCast hle
  obtain ⟨i, hi, hvalue⟩ : ∃ i, IsFinite i ∧ valueAt i = n := by
    rcases Int.natAbs_eq n with hn | hn
    · exact ⟨r, hfinite, by rw [hr, hn]; simp⟩
    · refine ⟨-r, by simpa [IsFinite] using hfinite, ?_⟩
      rw [valueAt_neg, hr, hn]
      simp
  obtain ⟨y, hy, rfl⟩ := exists_index_eq hi
  exact ⟨y, hy, (value_eq y).trans hvalue⟩

end Double

end Bindcheck
