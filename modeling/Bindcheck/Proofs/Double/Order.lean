/-
Bindcheck.Proofs.Double.Order — the numbers that doubles stand for, and
their order.

Without its sign a double is a number of 63 bits, its rank, and the rank
orders the magnitudes: the step to the next one is one unit of the last
place (`magnitudeAt_succ`), also where the exponent changes. With its sign
the rank becomes an index. `valueAt` gives the number at every index and is
strictly monotone, so the neighbours of a double are the doubles at the
indices next to its own, and nothing is between them.
-/
import Mathlib.Algebra.Order.Field.Basic
import Mathlib.Algebra.Order.Ring.Cast
import Mathlib.Data.Int.ConditionallyCompleteOrder
import Mathlib.Data.Rat.Cast.Order
import Mathlib.Order.Monotone.Basic
import Mathlib.Tactic.Linarith
import Mathlib.Tactic.Positivity
import Mathlib.Tactic.Ring
import Bindcheck.Double

namespace Bindcheck

/-- A magnitude with its sign. -/
def signed (negative : Bool) (magnitude : ℚ) : ℚ := if negative then -magnitude else magnitude

theorem abs_signed (negative : Bool) (q : ℚ) : |signed negative q| = |q| := by
  cases negative with
  | true => exact abs_neg q
  | false => rfl

namespace Double

variable {x y : Double}

-- irreducible, since comparing two terms would otherwise unfold the power step by step
/-- The units of a magnitude that make one. -/
@[irreducible] def unitsPerOne : Nat := Nat.pow 2 1075

/-- The number that a finite double stands for. -/
def value (x : Double) : ℚ := signed x.isNegative (x.magnitude / unitsPerOne)

/-! ## Units -/

theorem unitsPerOne_eq {n : Nat} (h : n = 1075) : unitsPerOne = 2 ^ n := by
  unfold unitsPerOne
  rw [← h, Nat.pow_eq]

theorem unitsPerOne_pos : (0 : ℚ) < unitsPerOne := by
  obtain ⟨n, hn⟩ : ∃ n, n = 1075 := ⟨_, rfl⟩
  rw [unitsPerOne_eq hn]
  exact Nat.cast_pos.mpr (Nat.two_pow_pos n)

theorem natCast_mul_unitsPerOne_div (n : Nat) :
    ((n * unitsPerOne : Nat) : ℚ) / unitsPerOne = n := by
  rw [Nat.cast_mul, mul_div_cancel_right₀ _ unitsPerOne_pos.ne']

theorem isWhole_eq (x : Double) : x.isWhole = decide (x.magnitude % unitsPerOne = 0) := by
  unfold isWhole unitsPerOne
  rfl

/-! ## Ranks -/

/-- The bits of a double without its sign. -/
def rank (x : Double) : Nat := x.bits.toNat % 2 ^ 63

/-- The magnitude at a rank, in units of `1 / 2 ^ 1075`. -/
def magnitudeAt (rank : Nat) : Nat :=
  (if rank / 2 ^ 52 = 0 then rank % 2 ^ 52 else 2 ^ 52 + rank % 2 ^ 52)
    * 2 ^ max (rank / 2 ^ 52) 1

/-- The first rank that is not finite. -/
def infinity : Nat := 2047 * 2 ^ 52

theorem rank_lt (x : Double) : x.rank < 2 ^ 63 := Nat.mod_lt _ (by decide)

theorem exponentField_eq (x : Double) : x.exponentField = x.rank / 2 ^ 52 := by
  simp only [exponentField, rank, Nat.pow_eq]
  omega

theorem fractionField_eq (x : Double) : x.fractionField = x.rank % 2 ^ 52 := by
  simp only [fractionField, rank, Nat.pow_eq]
  omega

theorem magnitude_eq (x : Double) : x.magnitude = magnitudeAt x.rank := by
  simp only [magnitude, significand, scale, magnitudeAt, exponentField_eq, fractionField_eq,
    Nat.pow_eq]

/-- The finite doubles are those below infinity. -/
theorem isSpecial_eq_false_iff : x.isSpecial = false ↔ x.rank < infinity := by
  have hlt := x.rank_lt
  simp only [isSpecial, decide_eq_false_iff_not, exponentField_eq, infinity, Nat.pow_eq]
  omega

/-- Ranks and significands are even together, so of two neighbours one is even. -/
theorem significand_mod_two (x : Double) : x.significand % 2 = x.rank % 2 := by
  simp only [significand, exponentField_eq, fractionField_eq, Nat.pow_eq]
  split <;> omega

/-- The rank and the sign are all of a double. -/
theorem ext_rank (hsign : x.isNegative = y.isNegative) (hrank : x.rank = y.rank) : x = y := by
  have hx := x.bits.toNat_lt
  have hy := y.bits.toNat_lt
  have hbits : x.bits.toNat = y.bits.toNat := by
    simp only [isNegative, rank, Nat.pow_eq, decide_eq_decide] at hsign hrank
    omega
  obtain ⟨bits⟩ := x
  exact congrArg mk (UInt64.toNat_inj.mp hbits)

/-- From one rank to the next it is one unit of the last place. -/
theorem magnitudeAt_succ (r : Nat) :
    magnitudeAt (r + 1) = magnitudeAt r + 2 ^ max (r / 2 ^ 52) 1 := by
  by_cases hlast : r % 2 ^ 52 = 2 ^ 52 - 1
  case neg =>
    have hexp : (r + 1) / 2 ^ 52 = r / 2 ^ 52 := by omega
    have hfrac : (r + 1) % 2 ^ 52 = r % 2 ^ 52 + 1 := by omega
    simp only [magnitudeAt, hexp, hfrac]
    split <;> ring
  case pos =>
    -- the significand starts again, and the exponent is the next one
    have hexp : (r + 1) / 2 ^ 52 = r / 2 ^ 52 + 1 := by omega
    have hfrac : (r + 1) % 2 ^ 52 = 0 := by omega
    have hpos : r / 2 ^ 52 + 1 ≠ 0 := Nat.succ_ne_zero _
    simp only [magnitudeAt, hexp, hfrac, hlast, if_neg hpos]
    split
    case isTrue hzero =>
      rw [hzero]
      norm_num
    case isFalse hne =>
      rw [max_eq_left (by omega), max_eq_left (by omega), pow_succ]
      norm_num
      ring

theorem magnitudeAt_zero : magnitudeAt 0 = 0 := rfl

theorem magnitudeAt_strictMono : StrictMono magnitudeAt := by
  refine strictMono_nat_of_lt_succ fun r => ?_
  rw [magnitudeAt_succ]
  exact Nat.lt_add_of_pos_right (Nat.two_pow_pos _)

/-! ## Indices -/

/-- The place of a double in the order, both zeros being at the same. -/
def index (x : Double) : ℤ := if x.isNegative then -x.rank else x.rank

/-- The number at an index. -/
def valueAt (index : ℤ) : ℚ := index.sign * (magnitudeAt index.natAbs / unitsPerOne)

/-- The index belongs to a finite double. -/
def IsFinite (index : ℤ) : Prop := index.natAbs < infinity

theorem valueAt_natCast (r : Nat) : valueAt r = magnitudeAt r / unitsPerOne := by
  rcases Nat.eq_zero_or_pos r with rfl | hpos
  · simp [valueAt, magnitudeAt_zero]
  · simp [valueAt, Int.sign_natCast_of_ne_zero hpos.ne']

theorem valueAt_zero : valueAt 0 = 0 := by
  simp [valueAt]

theorem valueAt_neg (i : ℤ) : valueAt (-i) = -valueAt i := by
  simp [valueAt]

theorem value_eq (x : Double) : x.value = valueAt x.index := by
  unfold value signed index
  rw [magnitude_eq, ← valueAt_natCast]
  split
  · rw [valueAt_neg]
  · rfl

theorem abs_value (x : Double) : |x.value| = x.magnitude / unitsPerOne := by
  rw [value, abs_signed, abs_of_nonneg (div_nonneg (Nat.cast_nonneg _) unitsPerOne_pos.le)]

theorem natAbs_index (x : Double) : x.index.natAbs = x.rank := by
  unfold index
  split <;> simp

theorem isFinite_index : IsFinite x.index ↔ x.isSpecial = false := by
  rw [IsFinite, natAbs_index, isSpecial_eq_false_iff]

/-- A later index has a larger number. -/
theorem valueAt_strictMono : StrictMono valueAt := by
  have hstep : ∀ r : Nat, valueAt r < valueAt (r + 1 : Nat) := by
    intro r
    rw [valueAt_natCast, valueAt_natCast]
    refine div_lt_div_of_pos_right ?_ unitsPerOne_pos
    exact_mod_cast magnitudeAt_strictMono (Nat.lt_succ_self r)
  refine strictMono_int_of_lt_succ fun i => ?_
  cases i with
  | ofNat r => exact hstep r
  | negSucc r =>
    have hnext : Int.negSucc r + 1 = -(r : ℤ) := by omega
    rw [hnext, Int.negSucc_eq, valueAt_neg, valueAt_neg, neg_lt_neg_iff]
    exact hstep r

/-- At every index below infinity there is a double. -/
theorem exists_index_eq {i : ℤ} (h : IsFinite i) :
    ∃ x : Double, x.isSpecial = false ∧ x.index = i := by
  let bits : Nat := if i < 0 then 2 ^ 63 + i.natAbs else i.natAbs
  have hlt : i.natAbs < 2 ^ 63 := Nat.lt_trans h (by decide)
  have hbits : (UInt64.ofNat bits).toNat = bits :=
    UInt64.toNat_ofNat_of_lt' (by dsimp only [bits, UInt64.size]; split <;> omega)
  have hindex : (mk (UInt64.ofNat bits)).index = i := by
    simp only [index, isNegative, rank, hbits, Nat.pow_eq, decide_eq_true_eq]
    dsimp only [bits]
    split <;> split <;> omega
  exact ⟨mk (UInt64.ofNat bits), isFinite_index.mp (hindex ▸ h), hindex⟩

/-- Sign and number are all of a finite double: they tell the two zeros apart, and all others. -/
theorem ext_value (hsign : x.isNegative = y.isNegative) (h : x.value = y.value) : x = y := by
  rw [value_eq, value_eq] at h
  have hindex := valueAt_strictMono.injective h
  refine ext_rank hsign ?_
  rw [← natAbs_index, ← natAbs_index, hindex]

end Double

end Bindcheck
