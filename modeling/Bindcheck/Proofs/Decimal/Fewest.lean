/-
Bindcheck.Proofs.Decimal.Fewest — the fewest decimal places, found by
looking at two points of each grid.

A window is proper if its number is inside. Any other grid point that it
holds has one of the two next to the number between itself and the number,
so the window holds that one too (`Proper.holds_neighbour`). Hence a grid
that yields nothing has no point in the window, and the first grid that
yields one is the coarsest (`coarsest_fewestFrom`), as long as the last
grid has one, which it has when the number is a point of it.
-/
import Bindcheck.Decimal.Window

namespace Bindcheck

namespace Window

variable {w : Window} {p u : Nat}

/-- The number is inside the window. -/
structure Proper (w : Window) : Prop where
  unit_pos : 0 < w.unit
  low_lt : w.low < w.middle
  lt_high : w.middle < w.high

/-- No coarser grid of at least `first` places has a point in the window. -/
structure Coarsest (w : Window) (first : Nat) (result : Nat × Nat) : Prop where
  first_le : first ≤ result.2
  holds : w.Holds result.2 result.1
  coarsest : ∀ places, first ≤ places → places < result.2 → ∀ units, ¬ w.Holds places units

theorem ten_pow_pos (p : Nat) : 0 < Nat.pow 10 p := Nat.pow_pos (by decide)

theorem below_mul_le (w : Window) (p : Nat) : w.below p * w.unit ≤ w.middle * Nat.pow 10 p :=
  Nat.div_mul_le_self _ _

theorem Proper.lt_above_mul (hw : w.Proper) (p : Nat) :
    w.middle * Nat.pow 10 p < (w.below p + 1) * w.unit :=
  (Nat.div_lt_iff_lt_mul hw.unit_pos).mp (Nat.lt_succ_self _)

/-- A number that is a point of the grid is in its window. -/
theorem Proper.holds_below (hw : w.Proper) (h : w.unit ∣ w.middle * Nat.pow 10 p) :
    w.Holds p (w.below p) := by
  have hlow := Nat.mul_lt_mul_of_pos_right hw.low_lt (ten_pow_pos p)
  have hhigh := Nat.mul_lt_mul_of_pos_right hw.lt_high (ten_pow_pos p)
  rw [Holds, below, Nat.div_mul_cancel h]
  split
  · exact ⟨Nat.le_of_lt hlow, Nat.le_of_lt hhigh⟩
  · exact ⟨hlow, hhigh⟩

/-- A grid point between the number and one that the window holds is held, too. -/
theorem Proper.holds_of_between {v : Nat} (hw : w.Proper) (h : w.Holds p u)
    (hv : (u * w.unit ≤ v * w.unit ∧ v * w.unit ≤ w.middle * Nat.pow 10 p) ∨
      (w.middle * Nat.pow 10 p ≤ v * w.unit ∧ v * w.unit ≤ u * w.unit)) : w.Holds p v := by
  have hlow := Nat.mul_lt_mul_of_pos_right hw.low_lt (ten_pow_pos p)
  have hhigh := Nat.mul_lt_mul_of_pos_right hw.lt_high (ten_pow_pos p)
  unfold Holds at h ⊢
  by_cases hclosed : w.closed = true
  · rw [if_pos hclosed] at h ⊢
    omega
  · rw [if_neg hclosed] at h ⊢
    omega

/-- With any grid point a window holds one of the two next to its number. -/
theorem Proper.holds_neighbour (hw : w.Proper) (h : w.Holds p u) :
    w.Holds p (w.below p) ∨ w.Holds p (w.below p + 1) := by
  rcases Nat.lt_or_ge (w.below p) u with hlt | hge
  · exact .inr (hw.holds_of_between h
      (.inr ⟨Nat.le_of_lt (hw.lt_above_mul p), Nat.mul_le_mul_right _ hlt⟩))
  · exact .inl (hw.holds_of_between h
      (.inl ⟨Nat.mul_le_mul_right _ hge, below_mul_le w p⟩))

theorem holds_of_nearest? (h : w.nearest? p = some u) : w.Holds p u := by
  simp only [nearest?] at h
  split at h
  case isTrue hbelow =>
    cases h
    exact hbelow.1
  case isFalse =>
    split at h
    case isTrue habove =>
      cases h
      exact habove
    case isFalse => cases h

/-- A grid that yields nothing has no point in the window. -/
theorem Proper.not_holds_of_nearest? (hw : w.Proper) (h : w.nearest? p = none) (u : Nat) :
    ¬ w.Holds p u := by
  intro hu
  simp only [nearest?] at h
  split at h
  case isTrue => cases h
  case isFalse hbelow =>
    split at h
    case isTrue => cases h
    case isFalse habove =>
      have hfirst := (hw.holds_neighbour hu).resolve_right habove
      exact hbelow ⟨hfirst, .inr habove⟩

/-- A point of the first grid has the fewest places. -/
theorem coarsest_first {first : Nat} (h : w.Holds first u) : w.Coarsest first (u, first) :=
  ⟨Nat.le_refl _, h, fun _ hge hlt => absurd hlt (Nat.not_lt.mpr hge)⟩

/-- The search takes the coarsest grid, if the last one has a point in the window. -/
theorem Proper.coarsest_fewestFrom (hw : w.Proper) (more first : Nat)
    (hlast : w.Holds (first + more) (w.below (first + more))) :
    w.Coarsest first (w.fewestFrom more first) := by
  induction more generalizing first with
  | zero => exact coarsest_first hlast
  | succ more ih =>
    unfold fewestFrom
    split
    case h_1 units hsome => exact coarsest_first (holds_of_nearest? hsome)
    case h_2 hnone =>
      rw [Nat.add_comm more, ← Nat.add_assoc] at hlast
      obtain ⟨hle, hholds, hcoarsest⟩ := ih (first + 1) hlast
      refine ⟨Nat.le_of_succ_le hle, hholds, fun p hge hlt => ?_⟩
      rcases Nat.eq_or_lt_of_le hge with rfl | hgt
      · exact hw.not_holds_of_nearest? hnone
      · exact hcoarsest p hgt hlt

/-- The fewest places identify the number, if it has no more than `limit` itself. -/
theorem Proper.coarsest_fewest (hw : w.Proper) {limit : Nat} (hlimit : 1 ≤ limit)
    (hexact : w.unit ∣ w.middle * Nat.pow 10 limit) : w.Coarsest 1 (w.fewest limit) := by
  refine hw.coarsest_fewestFrom (limit - 1) 1 ?_
  rw [Nat.add_sub_cancel' hlimit]
  exact hw.holds_below hexact

end Window

end Bindcheck
