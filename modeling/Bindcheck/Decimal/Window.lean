/-
Bindcheck.Decimal.Window — the fewest decimal places that identify a number.

A number that is known only up to rounding stands for all reals in a window around it. For a
given number of places the decimals of that many places form a grid, and the two grid points
next to the number are the only ones to look at: if any grid point lies in the window, one of
these two does. `Window.fewest` takes the coarsest grid with a point in the window, and on
it the point nearer to the number; a tie goes up.
-/
namespace Bindcheck

/--
The number `middle / unit` and the reals from `low / unit` to `high / unit` that stand for it.
A closed window holds its two ends.
-/
structure Window where
  unit : Nat
  low : Nat
  middle : Nat
  high : Nat
  closed : Bool
  deriving DecidableEq, Repr

namespace Window

/-- The decimal `units / 10 ^ places` lies in the window. -/
def Holds (w : Window) (places units : Nat) : Prop :=
  if w.closed then
    w.low * Nat.pow 10 places ≤ units * w.unit ∧ units * w.unit ≤ w.high * Nat.pow 10 places
  else
    w.low * Nat.pow 10 places < units * w.unit ∧ units * w.unit < w.high * Nat.pow 10 places

instance (w : Window) (places units : Nat) : Decidable (w.Holds places units) := by
  unfold Holds
  infer_instance

/-- The last grid point that does not exceed the number. -/
def below (w : Window) (places : Nat) : Nat := w.middle * Nat.pow 10 places / w.unit

/-- The number is nearer to the grid point below it than to the next one. -/
def NearerBelow (w : Window) (places : Nat) : Prop :=
  2 * (w.middle * Nat.pow 10 places % w.unit) < w.unit

instance (w : Window) (places : Nat) : Decidable (w.NearerBelow places) := by
  unfold NearerBelow
  infer_instance

/-- The grid point in the window that is nearest to the number, if the window holds one. -/
def nearest? (w : Window) (places : Nat) : Option Nat :=
  let below := w.below places
  let above := below + 1
  if w.Holds places below ∧ (w.NearerBelow places ∨ ¬ w.Holds places above) then some below
  else if w.Holds places above then some above
  else none

/--
The units and places of the coarsest grid with a point in the window, among the grids of
`places`, `places + 1`, … places; after `more` of them the point below the number is taken.
-/
def fewestFrom (w : Window) : Nat → Nat → Nat × Nat
  | 0, places => (w.below places, places)
  | more + 1, places =>
    match w.nearest? places with
    | some units => (units, places)
    | none => w.fewestFrom more (places + 1)

/-- The units and places of the coarsest grid, of at least one place and at most `limit`. -/
def fewest (w : Window) (limit : Nat) : Nat × Nat := w.fewestFrom (limit - 1) 1

end Window

end Bindcheck
