/-
Bindcheck.Proofs.Nesting.Allowance — expressions that are read with fewer
parentheses allowed.

A reader is `Tighter` than another one if it does what that one does,
except that it may refuse a text for its nesting: it is `Stricter` for
that one cause. `tighter_operand` says that a smaller allowance makes no
other difference: no shorter operand is found with it, and no other text
is refused.
-/
import Bindcheck.Proofs.Stricter

namespace Bindcheck

variable {α : Type}

/-- The outcome is the same, or the text is refused for its nesting. -/
inductive Outcome.Tighter (o o' : Outcome α) : Prop
  | same (h : o = o')
  | tooDeep (span : Span) (d : Cursor) (h : o = .error ⟨.nestedTooDeeply, span⟩ d)

namespace Reader

/-- From every cursor the outcome is the same, or the text is refused for its nesting. -/
def Tighter (r r' : Reader α) : Prop := ∀ c, (r.run c).Tighter (r'.run c)

theorem tighter_iff {r r' : Reader α} : Tighter r r' ↔ Stricter (· = .nestedTooDeeply) r r' := by
  constructor
  · intro h c
    cases h c with
    | same h => exact .same h
    | tooDeep span d h => exact .refused _ d h rfl
  · intro h c
    cases h c with
    | same h => exact .same h
    | refused f d h hf =>
      obtain ⟨cause, span⟩ := f
      obtain rfl : cause = .nestedTooDeeply := hf
      exact .tooDeep span d h

theorem tighter_expression {operand operand' : Reader (Option Operand)}
    (h : Tighter operand operand') : Tighter (expression operand) (expression operand') :=
  tighter_iff.mpr (stricter_expression (tighter_iff.mp h))

/-- With fewer parentheses allowed the same operands are read, or the nesting is refused. -/
theorem tighter_operand (scope : SymbolTable) {m n : Nat} (h : m ≤ n) :
    Tighter (operand scope m) (operand scope n) := by
  rw [tighter_iff]
  induction m generalizing n with
  | zero =>
    cases n with
    | zero => exact .refl _
    | succ n =>
      apply stricter_operandWith
      · exact fun start => .fail (by rfl) (Span.single start) _
      · exact fun _ _ => .refl _
  | succ m ih =>
    cases n with
    | zero => cases h
    | succ n =>
      have hless := ih (Nat.le_of_succ_le_succ h)
      exact stricter_operandWith (stricter_group hless) fun _ _ => .refl _

end Reader

end Bindcheck
