/-
Bindcheck.Proofs.Weakening — the type of an expression over more names.

An expression is read over a table and over a larger one, in which every
name of the first has the same type. The two readings differ at most
where the first one refuses a name because it is not bound: the larger
table may bind it. So the reader over the first table is `Stricter`, for
that cause alone (`stricter_wholeExpr`).

What is left is that the readings do differ there. A name that is refused
is not bound (`get?_of_undefined`), so the larger table cannot refuse a
name that it binds.
-/
import Bindcheck.Proofs.Refusal.Cause
import Bindcheck.Proofs.Stricter

namespace Bindcheck

open Grammar Reader

variable {table larger : SymbolTable} {source : Text}

/-- The cause is that a name is not bound, and a table binds it. -/
def Cause.MendedBy (larger : SymbolTable) (cause : Cause) : Prop :=
  ∃ name, cause = .undefinedVariable name ∧ larger.contains name = true

namespace Reader

/-! ## Reading over two tables -/

/-- A name stands for the same operand over a larger table, if it stands for one. -/
theorem stricter_named (h : table.scope.Subset larger.scope) (name : String) (span : Span) :
    Stricter (·.MendedBy larger) (named table name span) (named larger name span) := by
  unfold named
  cases hentry : table.get? name with
  | some entry =>
    have hty : larger.scope name = some entry.ty := by
      apply h
      simp [SymbolTable.scope, hentry]
    obtain ⟨entry', hentry', hsame⟩ := Option.map_eq_some_iff.mp hty
    simp only [hentry', hsame]
    exact .refl _
  | none =>
    cases hentry' : larger.get? name with
    | none => exact .refl _
    | some entry' =>
      have hbound : larger.contains name = true :=
        SymbolTable.contains_iff.mpr ⟨entry', hentry'⟩
      exact .fail ⟨name, rfl, hbound⟩ span _

theorem stricter_operand (h : table.scope.Subset larger.scope) (depth : Nat) :
    Stricter (·.MendedBy larger) (operand table depth) (operand larger depth) := by
  induction depth with
  | zero => exact stricter_operandWith (fun _ => .refl _) (stricter_named h)
  | succ depth ih => exact stricter_operandWith (stricter_group ih) (stricter_named h)

/-- Over a larger table an expression is read as before, if no name was refused that it binds. -/
theorem stricter_wholeExpr (h : table.scope.Subset larger.scope) :
    Stricter (·.MendedBy larger) (wholeExpr table) (wholeExpr larger) := by
  apply (Stricter.refl offset).bind
  intro start
  exact (stricter_expression (stricter_operand h nestingLimit)).bind fun _ => .refl _

end Reader

/-- A name is refused only if it is not bound. -/
theorem get?_of_undefined {name : String} {span : Span}
    (h : inferType source table = .error ⟨.undefinedVariable name, span⟩) :
    table.get? name = none := by
  rcases refusal_of_refused (.inr h) with hrefused | hcause
  · cases hrefused with
    | undefinedVariable _ _ hname => exact hname
  · cases hcause

/-- Over a table that binds more names, those of the first with the same types, an expression has
the type and the code that it has over the first. One that is refused is refused for the same
cause and at the same span, unless the cause is a name that the larger table binds. -/
theorem inferType_weakening (h : table.scope.Subset larger.scope) (source : Text) :
    (∀ ty, inferType source table = .ok ty →
      inferType source larger = .ok ty ∧
        ∃ s, Code.ofExpression source table = .ok ⟨[s], table⟩ ∧
          Code.ofExpression source larger = .ok ⟨[s], larger⟩) ∧
    ∀ f, inferType source table = .error f →
      (inferType source larger = .error f ↔
        ∀ name, f.cause = .undefinedVariable name → larger.contains name = false) := by
  have hstricter := stricter_wholeExpr h (Cursor.start source)
  constructor
  · intro ty hty
    unfold inferType at hty ⊢
    unfold Code.ofExpression
    cases hread : (wholeExpr table).run (Cursor.start source) with
    | error f d =>
      rw [hread] at hty
      cases hty
    | ok s d =>
      rw [hread] at hty
      cases hstricter with
      | same hsame =>
        rw [← hsame, hread]
        exact ⟨hty, s, rfl, rfl⟩
      | refused f e hrefused _ =>
        rw [hread] at hrefused
        cases hrefused
  · intro f hf
    constructor
    · intro hlarger name hcause
      obtain ⟨cause, span⟩ := f
      obtain rfl : cause = .undefinedVariable name := hcause
      simp [SymbolTable.contains, get?_of_undefined hlarger]
    · intro hfree
      cases hstricter with
      | same hsame =>
        unfold inferType at hf ⊢
        rwa [← hsame]
      | refused g e hrefused hmended =>
        simp only [inferType, hrefused, Except.error.injEq] at hf
        subst hf
        obtain ⟨name, hcause, hbound⟩ := hmended
        rw [hfree name hcause] at hbound
        cases hbound

/-- A name may be recorded anew with the type that it has. Names that are new decide nothing in a
comment, and mend the refusal of one of them only. -/
theorem weakening_recorded_anew :
    let table := SymbolTable.ofList [("a", ⟨none, .int⟩)]
    let larger := SymbolTable.ofList [("b", ⟨some "b", .str⟩), ("a", ⟨some "a", .int⟩)]
    table.scope.Subset larger.scope ∧
      inferType "(a//b\n)*2".toList larger = .ok .int ∧
      inferType "a+(c".toList larger = .error ⟨.undefinedVariable "c", ⟨3, 4⟩⟩ ∧
      inferType "a+(b".toList larger ≠ .error ⟨.undefinedVariable "b", ⟨3, 4⟩⟩ := by
  intro table larger
  have hsubset : table.scope.Subset larger.scope := by
    intro name ty hname
    by_cases ha : name = "a"
    · subst ha
      exact hname
    · simp [table, SymbolTable.scope, SymbolTable.ofList, SymbolTable.get?_insert, ha] at hname
  have hclosed : inferType "(a//b\n)*2".toList table = .ok .int := by decide +kernel
  have hfree : inferType "a+(c".toList table = .error ⟨.undefinedVariable "c", ⟨3, 4⟩⟩ := by
    decide +kernel
  have hmended : inferType "a+(b".toList table = .error ⟨.undefinedVariable "b", ⟨3, 4⟩⟩ := by
    decide +kernel
  refine ⟨hsubset, ((inferType_weakening hsubset _).1 _ hclosed).1, ?_, ?_⟩
  · refine ((inferType_weakening hsubset _).2 _ hfree).mpr ?_
    rintro name ⟨rfl⟩
    decide +kernel
  · intro hsame
    have hunbound := ((inferType_weakening hsubset _).2 _ hmended).mp hsame "b" rfl
    exact absurd hunbound (by decide +kernel)

end Bindcheck
