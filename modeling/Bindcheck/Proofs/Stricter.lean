/-
Bindcheck.Proofs.Stricter — readers that do the same, except that one of
them may refuse a text for certain causes.

`Stricter P r r'` says that from every cursor `r` does what `r'` does, or
refuses the text for a cause of which `P` holds. The relation is closed
under sequence and repetition. So it goes from operands to expressions
and groups, and for each reader its lemma follows the text of its
definition; only operands are left, where a group may be opened and a
name is looked up (`stricter_operandWith`).
-/
import Bindcheck.Syntax.Expression

namespace Bindcheck

variable {α β : Type} {P : Cause → Prop}

/-- The outcome is the same, or the text is refused for one of some causes. -/
inductive Outcome.Stricter (P : Cause → Prop) (o o' : Outcome α) : Prop
  | same (h : o = o')
  | refused (f : Failure) (d : Cursor) (h : o = .error f d) (hf : P f.cause)

theorem Outcome.Stricter.andThen {o o' : Outcome α} {next next' : α → Cursor → Outcome β}
    (h : o.Stricter P o') (hnext : ∀ a d, o = .ok a d → (next a d).Stricter P (next' a d)) :
    (o.andThen next).Stricter P (o'.andThen next') := by
  cases h with
  | same h =>
    subst h
    cases o with
    | ok a d => exact hnext a d rfl
    | error f d => exact .same rfl
  | refused f d h hf =>
    subst h
    exact .refused f d rfl hf

namespace Reader

/-- From every cursor the outcome is the same, or the text is refused for one of some causes. -/
def Stricter (P : Cause → Prop) (r r' : Reader α) : Prop := ∀ c, (r.run c).Stricter P (r'.run c)

namespace Stricter

/-! ## Sequence and repetition -/

protected theorem refl (r : Reader α) : Stricter P r r := fun _ => .same rfl

protected theorem fail {cause : Cause} (hcause : P cause) (span : Span) (r : Reader α) :
    Stricter P (fail cause span) r := fun c => .refused ⟨cause, span⟩ c rfl hcause

protected theorem bind {p p' : Reader α} {next next' : α → Reader β} (hp : Stricter P p p')
    (hnext : ∀ a, Stricter P (next a) (next' a)) : Stricter P (p >>= next) (p' >>= next') :=
  fun c => (hp c).andThen fun a d _ => hnext a d

protected theorem many {item item' : Reader (Option α)} (hitem : Stricter P item item')
    (consumes : item.Consumes) (consumes' : item'.Consumes) :
    Stricter P (many item consumes) (many item' consumes') := by
  intro c
  induction hn : c.rest.length using Nat.strongRecOn generalizing c with
  | _ size ih =>
    rw [run_many, run_many]
    apply (hitem c).andThen
    intro found d hread
    cases found with
    | none => exact .same rfl
    | some a =>
      have hshorter : d.rest.length < size := hn ▸ consumes hread
      exact (ih d.rest.length hshorter d rfl).andThen fun _ _ _ => .same rfl

end Stricter

/-! ## Expressions -/

section Expressions

variable {operand operand' : Reader (Option Operand)}

theorem stricter_required (h : Stricter P operand operand') (op : Option Operator) :
    Stricter P (required operand op) (required operand' op) :=
  h.bind fun _ => .refl _

theorem stricter_link (h : Stricter P operand operand') (ty : Ty) :
    Stricter P (link operand ty) (link operand' ty) := by
  apply (Stricter.refl (token .operator)).bind
  intro found
  cases found with
  | none => exact .refl _
  | some op =>
    have hlink := (stricter_required h (some op)).bind fun next =>
      Stricter.refl (if next.ty = ty then pure (op, next)
        else fail (.mismatchedTypes ty next.ty) next.span)
    exact hlink.bind fun _ => .refl _

theorem stricter_expression (h : Stricter P operand operand') :
    Stricter P (expression operand) (expression operand') := by
  apply (Stricter.refl skipLayout).bind
  intro _
  apply (Stricter.refl offset).bind
  intro start
  apply (stricter_required h none).bind
  intro first
  exact ((stricter_link h first.ty).many _ _).bind fun _ => .refl _

theorem stricter_group (h : Stricter P operand operand') (opened : Nat) :
    Stricter P (group operand opened) (group operand' opened) :=
  (stricter_expression h).bind fun _ => .refl _

end Expressions

/-- An operand is a group or a name, or else it is read in one way only. -/
theorem stricter_operandWith {table table' : SymbolTable} {opened opened' : Nat → Reader Operand}
    (hopened : ∀ start, Stricter P (opened start) (opened' start))
    (hnamed : ∀ name span, Stricter P (named table name span) (named table' name span)) :
    Stricter P (operandWith table opened) (operandWith table' opened') := by
  apply (Stricter.refl skipLayout).bind
  intro _
  apply (Stricter.refl offset).bind
  intro start
  apply (Stricter.refl (accept '(')).bind
  intro paren
  cases paren with
  | true => exact (hopened start).bind fun _ => .refl _
  | false =>
    apply (Stricter.refl quoted).bind
    intro text
    cases text with
    | some text => exact .refl _
    | none =>
      apply (Stricter.refl integer).bind
      intro value
      cases value with
      | some value => exact .refl _
      | none =>
        apply (Stricter.refl (token .name)).bind
        intro name
        cases name with
        | none => exact .refl _
        | some name =>
          apply (Stricter.refl (spanSince start)).bind
          intro span
          exact (hnamed name span).bind fun _ => .refl _

end Reader

end Bindcheck
