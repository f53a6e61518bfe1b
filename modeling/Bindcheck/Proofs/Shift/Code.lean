/-
Bindcheck.Proofs.Shift.Code — code and failures further along in a longer
text.

With some characters put in front of a text, everything that was read in
it has its spans moved by their number, and nothing else changes:
`shift` says so for code, as `Span.shift` and `Failure.shift` do for spans
and failures. The types stay (`Expr.ty_shift`), and so does all of a
diagnostic that shows no offset (`Failure.movedBy_shift`).
-/
import Bindcheck.Syntax.Program

namespace Bindcheck

variable {distance : Nat}

/-! ## Code -/

mutual

/-- The same operand in a text that has `distance` more characters in front. -/
def Operand.shift (distance : Nat) : Operand → Operand
  | .literal value span => .literal value (span.shift distance)
  | .var name ty span => .var name ty (span.shift distance)
  | .group inner => .group (inner.shift distance)

def Expr.shift (distance : Nat) : Expr → Expr
  | .mk first rest span => .mk (first.shift distance) (rest.shift distance) (span.shift distance)

def Chain.shift (distance : Nat) : Chain → Chain
  | .nil => .nil
  | .cons op operand rest => .cons op (operand.shift distance) (rest.shift distance)

end

def Assignment.shift (a : Assignment) (distance : Nat) : Assignment :=
  ⟨a.name, a.expr.shift distance, a.span.shift distance⟩

def Statement.shift (distance : Nat) : Statement → Statement
  | .assignment a => .assignment (a.shift distance)
  | .expression expr span => .expression (expr.shift distance) (span.shift distance)

mutual

/-- An operand keeps its type where it is moved. -/
@[simp] theorem Operand.ty_shift (x : Operand) : (x.shift distance).ty = x.ty := by
  match x with
  | .literal value span => rfl
  | .var name ty span => rfl
  | .group inner => exact Expr.ty_shift inner

@[simp] theorem Expr.ty_shift (e : Expr) : (e.shift distance).ty = e.ty := by
  match e with
  | .mk first rest span => exact Operand.ty_shift first

end

mutual

/-- Two moves of an operand add up. -/
theorem Operand.shift_shift (x : Operand) (m n : Nat) :
    (x.shift m).shift n = x.shift (m + n) := by
  match x with
  | .literal value span => simp only [Operand.shift, Span.shift_shift]
  | .var name ty span => simp only [Operand.shift, Span.shift_shift]
  | .group inner => simp only [Operand.shift, Expr.shift_shift inner]

theorem Expr.shift_shift (e : Expr) (m n : Nat) : (e.shift m).shift n = e.shift (m + n) := by
  match e with
  | .mk first rest span =>
    simp only [Expr.shift, Operand.shift_shift first, Chain.shift_shift rest, Span.shift_shift]

theorem Chain.shift_shift (links : Chain) (m n : Nat) :
    (links.shift m).shift n = links.shift (m + n) := by
  match links with
  | .nil => rfl
  | .cons op operand rest =>
    simp only [Chain.shift, Operand.shift_shift operand, Chain.shift_shift rest]

end

theorem Expr.span_shift (e : Expr) : (e.shift distance).span = e.span.shift distance := by
  cases e
  rfl

theorem Operand.span_shift (x : Operand) : (x.shift distance).span = x.span.shift distance := by
  cases x with
  | literal value span => rfl
  | var name ty span => rfl
  | group inner => exact inner.span_shift

/-- A chain is moved link by link. -/
theorem Chain.shift_ofList (links : List (Operator × Operand)) :
    (ofList links).shift distance
      = ofList (links.map fun link => (link.1, link.2.shift distance)) := by
  induction links with
  | nil => rfl
  | cons link links ih => simp only [ofList, shift, List.map_cons, ih]

/-- An assignment that is moved binds what it bound. -/
theorem SymbolTable.bind_shift (table : SymbolTable) (a : Assignment) :
    table.bind (a.shift distance) = table.bind a := by
  simp only [bind, Assignment.shift, Expr.ty_shift]

/-! ## Failures -/

theorem Span.single_shift (offset distance : Nat) :
    Span.single (offset + distance) = (Span.single offset).shift distance := by
  simp only [Span.single, Span.shift, Span.mk.injEq, true_and]
  omega

/-- A failure is told in the same words further along: only its span is moved, and the offset of a
parenthesis that is not closed. -/
structure Failure.MovedBy (distance : Nat) (f g : Failure) : Prop where
  kind : g.diagnostic.kind = f.diagnostic.kind
  message : g.diagnostic.message = f.diagnostic.message
  span : g.diagnostic.span = f.diagnostic.span.shift distance
  help : (∀ opened, f.cause ≠ .unclosedGroup opened) → g.diagnostic.help = f.diagnostic.help
  opened : ∀ opened, f.cause = .unclosedGroup opened →
    g.diagnostic.help
      = some ("The '(' at offset " ++ toString (opened + distance) ++ " is never closed.")

theorem Failure.movedBy_shift (f : Failure) (distance : Nat) :
    f.MovedBy distance (f.shift distance) := by
  obtain ⟨cause, span⟩ := f
  cases cause
  case unclosedGroup opened =>
    refine ⟨rfl, rfl, rfl, fun h => absurd rfl (h opened), ?_⟩
    rintro _ ⟨⟩
    rfl
  all_goals exact ⟨rfl, rfl, rfl, fun _ => rfl, nofun⟩

end Bindcheck
