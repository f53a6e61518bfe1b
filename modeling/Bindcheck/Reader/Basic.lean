/-
Bindcheck.Reader.Basic — readers of text, which report a failure with its place.

A `Reader` takes a cursor and answers with an `Outcome`: a result or a failure, and in both
cases the cursor at which reading came to rest. What a reader does not find is a result
(`none`, `false`), so that the next alternative can be tried; a failure is final.

The field `advances` says that a reader only moves forward within the text. Every loop over
readers ends by it, because the rest of the text gets shorter.

Readers are a monad; `run_pure`, `run_bind` and the lemma beside each primitive say what
running one does, and proofs need no other facts.
-/
import Bindcheck.Failure
import Bindcheck.Text.Cursor

namespace Bindcheck

/-- A result or a failure, with the cursor at which reading came to rest. -/
inductive Outcome (α : Type) where
  | ok (value : α) (cursor : Cursor)
  | error (failure : Failure) (cursor : Cursor)
  deriving DecidableEq, Repr

namespace Outcome

variable {α β : Type}

/-- Where reading came to rest. -/
def cursor : Outcome α → Cursor
  | ok _ c => c
  | error _ c => c

/-- Goes on from a result; a failure stays. -/
def andThen (o : Outcome α) (next : α → Cursor → Outcome β) : Outcome β :=
  match o with
  | ok a c => next a c
  | error f c => error f c

@[simp] theorem cursor_ok (a : α) (c : Cursor) : (ok a c).cursor = c := rfl

@[simp] theorem cursor_error (f : Failure) (c : Cursor) :
    (error f c : Outcome α).cursor = c := rfl

@[simp] theorem ok_andThen (a : α) (c : Cursor) (next : α → Cursor → Outcome β) :
    (ok a c).andThen next = next a c := rfl

@[simp] theorem error_andThen (f : Failure) (c : Cursor) (next : α → Cursor → Outcome β) :
    (error f c : Outcome α).andThen next = error f c := rfl

/-- Going on gives a result exactly when both parts do. -/
theorem andThen_eq_ok {o : Outcome α} {next : α → Cursor → Outcome β} {b : β} {d : Cursor} :
    o.andThen next = ok b d ↔ ∃ a c, o = ok a c ∧ next a c = ok b d := by
  cases o with
  | ok a c => exact ⟨fun h => ⟨a, c, rfl, h⟩, fun ⟨_, _, rfl, h⟩ => h⟩
  | error f c => simp

/-- Going on fails exactly when one of the parts does. -/
theorem andThen_eq_error {o : Outcome α} {next : α → Cursor → Outcome β} {f : Failure}
    {d : Cursor} :
    o.andThen next = error f d ↔
      o = error f d ∨ ∃ a c, o = ok a c ∧ next a c = error f d := by
  cases o with
  | ok a c =>
    exact ⟨fun h => .inr ⟨a, c, rfl, h⟩, fun | .inr ⟨_, _, rfl, h⟩ => h⟩
  | error g c => simp

end Outcome

/-- A way to read, from a cursor to a later one. -/
structure Reader (α : Type) where
  run : Cursor → Outcome α
  advances : ∀ c : Cursor, c.Reaches (run c).cursor

namespace Reader

variable {α β : Type}

/-! ## Readers in sequence -/

/-- Reads nothing. -/
protected def pure (a : α) : Reader α where
  run c := .ok a c
  advances c := Cursor.Reaches.refl c

/-- Reads one thing and then another that depends on it. -/
protected def bind (p : Reader α) (next : α → Reader β) : Reader β where
  run c := (p.run c).andThen fun a d => (next a).run d
  advances c := by
    have first := p.advances c
    cases h : p.run c with
    | ok a d =>
      rw [h] at first
      exact first.trans ((next a).advances d)
    | error f d =>
      rw [h] at first
      exact first

instance : Monad Reader where
  pure := Reader.pure
  bind := Reader.bind

@[simp] theorem run_pure (a : α) (c : Cursor) : (pure a : Reader α).run c = .ok a c := rfl

@[simp] theorem run_bind (p : Reader α) (next : α → Reader β) (c : Cursor) :
    (p >>= next).run c = (p.run c).andThen fun a d => (next a).run d := rfl

@[simp] theorem run_map (g : α → β) (p : Reader α) (c : Cursor) :
    (g <$> p).run c = (p.run c).andThen fun a d => .ok (g a) d := rfl

/-! ## Place and failure -/

/-- The offset at the cursor. -/
def offset : Reader Nat where
  run c := .ok c.offset c
  advances c := Cursor.Reaches.refl c

/-- The span from an offset to the cursor. -/
def spanSince (start : Nat) : Reader Span where
  run c := .ok (c.spanSince start) c
  advances c := Cursor.Reaches.refl c

/-- Refuses the text. -/
def fail (cause : Cause) (span : Span) : Reader α where
  run c := .error ⟨cause, span⟩ c
  advances c := Cursor.Reaches.refl c

/-- Refuses the text that is left. -/
def failRest (cause : Cause) : Reader α where
  run c := .error ⟨cause, c.restSpan⟩ c
  advances c := Cursor.Reaches.refl c

@[simp] theorem run_offset (c : Cursor) : offset.run c = .ok c.offset c := rfl

@[simp] theorem run_spanSince (start : Nat) (c : Cursor) :
    (spanSince start).run c = .ok (c.spanSince start) c := rfl

@[simp] theorem run_fail (cause : Cause) (span : Span) (c : Cursor) :
    (fail cause span : Reader α).run c = .error ⟨cause, span⟩ c := rfl

@[simp] theorem run_failRest (cause : Cause) (c : Cursor) :
    (failRest cause : Reader α).run c = .error ⟨cause, c.restSpan⟩ c := rfl

end Reader

end Bindcheck
