/-
Bindcheck.Reader.Many — reading items until there is none.

`Reader.many` repeats a reader that moves on with every item that it finds. Each item
shortens the rest of the text, so the repetition ends; `run_many` is its one equation.
-/
import Bindcheck.Reader.Basic

namespace Bindcheck

namespace Reader

variable {α : Type}

/-- The reader moves on with every item that it finds. -/
def Consumes (item : Reader (Option α)) : Prop :=
  ∀ ⦃c a d⦄, item.run c = .ok (some a) d → d.rest.length < c.rest.length

/-- Items from a cursor on, in order, until there is none. -/
def runMany (item : Reader (Option α)) (consumes : item.Consumes) (c : Cursor) :
    Outcome (List α) :=
  match found : item.run c with
  | .error f d => .error f d
  | .ok none d => .ok [] d
  | .ok (some a) d =>
    have : d.rest.length < c.rest.length := consumes found
    (runMany item consumes d).andThen fun items e => .ok (a :: items) e
termination_by c.rest.length

/-- Reading many items moves forward. -/
theorem reaches_runMany (item : Reader (Option α)) (consumes : item.Consumes) (c : Cursor) :
    c.Reaches (runMany item consumes c).cursor := by
  fun_induction runMany item consumes c with
  | case1 c f d found => simpa [found] using item.advances c
  | case2 c d found => simpa [found] using item.advances c
  | case3 c a d found shorter ih =>
    have first : c.Reaches d := by simpa [found] using item.advances c
    have all := first.trans ih
    cases h : runMany item consumes d <;> simpa [h] using all

/-- Items, in order, until there is none. -/
def many (item : Reader (Option α)) (consumes : item.Consumes) : Reader (List α) where
  run := runMany item consumes
  advances := reaches_runMany item consumes

/-- Reading many items reads one, and after it as many as there are. -/
theorem run_many (item : Reader (Option α)) (consumes : item.Consumes) (c : Cursor) :
    (many item consumes).run c =
      (item.run c).andThen fun found d =>
        match found with
        | none => .ok [] d
        | some a => ((many item consumes).run d).andThen fun items e => .ok (a :: items) e := by
  simp only [many]
  rw [runMany]
  split <;> rename_i h <;> simp [h]

end Reader

end Bindcheck
