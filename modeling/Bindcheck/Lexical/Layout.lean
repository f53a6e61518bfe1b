/-
Bindcheck.Lexical.Layout — blanks and comments between tokens.

Layout is any run of blanks and comments: a comment is a pair of slashes and what follows up
to the end of the line. The line feed itself is a blank, so it belongs to the layout after
the comment. `layoutLength` measures the layout at the front of a text, and
`Reader.skipLayout` moves over it; after that there is none (`layoutLength_drop`).
-/
import Bindcheck.Reader.Basic

namespace Bindcheck

/-- The characters that separate tokens; other spaces of Unicode do not. -/
def isBlank (c : Char) : Bool := c = ' ' || c = '\n' || c = '\t' || c = '\r'

mutual

/-- How many characters of layout stand at the front of a text. -/
def layoutLength : Text → Nat
  | '/' :: '/' :: text => commentLength text + 2
  | c :: text => if isBlank c then layoutLength text + 1 else 0
  | [] => 0

/-- How many characters of layout stand at the front of a text that begins in a comment. -/
def commentLength : Text → Nat
  | c :: text => if c = '\n' then layoutLength text + 1 else commentLength text + 1
  | [] => 0

end

/-! ## Equations -/

@[simp] theorem layoutLength_nil : layoutLength [] = 0 := by
  rw [layoutLength]

/-- A blank is layout. -/
theorem layoutLength_blank {c : Char} {text : Text} (h : isBlank c = true) :
    layoutLength (c :: text) = layoutLength text + 1 := by
  rw [layoutLength]
  · simp [h]
  · intro _ eq
    subst eq
    simp [isBlank] at h

/-- Two slashes begin a comment. -/
theorem layoutLength_slashes (text : Text) :
    layoutLength ('/' :: '/' :: text) = commentLength text + 2 := by
  rw [layoutLength]

/-- Layout does not begin with any other character. -/
theorem layoutLength_other {c : Char} {text : Text} (h : isBlank c = false)
    (slashes : ∀ rest, c = '/' → text ≠ '/' :: rest) : layoutLength (c :: text) = 0 := by
  rw [layoutLength]
  · simp [h]
  · intro rest eq
    exact slashes rest eq

/-- A text begins with a blank, with a comment, or with something else. -/
theorem layout_cases (c : Char) (text : Text) :
    isBlank c = true ∨ (c = '/' ∧ ∃ rest, text = '/' :: rest) ∨
      (isBlank c = false ∧ ∀ rest, c = '/' → text ≠ '/' :: rest) := by
  cases isBlank c <;> grind

/-! ## Extent -/

/-- Layout is part of the text, also where the text begins in a comment. -/
theorem layoutLength_le_and_commentLength_le (text : Text) :
    layoutLength text ≤ text.length ∧ commentLength text ≤ text.length := by
  induction n : text.length using Nat.strongRecOn generalizing text with
  | _ n ih =>
    match text with
    | [] => simp [commentLength]
    | c :: text =>
      simp only [List.length_cons] at n
      have here := ih text.length (by omega) text rfl
      refine ⟨?_, ?_⟩
      · rcases layout_cases c text with h | ⟨rfl, rest, rfl⟩ | ⟨h, slashes⟩
        · rw [layoutLength_blank h]
          omega
        · simp only [List.length_cons] at n
          have there := ih rest.length (by omega) rest rfl
          rw [layoutLength_slashes]
          omega
        · simp [layoutLength_other h slashes]
      · simp only [commentLength]
        split <;> omega

/-- Layout is part of the text. -/
theorem layoutLength_le (text : Text) : layoutLength text ≤ text.length :=
  (layoutLength_le_and_commentLength_le text).1

/-- After the layout there is none, also where the text begins in a comment. -/
theorem layoutLength_drop_and_commentLength_drop (text : Text) :
    layoutLength (text.drop (layoutLength text)) = 0 ∧
      layoutLength (text.drop (commentLength text)) = 0 := by
  induction n : text.length using Nat.strongRecOn generalizing text with
  | _ n ih =>
    match text with
    | [] => simp
    | c :: text =>
      simp only [List.length_cons] at n
      have here := ih text.length (by omega) text rfl
      refine ⟨?_, ?_⟩
      · rcases layout_cases c text with h | ⟨rfl, rest, rfl⟩ | ⟨h, slashes⟩
        · simpa [layoutLength_blank h] using here.1
        · simp only [List.length_cons] at n
          have there := ih rest.length (by omega) rest rfl
          simpa [layoutLength_slashes] using there.2
        · simp [layoutLength_other h slashes]
      · simp only [commentLength]
        split
        · simpa using here.1
        · simpa using here.2

/-- After the layout there is none. -/
@[simp] theorem layoutLength_drop (text : Text) :
    layoutLength (text.drop (layoutLength text)) = 0 :=
  (layoutLength_drop_and_commentLength_drop text).1

/-! ## Skipping layout -/

namespace Cursor

/-- The place after the layout at the cursor. -/
def pastLayout (c : Cursor) : Cursor := c.advance (layoutLength c.rest)

/-- The layout is part of the text that is left. -/
theorem reaches_pastLayout (c : Cursor) : c.Reaches c.pastLayout :=
  reaches_advance (layoutLength_le c.rest)

/-- After the layout there is none to move over. -/
@[simp] theorem pastLayout_pastLayout (c : Cursor) : c.pastLayout.pastLayout = c.pastLayout := by
  conv => lhs; unfold pastLayout
  simp [pastLayout]

end Cursor

namespace Reader

/-- Moves over the layout at the cursor. -/
def skipLayout : Reader Unit where
  run c := .ok () c.pastLayout
  advances c := c.reaches_pastLayout

@[simp] theorem run_skipLayout (c : Cursor) : skipLayout.run c = .ok () c.pastLayout := rfl

/-- Skips layout and says whether the text ends there. -/
def atEnd : Reader Bool where
  run c := .ok c.pastLayout.atEnd c.pastLayout
  advances c := c.reaches_pastLayout

@[simp] theorem run_atEnd (c : Cursor) :
    atEnd.run c = .ok c.pastLayout.atEnd c.pastLayout := rfl

/-- Refuses the text at the character after the layout, or at the end. -/
def failHere {α : Type} (cause : Cause) : Reader α := do
  skipLayout
  fail cause (Span.single (← offset))

@[simp] theorem run_failHere {α : Type} (cause : Cause) (c : Cursor) :
    (failHere cause : Reader α).run c =
      .error ⟨cause, Span.single c.pastLayout.offset⟩ c.pastLayout := rfl

end Reader

end Bindcheck
