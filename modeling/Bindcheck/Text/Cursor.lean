/-
Bindcheck.Text.Cursor — a place in a text, with what is left to read.

A cursor holds its offset and the rest of the text. It moves only by `advance`, and
`Cursor.Reaches` is the order that this gives: `c.Reaches d` says that `d` is `c` moved over
some of the characters left. The relation is reflexive and transitive, it keeps the place of
the end of the text, and it can only shorten the rest.
-/
import Bindcheck.Text.Span

namespace Bindcheck

/-- A place in a text: the number of characters before it and the text after it. -/
structure Cursor where
  offset : Nat
  rest : Text
  deriving DecidableEq, Repr

namespace Cursor

/-- The place before the first character of a text. -/
def start (source : Text) : Cursor := ⟨0, source⟩

/-- The offset of the end of the text. -/
def finish (c : Cursor) : Nat := c.offset + c.rest.length

/-- No character is left. -/
def atEnd (c : Cursor) : Bool := c.rest.isEmpty

/-- The place `count` characters further on. -/
def advance (c : Cursor) (count : Nat) : Cursor := ⟨c.offset + count, c.rest.drop count⟩

/-- The span from an earlier offset to the cursor; empty if that offset lies ahead. -/
def spanSince (c : Cursor) (start : Nat) : Span := ⟨start, max start c.offset⟩

/-- The span of the text that is left; of one character if none is left. -/
def restSpan (c : Cursor) : Span := ⟨c.offset, max c.finish (c.offset + 1)⟩

/-- The place `d` is reached from `c` by moving over some of the characters left. -/
def Reaches (c d : Cursor) : Prop := ∃ count, count ≤ c.rest.length ∧ d = c.advance count

/-! ## Moving on -/

@[simp] theorem offset_advance (c : Cursor) (count : Nat) :
    (c.advance count).offset = c.offset + count := rfl

@[simp] theorem rest_advance (c : Cursor) (count : Nat) :
    (c.advance count).rest = c.rest.drop count := rfl

@[simp] theorem advance_zero (c : Cursor) : c.advance 0 = c := rfl

/-- Two moves add up. -/
@[simp] theorem advance_advance (c : Cursor) (m n : Nat) :
    (c.advance m).advance n = c.advance (m + n) := by
  simp [advance, Nat.add_assoc]

/-- At the end of the text exactly when nothing is left. -/
@[simp] theorem atEnd_iff {c : Cursor} : c.atEnd = true ↔ c.rest = [] := by
  simp [atEnd]

/-! ## Reaching -/

/-- A cursor reaches itself. -/
theorem Reaches.refl (c : Cursor) : c.Reaches c := ⟨0, Nat.zero_le _, rfl⟩

/-- A cursor reaches each place within the text that is left. -/
theorem reaches_advance {c : Cursor} {count : Nat} (h : count ≤ c.rest.length) :
    c.Reaches (c.advance count) := ⟨count, h, rfl⟩

/-- What is reached from a place that is reached is reached. -/
theorem Reaches.trans {c d e : Cursor} (hd : c.Reaches d) (he : d.Reaches e) : c.Reaches e := by
  obtain ⟨m, hm, rfl⟩ := hd
  obtain ⟨n, hn, rfl⟩ := he
  refine ⟨m + n, ?_, advance_advance c m n⟩
  simp only [rest_advance, List.length_drop] at hn
  omega

/-- The rest of the text can only get shorter. -/
theorem Reaches.length_le {c d : Cursor} (h : c.Reaches d) : d.rest.length ≤ c.rest.length := by
  obtain ⟨m, -, rfl⟩ := h
  simp

/-- The offset never goes back. -/
theorem Reaches.offset_le {c d : Cursor} (h : c.Reaches d) : c.offset ≤ d.offset := by
  obtain ⟨m, -, rfl⟩ := h
  simp

/-- The end of the text stays where it is. -/
theorem Reaches.finish_eq {c d : Cursor} (h : c.Reaches d) : d.finish = c.finish := by
  obtain ⟨m, hm, rfl⟩ := h
  simp only [finish, offset_advance, rest_advance, List.length_drop]
  omega

/-- A place that is reached holds the text left there, offset by offset. -/
theorem Reaches.rest_eq {c d : Cursor} (h : c.Reaches d) :
    d.rest = c.rest.drop (d.offset - c.offset) := by
  obtain ⟨m, -, rfl⟩ := h
  simp

/-! ## Places in a source -/

/-- Every offset of a source is reached from its front. -/
theorem reaches_drop {source : Text} {n : Nat} (h : n ≤ source.length) :
    (start source).Reaches ⟨n, source.drop n⟩ := by
  have eq : (start source).advance n = ⟨n, source.drop n⟩ := by simp [advance, start]
  rw [← eq]
  exact reaches_advance h

/-- The characters before a place of a source and those after it are all of its characters. -/
theorem Reaches.offset_add_length {source : Text} {d : Cursor} (h : (start source).Reaches d) :
    d.offset + d.rest.length = source.length := by
  simpa [finish, start] using h.finish_eq

/-- What comes next at a place of a source is the character with its offset. -/
theorem Reaches.head?_rest {source : Text} {d : Cursor} (h : (start source).Reaches d) :
    d.rest.head? = source[d.offset]? := by
  have eq : d.rest = source.drop d.offset := h.rest_eq
  rw [eq, List.head?_drop]

end Cursor

end Bindcheck
