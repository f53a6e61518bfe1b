/-
Bindcheck.Text.Lines — the lines of a text and the location of an offset.

A line ends after a line feed, a carriage return, the two of them in this order, or one of
the vertical tab, the form feed, and the Unicode next-line, line and paragraph separators.
The terminator belongs to its line, so the lines of a text joined together are the text, and
a final terminator opens no further line.

A `Location` counts lines and columns from one. The location of an offset is in the last
line that begins at or before it.
-/
import Bindcheck.Text.Span

namespace Bindcheck

namespace Text

/-- The characters that end a line. -/
def isTerminator (c : Char) : Bool :=
  c = '\n' || c = '\r' || c = '\x0b' || c = '\x0c' || c = '\u0085' || c = '\u2028' || c = '\u2029'

/-- Puts a character in front of the first line. -/
def consLine (c : Char) : List Text → List Text
  | [] => [[c]]
  | line :: lines => (c :: line) :: lines

/-- The lines of a text, each with its terminator. -/
def lines : Text → List Text
  | [] => []
  | '\r' :: '\n' :: text => ['\r', '\n'] :: lines text
  | c :: text => if isTerminator c then [c] :: lines text else consLine c (lines text)

/-- The first line grows by one character, and no other changes. -/
theorem flatten_consLine (c : Char) (lines : List Text) :
    (consLine c lines).flatten = c :: lines.flatten := by
  cases lines <;> simp [consLine]

/-- The lines of a text joined together are the text. -/
theorem flatten_lines (text : Text) : (lines text).flatten = text := by
  fun_induction lines text with
  | case1 => rfl
  | case2 text ih => simp [ih]
  | case3 c text _ _ ih => simp [ih]
  | case4 c text _ _ ih => simp [flatten_consLine, ih]

end Text

/-- A line and a column, both counted from one. -/
structure Location where
  line : Nat
  column : Nat
  deriving DecidableEq, Repr

namespace Location

/-- The place of an offset in a sequence of lines. -/
def inLines : List Text → Nat → Location
  | [], offset => ⟨1, offset + 1⟩
  | [_], offset => ⟨1, offset + 1⟩
  | line :: next :: lines, offset =>
    if offset < line.length then ⟨1, offset + 1⟩
    else
      let later := inLines (next :: lines) (offset - line.length)
      ⟨later.line + 1, later.column⟩

/-- The place of an offset in a text. -/
def ofOffset (text : Text) (offset : Nat) : Location := inLines (Text.lines text) offset

end Location

end Bindcheck
