/-
Bindcheck.Text.Space — the white space of Unicode.

The characters with the property White_Space, twenty-five in all, and the text that is left
when they are taken off both ends. Only lines that a user types are trimmed so; between tokens
fewer characters count as blanks.
-/
import Bindcheck.Text.Span

namespace Bindcheck

namespace Text

/-- The ranges of code points, both ends included, with the property White_Space. -/
def spaceRanges : List (Nat × Nat) :=
  [(0x9, 0xd), (0x20, 0x20), (0x85, 0x85), (0xa0, 0xa0), (0x1680, 0x1680), (0x2000, 0x200a),
    (0x2028, 0x2029), (0x202f, 0x202f), (0x205f, 0x205f), (0x3000, 0x3000)]

/-- A character with the property White_Space. -/
def isSpace (c : Char) : Bool :=
  spaceRanges.any fun (first, last) => first ≤ c.toNat && c.toNat ≤ last

/-- The text without the spaces at its front. -/
def trimStart (text : Text) : Text := text.dropWhile isSpace

/-- The text without the spaces at its end. -/
def trimEnd (text : Text) : Text := (text.reverse.dropWhile isSpace).reverse

/-- The text without the spaces at either end. -/
def trim (text : Text) : Text := trimEnd (trimStart text)

/-- The ASCII white space is white space. -/
theorem isSpace_of_isWhitespace {c : Char} (h : c.isWhitespace = true) : isSpace c = true := by
  simp only [Char.isWhitespace, Bool.or_eq_true, decide_eq_true_eq] at h
  rcases h with ((rfl | rfl) | rfl) | rfl <;> decide

end Text

end Bindcheck
