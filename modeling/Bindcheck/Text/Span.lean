/-
Bindcheck.Text.Span — half-open ranges of character offsets.

Every position in this library counts the characters (code points) before it in a source
text. A `Span` is a pair of such positions; nothing forces `start ≤ stop`, because a
diagnostic may be built with any pair and `Span.clamp` is what fits one to a text.
-/
namespace Bindcheck

/-- The characters of a text, in order; offsets count them. -/
abbrev Text := List Char

/-- The characters from offset `start` up to, and not including, offset `stop`. -/
structure Span where
  start : Nat
  stop : Nat
  deriving DecidableEq, Repr

namespace Span

/-- The span of the one character at an offset. -/
def single (offset : Nat) : Span := ⟨offset, offset + 1⟩

/-- The same span in a text that has `distance` more characters in front. -/
def shift (span : Span) (distance : Nat) : Span :=
  ⟨span.start + distance, span.stop + distance⟩

/-- The part of a text that a span covers. -/
def slice (span : Span) (text : Text) : Text :=
  (text.drop span.start).take (span.stop - span.start)

/-- The span cut down to a text of the given length; its ends no longer cross. -/
def clamp (span : Span) (length : Nat) : Span :=
  let start := min span.start length
  ⟨start, max start (min span.stop length)⟩

/-- Nothing is left to shift over a distance of zero. -/
@[simp] theorem shift_zero (span : Span) : span.shift 0 = span := rfl

/-- Two shifts add up. -/
@[simp] theorem shift_shift (span : Span) (d e : Nat) :
    (span.shift d).shift e = span.shift (d + e) := by
  simp [shift, Nat.add_assoc]

/-- A clamped span starts before it stops and stays within the text. -/
theorem clamp_bounds (span : Span) (length : Nat) :
    (span.clamp length).start ≤ (span.clamp length).stop ∧
      (span.clamp length).stop ≤ length := by
  simp only [clamp]
  omega

end Span

end Bindcheck
