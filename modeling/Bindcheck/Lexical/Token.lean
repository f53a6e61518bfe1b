/-
Bindcheck.Lexical.Token — the tokens that stand for themselves, names and runs of digits.

A `Token` is a lexical class: told the text at hand it says what its longest member at the
front denotes and how many characters that takes. `Reader.token` reads a token after
skipping layout. Where the token is not there it answers `none` and rests after the layout,
so every other token can be tried at the same place.
-/
import Bindcheck.Lexical.Layout

namespace Bindcheck

/-- A lexical class, with what its members denote. -/
structure Token (α : Type) where
  read : Text → Option (α × Nat)
  fits : ∀ ⦃text a n⦄, read text = some (a, n) → n ≤ text.length

namespace Token

variable {α β : Type}

/-! ## Classes -/

/-- The class with other denotations. -/
def map (g : α → β) (t : Token α) : Token β where
  read text := (t.read text).map fun (a, n) => (g a, n)
  fits text b n h := by
    obtain ⟨⟨a, m⟩, found, eq⟩ := Option.map_eq_some_iff.1 h
    obtain ⟨rfl, rfl⟩ := Prod.mk.inj eq
    exact t.fits found

/-- A fixed word; the empty word is found everywhere. -/
def word (letters : Text) : Token Unit where
  read text := if letters.isPrefixOf text then some ((), letters.length) else none
  fits text a n h := by
    split at h
    · rename_i found
      cases h
      exact (List.isPrefixOf_iff_prefix.1 found).length_le
    · nomatch h

/-- A fixed character. -/
def char (c : Char) : Token Unit := word [c]

/-- A character of one class, with all characters of another that follow it. -/
def run (first next : Char → Bool) : Token Text where
  read
    | [] => none
    | c :: text =>
      if first c then some (c :: text.takeWhile next, (text.takeWhile next).length + 1)
      else none
  fits text a n h := by
    cases text with
    | nil => nomatch h
    | cons c text =>
      simp only at h
      split at h
      · cases h
        have := (List.takeWhile_prefix (l := text) next).length_le
        simpa using this
      · nomatch h

/-- The letters of the basic Latin alphabet and the underscore. -/
def isNameStart (c : Char) : Bool := c.isAlpha || c = '_'

/-- The characters of a name after its first. -/
def isNamePart (c : Char) : Bool := c.isAlphanum || c = '_'

/-- A name: a letter or underscore, then letters, digits and underscores. -/
def name : Token String := (run isNameStart isNamePart).map String.ofList

/-- A run of decimal digits. -/
def digits : Token Text := run Char.isDigit Char.isDigit

/-- The first of some operators whose symbol begins the text. -/
def firstOperator (ops : List Operator) : Token Operator where
  read text := ops.findSome? fun op =>
    if op.symbol.toList.isPrefixOf text then some (op, op.symbol.toList.length) else none
  fits text op n h := by
    obtain ⟨op', -, found⟩ := List.exists_of_findSome?_eq_some h
    split at found
    · rename_i begins
      cases found
      exact (List.isPrefixOf_iff_prefix.1 begins).length_le
    · nomatch found

/-- An operator between two operands, the longest that the text begins with. -/
def operator : Token Operator := firstOperator Operator.binary

/-- Each operator is written in one character at least. -/
theorem operator_pos {text : Text} {op : Operator} {n : Nat}
    (h : operator.read text = some (op, n)) : 0 < n := by
  obtain ⟨op', -, found⟩ := List.exists_of_findSome?_eq_some h
  split at found
  · cases found
    cases op <;> decide
  · nomatch found

/-- A run has one character at least. -/
theorem run_pos {first next : Char → Bool} {text a : Text} {n : Nat}
    (h : (run first next).read text = some (a, n)) : 0 < n := by
  cases text with
  | nil => nomatch h
  | cons c text =>
    simp only [run] at h
    split at h
    · cases h
      exact Nat.succ_pos _
    · nomatch h

/-- A name has one character at least. -/
theorem name_pos {text : Text} {a : String} {n : Nat} (h : name.read text = some (a, n)) :
    0 < n := by
  obtain ⟨⟨b, m⟩, found, eq⟩ := Option.map_eq_some_iff.1 h
  obtain ⟨-, rfl⟩ := Prod.mk.inj eq
  exact run_pos found

end Token

namespace Reader

variable {α : Type}

/-! ## Reading a token -/

/-- What a token gives at a cursor, layout set aside. -/
def tokenAt (t : Token α) (c : Cursor) : Outcome (Option α) :=
  match t.read c.rest with
  | some (a, n) => .ok (some a) (c.advance n)
  | none => .ok none c

/-- Reading a token moves within the text. -/
theorem reaches_tokenAt (t : Token α) (c : Cursor) : c.Reaches (tokenAt t c).cursor := by
  cases h : t.read c.rest with
  | none =>
    simp only [tokenAt, h]
    exact Cursor.Reaches.refl c
  | some found =>
    obtain ⟨a, n⟩ := found
    simp only [tokenAt, h]
    exact Cursor.reaches_advance (t.fits h)

/-- Reads a token after the layout, if it is there. -/
def token (t : Token α) : Reader (Option α) where
  run c := tokenAt t c.pastLayout
  advances c := c.reaches_pastLayout.trans (reaches_tokenAt t c.pastLayout)

@[simp] theorem run_token (t : Token α) (c : Cursor) :
    (token t).run c = tokenAt t c.pastLayout := rfl

/-- Reading a token does not fail. -/
theorem tokenAt_ne_error (t : Token α) (c : Cursor) (f : Failure) (d : Cursor) :
    tokenAt t c ≠ .error f d := by
  unfold tokenAt
  split <;> simp

/-- A token is found exactly where its class has a member, and reading goes past it. -/
theorem tokenAt_eq_some {t : Token α} {c d : Cursor} {a : α} :
    tokenAt t c = .ok (some a) d ↔ ∃ n, t.read c.rest = some (a, n) ∧ d = c.advance n := by
  unfold tokenAt
  split <;> rename_i h <;> simp [h]
  grind

/-- A token that is not there leaves the cursor in place. -/
theorem tokenAt_eq_none {t : Token α} {c d : Cursor} :
    tokenAt t c = .ok none d ↔ t.read c.rest = none ∧ d = c := by
  unfold tokenAt
  split <;> rename_i h <;> simp [h]
  exact eq_comm

/-- Reads a character after the layout and says whether it was there. -/
def accept (c : Char) : Reader Bool := do
  return (← token (.char c)).isSome

/-- Reads a token and what has to follow it, if the token is there. -/
def after {β : Type} (t : Token α) (next : α → Reader β) : Reader (Option β) := do
  match ← token t with
  | none => return none
  | some a => return some (← next a)

/-- A token that takes a character makes the rest of the text shorter, whatever follows it. -/
theorem length_lt_of_after {β : Type} {t : Token α} {next : α → Reader β} {c d : Cursor}
    {b : β} (pos : ∀ {text a n}, t.read text = some (a, n) → 0 < n)
    (h : (after t next).run c = .ok (some b) d) : d.rest.length < c.rest.length := by
  obtain ⟨a?, e, read, h⟩ := Outcome.andThen_eq_ok.1 h
  obtain _ | a := a?
  · simp at h
  obtain ⟨n, found, rfl⟩ := tokenAt_eq_some.1 read
  have later := (next a).advances (c.pastLayout.advance n)
  obtain ⟨b', d', rest, eq⟩ := Outcome.andThen_eq_ok.1 h
  obtain ⟨-, rfl⟩ := Outcome.ok.inj eq
  rw [rest] at later
  have := later.length_le
  have := pos found
  have := t.fits found
  have := c.reaches_pastLayout.length_le
  simp only [Cursor.rest_advance, List.length_drop, Outcome.cursor_ok] at *
  omega

end Reader

end Bindcheck
