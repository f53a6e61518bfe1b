/-
Bindcheck.Lexical.Quoted — string literals.

A string stands between quotes. In its plain form a backslash begins an escape, of which there
are five; in its raw form, marked by `@` in front, a backslash is a character like any
other, and so a raw string cannot hold a quote. Between the quotes there is no layout: blanks
and slashes belong to the string.

`Quoted.body` says how the text after the opening quote goes on: to the closing quote, to an
escape that is none, or to the end of the text.
-/
import Bindcheck.Lexical.Token

namespace Bindcheck

namespace Quoted

/-- Whether a backslash begins an escape. -/
inductive Form where
  | plain
  | raw
  deriving DecidableEq, Repr

/-- The character that stands at either end of a string. -/
def quote : Char := '\''

/-- The character that marks a raw string. -/
def rawMark : Char := '@'

/-- The character that begins an escape. -/
def backslash : Char := '\\'

/-- What a character after a backslash stands for. -/
def escape? (c : Char) : Option Char :=
  if c = 'n' then some '\n'
  else if c = 't' then some '\t'
  else if c = 'r' then some '\r'
  else if c = backslash ∨ c = quote then some c
  else none

/-- How the text after an opening quote goes on, with the number of characters it takes. -/
inductive Body where
  | closed (contents : Text) (length : Nat)
  | badEscape (escaped : Char) (length : Nat)
  | unterminated
  deriving DecidableEq, Repr

namespace Body

/-- The body with a character in front that took some characters to write. -/
def cons (c : Char) (width : Nat) : Body → Body
  | closed contents length => closed (c :: contents) (length + width)
  | badEscape escaped length => badEscape escaped (length + width)
  | unterminated => unterminated

/-- The body takes no more characters than there are. -/
def Fits (available : Nat) : Body → Prop
  | closed _ length => length ≤ available
  | badEscape _ length => length ≤ available
  | unterminated => True

/-- A character in front takes its share of what there is. -/
theorem fits_cons {c : Char} {width available : Nat} {b : Body} (h : b.Fits available) :
    (b.cons c width).Fits (available + width) := by
  cases b <;> simp_all [cons, Fits]

end Body

/-- How the text after an opening quote goes on. -/
def body (form : Form) : Text → Body
  | [] => .unterminated
  | [c] => if c = quote then .closed [] 1 else .unterminated
  | c :: next :: text =>
    if c = quote then .closed [] 1
    else if form = .plain ∧ c = backslash then
      match escape? next with
      | some decoded => (body form text).cons decoded 2
      | none => .badEscape next 2
    else (body form (next :: text)).cons c 1

/-- The body of a string is part of the text. -/
theorem fits_body (form : Form) (text : Text) : (body form text).Fits text.length := by
  fun_induction body form text with
  | case1 => trivial
  | case2 => simp [Body.Fits]
  | case3 c h => trivial
  | case4 => simp [Body.Fits]
  | case5 c next text _ _ decoded _ ih => exact Body.fits_cons ih
  | case6 c next text _ _ _ => simp [Body.Fits]
  | case7 c next text _ _ ih => exact Body.fits_cons ih

end Quoted

namespace Reader

/-- What the text after the opening quote of a string gives, for a string that began at `start`. -/
def quotedBodyAt (form : Quoted.Form) (start : Nat) (c : Cursor) : Outcome String :=
  match Quoted.body form c.rest with
  | .closed contents length => .ok (String.ofList contents) (c.advance length)
  | .badEscape escaped length =>
    let d := c.advance length
    .error ⟨.invalidEscape escaped, ⟨d.offset - 2, d.offset⟩⟩ d
  | .unterminated =>
    let d := c.advance c.rest.length
    .error ⟨.unterminatedString, d.spanSince start⟩ d

/-- Reading the body of a string moves within the text. -/
theorem reaches_quotedBodyAt (form : Quoted.Form) (start : Nat) (c : Cursor) :
    c.Reaches (quotedBodyAt form start c).cursor := by
  have fits := Quoted.fits_body form c.rest
  unfold quotedBodyAt
  split <;> rename_i h
  · rw [h] at fits
    exact Cursor.reaches_advance fits
  · rw [h] at fits
    exact Cursor.reaches_advance fits
  · exact Cursor.reaches_advance (Nat.le_refl _)

/-- Reads the rest of a string that began at `start`, its opening quote being read. -/
def quotedBody (form : Quoted.Form) (start : Nat) : Reader String where
  run := quotedBodyAt form start
  advances := reaches_quotedBodyAt form start

@[simp] theorem run_quotedBody (form : Quoted.Form) (start : Nat) (c : Cursor) :
    (quotedBody form start).run c = quotedBodyAt form start c := rfl

/--
Reads a string after the layout, if there is one. Between the mark of a raw string and its
quote there may be layout, as between any two tokens.
-/
def quoted : Reader (Option String) := do
  skipLayout
  let start ← offset
  if ← accept Quoted.rawMark then
    if ← accept Quoted.quote then
      return some (← quotedBody .raw start)
    else
      fail .rawQuoteExpected (← spanSince start)
  else if ← accept Quoted.quote then
    return some (← quotedBody .plain start)
  else
    return none

end Reader

end Bindcheck
