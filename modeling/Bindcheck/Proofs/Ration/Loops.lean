/-
Bindcheck.Proofs.Ration.Loops — the loops over characters, turn by turn.

The layout at a cursor, a run of letters or digits and the body of a
string are defined by recursion on the text. Here each of them is `many`
turns of a small reader that moves on: `next` takes one character of a
kind, `letter` one character of a string, an escape included, and
`comment` takes some blanks and the comment behind them.

The lemmas named `run_many_…` say that the turns together do what the
recursion does, `comment` up to the place behind the layout and `letter`
up to the closing quote or the failure.
-/
import Bindcheck.Proofs.Ration.Extent

namespace Bindcheck

open Quoted Grammar

namespace Reader

variable {c d : Cursor}

/-! ## Single characters -/

/-- Reads a character of some kind, if one comes next. -/
def next (p : Char → Bool) : Reader (Option Char) where
  run c :=
    match c.rest with
    | [] => .ok none c
    | x :: _ => if p x then .ok (some x) (c.advance 1) else .ok none c
  advances c := by
    cases hrest : c.rest with
    | nil => exact .refl c
    | cons x text =>
      by_cases hx : p x = true
      · simp only [hx, if_true, Outcome.cursor_ok]
        exact Cursor.reaches_advance (by simp [hrest])
      · simp only [hx, Bool.false_eq_true, if_false, Outcome.cursor_ok]
        exact .refl c

/-- Says whether the text goes on with some letters, and stays in front of them. -/
def ahead (letters : Text) : Reader Bool where
  run c := .ok (letters.isPrefixOf c.rest) c
  advances c := .refl c

/-- Says whether the text ends at the cursor. -/
def ended : Reader Bool where
  run c := .ok c.atEnd c
  advances c := .refl c

/-- Reads a token at the cursor, if it is there. -/
def front {α : Type} (t : Token α) : Reader (Option α) where
  run := tokenAt t
  advances := reaches_tokenAt t

@[simp] theorem run_next_cons (p : Char → Bool) (o : Nat) (x : Char) (text : Text) :
    (next p).run ⟨o, x :: text⟩ =
      if p x then .ok (some x) ⟨o + 1, text⟩ else .ok none ⟨o, x :: text⟩ := rfl

@[simp] theorem run_ahead (letters : Text) (c : Cursor) :
    (ahead letters).run c = .ok (letters.isPrefixOf c.rest) c := rfl

theorem takes_next (p : Char → Bool) : (next p).Takes 1 := by
  rintro ⟨o, text⟩ x d h
  cases text with
  | nil => cases h
  | cons y text =>
    rw [run_next_cons] at h
    split at h
    · cases h
      exact Nat.le_refl _
    · cases h

theorem consumes_next (p : Char → Bool) : (next p).Consumes :=
  (takes_next p).consumes Nat.one_pos

/-- Character by character the longest run of a kind is taken. -/
theorem run_many_next (p : Char → Bool) (c : Cursor) :
    (many (next p) (consumes_next p)).run c =
      .ok (c.rest.takeWhile p) (c.advance (c.rest.takeWhile p).length) := by
  obtain ⟨o, text⟩ := c
  induction text generalizing o with
  | nil =>
    rw [run_many]
    rfl
  | cons x text ih =>
    rw [run_many, run_next_cons]
    by_cases hx : p x = true
    · simp only [hx, if_true, Outcome.ok_andThen, ih, List.takeWhile_cons, Cursor.advance,
        List.length_cons, List.drop_succ_cons, Nat.add_assoc, Nat.add_comm 1]
    · simp [hx]

/-! ## Names and numbers -/

/-- Reads a character of one kind and those of another kind behind it, if it comes next. -/
def word (first following : Char → Bool) : Reader (Option Text) := do
  match ← next first with
  | none => return none
  | some x => return some (x :: (← many (next following) (consumes_next following)))

theorem run_word (first following : Char → Bool) (c : Cursor) :
    (word first following).run c = tokenAt (Token.run first following) c := by
  obtain ⟨o, text⟩ := c
  cases text with
  | nil => rfl
  | cons x text =>
    by_cases hx : first x = true
    · simp [word, tokenAt, Token.run, hx, run_many_next, Cursor.advance, Nat.add_comm 1,
        Nat.add_assoc]
    · simp [word, tokenAt, Token.run, hx]

/-! ## Layout -/

/-- A character that does not end a comment. -/
def inComment (x : Char) : Bool := x ≠ '\n'

/-- Reads some blanks and the comment behind them, if one begins there. -/
def comment : Reader (Option Unit) := do
  let _ ← many (next isBlank) (consumes_next isBlank)
  if ← ahead ['/', '/'] then
    let _ ← many (next inComment) (consumes_next inComment)
    return some ()
  else
    return none

end Reader

open Reader

/-- Blanks are layout, and so is the layout behind them. -/
theorem layoutLength_takeWhile (text : Text) :
    layoutLength text =
      (text.takeWhile isBlank).length
        + layoutLength (text.drop (text.takeWhile isBlank).length) := by
  induction text with
  | nil => simp
  | cons x text ih =>
    by_cases hx : isBlank x = true
    · rw [layoutLength_blank hx, ih, List.takeWhile_cons_of_pos hx, List.length_cons,
        List.drop_succ_cons]
      omega
    · simp [hx]

/-- A comment goes on up to the line feed, and the layout behind it from there. -/
theorem commentLength_takeWhile (text : Text) :
    commentLength text =
      (text.takeWhile inComment).length
        + layoutLength (text.drop (text.takeWhile inComment).length) := by
  induction text with
  | nil => simp [commentLength]
  | cons x text ih =>
    by_cases hx : x = '\n'
    · subst hx
      simp [commentLength, inComment, layoutLength_blank (c := '\n') rfl]
    · have hmore : inComment x = true := by simpa [inComment] using hx
      rw [commentLength, if_neg hx, ih, List.takeWhile_cons_of_pos hmore, List.length_cons,
        List.drop_succ_cons]
      omega

/-- What is moved over first is layout if all of the layout is longer by as much. -/
theorem Cursor.pastLayout_advance {c : Cursor} {n : Nat}
    (h : layoutLength c.rest = n + layoutLength (c.rest.drop n)) :
    (c.advance n).pastLayout = c.pastLayout := by
  simp only [pastLayout, advance_advance, rest_advance, h]

namespace Reader

variable {c d : Cursor}

theorem run_comment (c : Cursor) :
    comment.run c =
      let d := c.advance (c.rest.takeWhile isBlank).length
      if ['/', '/'].isPrefixOf d.rest then
        .ok (some ()) (d.advance (d.rest.takeWhile inComment).length)
      else .ok none d := by
  simp only [comment, run_bind, run_many_next, Outcome.ok_andThen, run_ahead]
  split
  · simp only [run_bind, run_many_next, Outcome.ok_andThen, run_pure]
  · rfl

theorem comment_ne_error {f : Failure} : comment.run c ≠ .error f d := by
  rw [run_comment]
  simp only
  split <;> exact nofun

/-- Past the blanks there is the same layout left. -/
theorem pastLayout_blanks (c : Cursor) :
    (c.advance (c.rest.takeWhile isBlank).length).pastLayout = c.pastLayout :=
  Cursor.pastLayout_advance (layoutLength_takeWhile c.rest)

/-- With a comment two characters of the layout are taken at least. -/
theorem comment_eq_some {u : Unit} (h : comment.run c = .ok (some u) d) :
    c.offset + 2 ≤ d.offset ∧ d.pastLayout = c.pastLayout := by
  have hblanks := pastLayout_blanks c
  rw [run_comment] at h
  simp only at h
  split at h
  · rename_i hslashes
    cases h
    obtain ⟨text, htext⟩ := List.isPrefixOf_iff_prefix.mp hslashes
    obtain ⟨e, he⟩ : ∃ e, c.advance (c.rest.takeWhile isBlank).length = e := ⟨_, rfl⟩
    have hoffset : c.offset ≤ e.offset := by simp [← he]
    rw [he] at hblanks htext ⊢
    have hlength : (e.rest.takeWhile inComment).length =
        (text.takeWhile inComment).length + 2 := by
      rw [← htext]
      rfl
    have hlayout : layoutLength e.rest = (e.rest.takeWhile inComment).length
        + layoutLength (e.rest.drop (e.rest.takeWhile inComment).length) := by
      rw [hlength, ← htext]
      show layoutLength ('/' :: '/' :: text) = _
      rw [layoutLength_slashes, commentLength_takeWhile text]
      simp only [List.cons_append, List.nil_append, List.drop_succ_cons]
      omega
    refine ⟨?_, (Cursor.pastLayout_advance hlayout).trans hblanks⟩
    rw [Cursor.offset_advance, hlength]
    omega
  · cases h

/-- Behind the blanks there is none, so only a comment could go on with the layout. -/
theorem bare_blanks {text : Text}
    (h : ¬ ['/', '/'].isPrefixOf (text.drop (text.takeWhile isBlank).length) = true) :
    Bare (text.drop (text.takeWhile isBlank).length) := by
  have hdrop : text.drop (text.takeWhile isBlank).length = text.dropWhile isBlank := by
    calc text.drop (text.takeWhile isBlank).length
        = (text.takeWhile isBlank ++ text.dropWhile isBlank).drop
            (text.takeWhile isBlank).length := by rw [List.takeWhile_append_dropWhile]
      _ = text.dropWhile isBlank := List.drop_left
  have hhead := List.head?_dropWhile_not isBlank text
  rw [hdrop] at h ⊢
  cases hrest : text.dropWhile isBlank with
  | nil => exact bare_nil
  | cons x rest =>
    rw [hrest] at hhead h
    refine layoutLength_other hhead ?_
    rintro behind rfl rfl
    exact h rfl

/-- Where no comment is left the layout has come to its end. -/
theorem comment_eq_none (h : comment.run c = .ok none d) : d = c.pastLayout := by
  rw [run_comment] at h
  simp only at h
  split at h
  · cases h
  · rename_i hslashes
    cases h
    rw [← pastLayout_blanks c]
    exact (Cursor.pastLayout_of_bare (bare_blanks hslashes)).symm

theorem takes_comment : comment.Takes 2 := fun _ _ _ h => (comment_eq_some h).1

theorem consumes_comment : comment.Consumes := takes_comment.consumes Nat.two_pos

/-- Comment by comment all of the layout is taken. -/
theorem run_many_comment (c : Cursor) :
    ∃ comments, (many comment consumes_comment).run c = .ok comments c.pastLayout := by
  induction hn : c.rest.length using Nat.strongRecOn generalizing c with
  | _ n ih =>
    rw [run_many]
    cases hread : comment.run c with
    | error f d => exact absurd hread comment_ne_error
    | ok found d =>
      cases found with
      | none =>
        obtain rfl := comment_eq_none hread
        exact ⟨[], rfl⟩
      | some u =>
        have hshorter : d.rest.length < n := hn ▸ consumes_comment hread
        obtain ⟨later, hlater⟩ := ih d.rest.length hshorter d rfl
        rw [(comment_eq_some hread).2] at hlater
        exact ⟨u :: later, by simp only [Outcome.ok_andThen, hlater]⟩

/-! ## Strings -/

/-- Reads a character of a string that began at `start`, or its closing quote. -/
def letter (form : Form) (start : Nat) : Reader (Option Char) := do
  match ← next fun _ => true with
  | none => fail .unterminatedString (← spanSince start)
  | some x =>
    if x = quote then
      return none
    else if form = .plain ∧ x = backslash then
      match ← next fun _ => true with
      | none => fail .unterminatedString (← spanSince start)
      | some escaped =>
        match escape? escaped with
        | some decoded => return some decoded
        | none =>
          let stop ← offset
          fail (.invalidEscape escaped) ⟨stop - 2, stop⟩
    else
      return some x

/-- A letter is read by cases on what comes next, as the body of a string is. -/
theorem run_letter (form : Form) (start o : Nat) (x : Char) (text : Text) :
    (letter form start).run ⟨o, x :: text⟩ =
      if x = quote then .ok none ⟨o + 1, text⟩
      else if form = .plain ∧ x = backslash then
        match text with
        | [] => .error ⟨.unterminatedString, ⟨start, max start (o + 1)⟩⟩ ⟨o + 1, []⟩
        | escaped :: text =>
          match escape? escaped with
          | some decoded => .ok (some decoded) ⟨o + 2, text⟩
          | none => .error ⟨.invalidEscape escaped, ⟨o, o + 2⟩⟩ ⟨o + 2, text⟩
      else .ok (some x) ⟨o + 1, text⟩ := by
  simp only [letter, run_bind, run_next_cons, if_true, Outcome.ok_andThen]
  split
  · rfl
  · split
    · cases text with
      | nil => rfl
      | cons escaped text =>
        simp only [run_bind, run_next_cons, if_true, Outcome.ok_andThen]
        cases escape? escaped <;> rfl
    · rfl

theorem takes_letter (form : Form) (start : Nat) : (letter form start).Takes 1 := by
  rintro ⟨o, text⟩ x d h
  cases text with
  | nil => cases h
  | cons y text =>
    rw [run_letter] at h
    split at h
    · cases h
    · split at h
      · split at h
        · cases h
        · split at h
          · cases h
            exact Nat.le_succ _
          · cases h
      · cases h
        exact Nat.le_refl _

theorem consumes_letter (form : Form) (start : Nat) : (letter form start).Consumes :=
  (takes_letter form start).consumes Nat.one_pos

end Reader

namespace Quoted.Body

/-- What the letters of a body are read as at a cursor, for a string that began at `start`. -/
def letters (start : Nat) (c : Cursor) : Body → Outcome Text
  | closed contents length => .ok contents (c.advance length)
  | badEscape escaped length =>
    let d := c.advance length
    .error ⟨.invalidEscape escaped, ⟨d.offset - 2, d.offset⟩⟩ d
  | unterminated =>
    let d := c.advance c.rest.length
    .error ⟨.unterminatedString, d.spanSince start⟩ d

/-- A character in front is read first, and then the letters behind it. -/
theorem letters_cons {start width : Nat} {c : Cursor} (h : width ≤ c.rest.length) (x : Char)
    (b : Body) :
    ((b.letters start (c.advance width)).andThen fun text d => .ok (x :: text) d) =
      (b.cons x width).letters start c := by
  cases b with
  | closed contents length => simp [letters, cons, Nat.add_comm]
  | badEscape escaped length => simp [letters, cons, Nat.add_comm]
  | unterminated =>
    simp [letters, cons, Nat.add_sub_cancel' h]

end Quoted.Body

namespace Reader

/-- The body of a string is read as its letters are. -/
theorem quotedBodyAt_eq (form : Form) (start : Nat) (c : Cursor) :
    quotedBodyAt form start c =
      ((body form c.rest).letters start c).andThen fun text d => .ok (String.ofList text) d := by
  unfold quotedBodyAt
  cases body form c.rest <;> rfl

/-- Letter by letter the body of a string is read up to its closing quote, or up to what is wrong
with it. -/
theorem run_many_letter (form : Form) (start o : Nat) (text : Text) :
    (many (letter form start) (consumes_letter form start)).run ⟨o, text⟩ =
      (body form text).letters start ⟨o, text⟩ := by
  fun_induction body form text generalizing o with
  | case1 =>
    rw [run_many]
    rfl
  | case2 =>
    rw [run_many, run_letter]
    rfl
  | case3 x hquote =>
    -- a last character that is no quote closes nothing, also if it is a backslash
    have hend : (many (letter form start) (consumes_letter form start)).run ⟨o + 1, []⟩ =
        .error ⟨.unterminatedString, ⟨start, max start (o + 1)⟩⟩ ⟨o + 1, []⟩ := by
      rw [run_many]
      rfl
    rw [run_many, run_letter, if_neg hquote]
    split
    · rfl
    · rw [Outcome.ok_andThen]
      simp only [hend, Outcome.error_andThen]
      rfl
  | case4 following text =>
    rw [run_many, run_letter]
    rfl
  | case5 x following text hquote hescape decoded hdecoded ih =>
    rw [run_many, run_letter, if_neg hquote, if_pos hescape]
    simp only [hdecoded, Outcome.ok_andThen, ih]
    exact Body.letters_cons (c := ⟨o, x :: following :: text⟩) (by simp) decoded _
  | case6 x following text hquote hescape hnone =>
    rw [run_many, run_letter, if_neg hquote, if_pos hescape]
    simp only [hnone, Outcome.error_andThen]
    rfl
  | case7 x following text hquote hescape ih =>
    rw [run_many, run_letter, if_neg hquote, if_neg hescape]
    simp only [Outcome.ok_andThen, ih]
    exact Body.letters_cons (c := ⟨o, x :: following :: text⟩) (by simp) x _

end Reader

end Bindcheck
