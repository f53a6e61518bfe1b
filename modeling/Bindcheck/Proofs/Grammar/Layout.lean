/-
Bindcheck.Proofs.Grammar.Layout — layout as a language of its own, and
the proof that skipping layout moves over exactly that language.

`Layout` is what may stand before a token: blanks, and comments closed by
a line feed. `FinalLayout` is what may stand at the end of a text, where
a last comment may also run to the end. Neither mentions how many
characters are skipped; the two directions that tie them to
`layoutLength` are

* `Layout.layoutLength_append` and `FinalLayout.layoutLength_eq` — layout
  is skipped as a whole, whatever stands behind it.
* `exists_layout` — what is skipped at a cursor is layout.

A comment that nothing closes swallows all the text that is left, so the
two predicates differ only where no text follows.
-/
import Bindcheck.Lexical.Layout

namespace Bindcheck

namespace Grammar

/-! ## The two predicates -/

/-- Blanks, and comments that end at a line feed. -/
inductive Layout : Text → Prop where
  | nil : Layout []
  | blank {c : Char} {b : Text} (hc : isBlank c = true) (hb : Layout b) : Layout (c :: b)
  | comment {words b : Text} (hw : '\n' ∉ words) (hb : Layout b) :
    Layout ('/' :: '/' :: (words ++ '\n' :: b))

/-- Layout behind which the text ends: its last comment may run to the end. -/
inductive FinalLayout : Text → Prop where
  | closed {b : Text} (hb : Layout b) : FinalLayout b
  | comment {b words : Text} (hb : Layout b) (hw : '\n' ∉ words) :
    FinalLayout (b ++ '/' :: '/' :: words)

/-- No layout stands at the front of the text. -/
def Bare (text : Text) : Prop := layoutLength text = 0

theorem bare_nil : Bare [] := layoutLength_nil

/-- A character that neither is a blank nor begins a comment is not layout. -/
theorem bare_cons {c : Char} {text : Text} (hc : isBlank c = false) (hs : c ≠ '/') :
    Bare (c :: text) :=
  layoutLength_other hc fun _ h => absurd h hs

/-- A slash is not layout if no second slash follows. -/
theorem bare_slash {text : Text} (h : text.head? ≠ some '/') : Bare ('/' :: text) := by
  refine layoutLength_other (by decide) ?_
  rintro rest - rfl
  exact h rfl

theorem Layout.append {a b : Text} (ha : Layout a) (hb : Layout b) : Layout (a ++ b) := by
  induction ha with
  | nil => exact hb
  | blank hc _ ih => exact .blank hc ih
  | @comment words a hw _ ih =>
    have h : '/' :: '/' :: (words ++ '\n' :: a) ++ b
        = '/' :: '/' :: (words ++ '\n' :: (a ++ b)) := by simp
    rw [h]
    exact .comment hw ih

theorem Layout.head {c : Char} {b : Text} (h : Layout (c :: b)) : isBlank c = true ∨ c = '/' := by
  cases h with
  | blank hc _ => exact .inl hc
  | comment _ _ => exact .inr rfl

/-! ## Layout is skipped as a whole -/

/-- A comment extends over the line feed that closes it. -/
theorem commentLength_append {words : Text} (hw : '\n' ∉ words) (text : Text) :
    commentLength (words ++ '\n' :: text) = words.length + 1 + layoutLength text := by
  induction words with
  | nil =>
    simp only [List.nil_append, commentLength, if_pos]
    simp [Nat.add_comm]
  | cons c words ih =>
    obtain ⟨hc, hw⟩ := List.ne_and_not_mem_of_not_mem_cons hw
    simp only [List.cons_append, commentLength, if_neg (Ne.symm hc), ih hw, List.length_cons]
    omega

/-- A comment that nothing closes runs to the end. -/
theorem commentLength_of_not_mem {words : Text} (hw : '\n' ∉ words) :
    commentLength words = words.length := by
  induction words with
  | nil => simp [commentLength]
  | cons c words ih =>
    obtain ⟨hc, hw⟩ := List.ne_and_not_mem_of_not_mem_cons hw
    simp [commentLength, if_neg (Ne.symm hc), ih hw]

/-- Layout is skipped, and then the layout that follows. -/
theorem Layout.layoutLength_append {b : Text} (h : Layout b) (text : Text) :
    layoutLength (b ++ text) = b.length + layoutLength text := by
  induction h with
  | nil => simp
  | blank hc _ ih =>
    rw [List.cons_append, layoutLength_blank hc, ih, List.length_cons]
    omega
  | @comment words b hw _ ih =>
    have hsplit : '/' :: '/' :: (words ++ '\n' :: b) ++ text
        = '/' :: '/' :: (words ++ '\n' :: (b ++ text)) := by simp
    rw [hsplit, layoutLength_slashes, commentLength_append hw, ih]
    simp only [List.length_cons, List.length_append]
    omega

/-- Layout is all that is skipped in front of a bare text. -/
theorem Layout.layoutLength_of_bare {b text : Text} (h : Layout b) (ht : Bare text) :
    layoutLength (b ++ text) = b.length := by
  rw [h.layoutLength_append, ht, Nat.add_zero]

/-- At the end of a text all of the layout is skipped. -/
theorem FinalLayout.layoutLength_eq {b : Text} (h : FinalLayout b) :
    layoutLength b = b.length := by
  cases h with
  | closed hb => simpa using hb.layoutLength_append []
  | comment hb hw =>
    rw [hb.layoutLength_append, layoutLength_slashes, commentLength_of_not_mem hw]
    simp

theorem FinalLayout.append {a b : Text} (ha : Layout a) (hb : FinalLayout b) :
    FinalLayout (a ++ b) := by
  cases hb with
  | closed hb => exact .closed (ha.append hb)
  | comment hb hw =>
    rw [← List.append_assoc]
    exact .comment (ha.append hb) hw

/-- A line feed closes the last comment, if that is still open. -/
theorem FinalLayout.append_lineFeed {b : Text} (h : FinalLayout b) : Layout (b ++ ['\n']) := by
  cases h with
  | closed hb => exact hb.append (.blank (by decide) .nil)
  | @comment b words hb hw =>
    rw [List.append_assoc]
    exact hb.append (.comment hw .nil)

/-- A text splits into layout and a rest that begins with none in one way only. -/
theorem Layout.split_unique {a b s t : Text} (ha : Layout a) (hb : Layout b) (hs : Bare s)
    (ht : Bare t) (h : a ++ s = b ++ t) : a = b ∧ s = t := by
  have hlen : a.length = b.length := by
    rw [← ha.layoutLength_of_bare hs, ← hb.layoutLength_of_bare ht, h]
  exact List.append_inj h hlen

/-! ## What is skipped is layout -/

/-- Every text is layout and a rest that begins with none. -/
theorem exists_layout (text : Text) :
    ∃ b rest, text = b ++ rest ∧ Bare rest ∧ FinalLayout b ∧ (rest ≠ [] → Layout b) := by
  induction hn : text.length using Nat.strongRecOn generalizing text with
  | _ n ih =>
    match text with
    | [] => exact ⟨[], [], rfl, bare_nil, .closed .nil, fun _ => .nil⟩
    | c :: text =>
      simp only [List.length_cons] at hn
      rcases layout_cases c text with hc | ⟨rfl, text, rfl⟩ | ⟨hc, hs⟩
      · obtain ⟨b, rest, rfl, hr, hf, hl⟩ := ih text.length (by omega) text rfl
        exact ⟨c :: b, rest, rfl, hr, FinalLayout.append (.blank hc .nil) hf,
          fun h => .blank hc (hl h)⟩
      · by_cases hm : '\n' ∈ text
        · -- the comment is closed, so layout may follow it
          obtain ⟨words, text, rfl, hw⟩ := List.eq_append_cons_of_mem hm
          simp only [List.length_cons, List.length_append] at hn
          obtain ⟨b, rest, rfl, hr, hf, hl⟩ := ih text.length (by omega) text rfl
          refine ⟨'/' :: '/' :: (words ++ '\n' :: b), rest, by simp, hr, ?_,
            fun h => .comment hw (hl h)⟩
          simpa using FinalLayout.append (.comment hw .nil) hf
        · exact ⟨'/' :: '/' :: text, [], by simp, bare_nil, FinalLayout.comment .nil hm,
            fun h => absurd rfl h⟩
      · exact ⟨[], c :: text, rfl, layoutLength_other hc hs, .closed .nil, fun _ => .nil⟩

/-- How much layout a text begins with, once it is split into layout and a bare rest. -/
theorem layoutLength_eq_of_split {b rest : Text} (hr : Bare rest) (hf : FinalLayout b)
    (hl : rest ≠ [] → Layout b) : layoutLength (b ++ rest) = b.length := by
  by_cases h : rest = []
  · subst h
    simpa using hf.layoutLength_eq
  · exact (hl h).layoutLength_of_bare hr

end Grammar

/-! ## At a cursor -/

namespace Cursor

open Grammar

variable {c : Cursor}

theorem bare_pastLayout (c : Cursor) : Bare c.pastLayout.rest := layoutLength_drop c.rest

theorem pastLayout_of_bare (h : Bare c.rest) : c.pastLayout = c := by
  unfold pastLayout
  rw [h, advance_zero]

/-- A cursor at which a character stands, taken apart. -/
theorem eq_of_head? {x : Char} (h : c.rest.head? = some x) :
    c = ⟨c.offset, x :: c.rest.tail⟩ := by
  obtain ⟨t, ht⟩ := List.head?_eq_some_iff.mp h
  rw [ht, List.tail_cons, ← ht]

@[simp] theorem advance_append (o : Nat) (a text : Text) :
    (⟨o, a ++ text⟩ : Cursor).advance a.length = ⟨o + a.length, text⟩ := by
  simp [advance]

theorem pastLayout_append {b : Text} (h : Layout b) (o : Nat) (text : Text) :
    (⟨o, b ++ text⟩ : Cursor).pastLayout = (⟨o + b.length, text⟩ : Cursor).pastLayout := by
  simp only [pastLayout, h.layoutLength_append, ← advance_advance, advance_append]

/-- Layout is moved over, and nothing of a bare text behind it. -/
theorem pastLayout_append_of_bare {b text : Text} (h : Layout b) (ht : Bare text) (o : Nat) :
    (⟨o, b ++ text⟩ : Cursor).pastLayout = ⟨o + b.length, text⟩ := by
  rw [pastLayout_append h]
  exact pastLayout_of_bare ht

theorem pastLayout_of_final {b : Text} (h : FinalLayout b) (o : Nat) :
    (⟨o, b⟩ : Cursor).pastLayout = ⟨o + b.length, []⟩ := by
  simp [pastLayout, h.layoutLength_eq, advance]

/-- What stands between a cursor and the place after its layout is layout. -/
theorem exists_layout (c : Cursor) :
    ∃ b, FinalLayout b ∧ (c.pastLayout.rest ≠ [] → Layout b) ∧
      c.rest = b ++ c.pastLayout.rest ∧ c.pastLayout.offset = c.offset + b.length := by
  obtain ⟨b, rest, hc, hr, hf, hl⟩ := Grammar.exists_layout c.rest
  have hlen : layoutLength c.rest = b.length := by
    rw [hc]
    exact layoutLength_eq_of_split hr hf hl
  have hrest : c.pastLayout.rest = rest := by
    unfold pastLayout
    rw [rest_advance, hlen, hc, List.drop_left]
  refine ⟨b, hf, ?_, ?_, ?_⟩
  · rwa [hrest]
  · rw [hrest, hc]
  · unfold pastLayout
    rw [offset_advance, hlen]

/-- In front of a character that comes next there is layout that is closed. -/
theorem exists_layout_of_cons {x : Char} {rest : Text} (h : c.pastLayout.rest = x :: rest) :
    ∃ b, Layout b ∧ c.rest = b ++ x :: rest ∧ c.pastLayout.offset = c.offset + b.length := by
  obtain ⟨b, -, hb, hrest, hoffset⟩ := c.exists_layout
  rw [h] at hb hrest
  exact ⟨b, hb (List.cons_ne_nil x rest), hrest, hoffset⟩

end Cursor

end Bindcheck
