/-
Bindcheck.Proofs.Spacing.Layout — layout that is put into layout.

A piece of layout may stand anywhere in layout but between two characters
of one comment: there its first line feed would make code of the words
behind it. `SplitsComment` names these offsets, by the automaton that
tells comments from code.

* `Layout.insert` and `FinalLayout.insert` — at every other place layout
  stays layout.
* `FinalLayout.append_final` — behind the end of a program any layout may
  follow, although a last comment that is open swallows its first line.

Right behind the words of a comment the piece is swallowed up to its own
first line feed, and what is behind that is layout (`Layout.behind_lineFeed`).
-/
import Bindcheck.Proofs.Refusal.Place

namespace Bindcheck

namespace Grammar

/-! ## Places inside a comment -/

/-- The character in front and the given next one belong to one comment. -/
def Mode.Splits : Mode → Option Char → Prop
  | .slash _, next => next = some '/'
  | .comment _, next => next ≠ none ∧ next ≠ some '\n'
  | .code _, _ | .string _, _ | .escape, _ => False

instance : (m : Mode) → (next : Option Char) → Decidable (m.Splits next)
  | .slash _, next => inferInstanceAs (Decidable (next = some '/'))
  | .comment _, next => inferInstanceAs (Decidable (next ≠ none ∧ next ≠ some '\n'))
  | .code _, _ | .string _, _ | .escape, _ => inferInstanceAs (Decidable False)

/-- The offset lies between two characters of one comment. -/
def SplitsComment (source : Text) (offset : Nat) : Prop :=
  (Mode.before source offset).Splits source[offset]?

instance (source : Text) (offset : Nat) : Decidable (SplitsComment source offset) :=
  inferInstanceAs (Decidable (Mode.Splits _ _))

/-- At the end of a text no comment is split. -/
theorem Mode.not_splits_none (m : Mode) : ¬ m.Splits none := by
  cases m <;> simp [Splits]

/-- The places behind the first slash of a comment and in front of its end split it. -/
theorem splits_comment {words : Text} (hw : '\n' ∉ words) (rest : Text) {k : Nat}
    (hk : k < words.length + 1) :
    ((Mode.code .plain).run (('/' :: '/' :: (words ++ rest)).take (k + 1))).Splits
      ('/' :: '/' :: (words ++ rest))[k + 1]? := by
  cases k with
  | zero => rfl
  | succ k =>
    have hlt : k < words.length := Nat.lt_of_succ_lt_succ hk
    have hcomment : (Mode.code .plain).run (('/' :: '/' :: (words ++ rest)).take (k + 2))
        = .comment .plain := by
      rw [List.take_succ_cons, List.take_succ_cons,
        List.take_append_of_le_length (Nat.le_of_lt hlt)]
      exact Mode.run_comment fun hmem => hw (List.mem_of_mem_take hmem)
    have hnext : ('/' :: '/' :: (words ++ rest))[k + 2]? = some words[k] := by
      simp [List.getElem?_append_left hlt]
    have hword : words[k] ≠ '\n' := fun heq => hw (heq ▸ List.getElem_mem hlt)
    rw [hcomment, hnext]
    exact ⟨Option.some_ne_none _, fun heq => hword (Option.some.inj heq)⟩

/-- Behind a text that is code up to its end, a place splits a comment of the text that is left. -/
theorem splits_append_right {u : Text} (hu : Neutral u) (v : Text) (k : Nat) :
    ((Mode.code .plain).run ((u ++ v).take (u.length + k))).Splits (u ++ v)[u.length + k]?
      ↔ ((Mode.code .plain).run (v.take k)).Splits v[k]? := by
  rw [List.take_length_add_append, Mode.run_append, hu,
    List.getElem?_append_right (Nat.le_add_right _ _), Nat.add_sub_cancel_left]

/-! ## Behind a line feed -/

/-- A text has one first line feed. -/
theorem append_lineFeed_inj {u v a b : Text} (hu : '\n' ∉ u) (hv : '\n' ∉ v)
    (h : u ++ '\n' :: a = v ++ '\n' :: b) : u = v ∧ a = b := by
  rcases List.append_eq_append_iff.mp h with ⟨w, rfl, hw⟩ | ⟨w, rfl, hw⟩
  · cases w with
    | nil => simpa using hw
    | cons c w =>
      obtain ⟨rfl, -⟩ := List.cons.inj hw
      simp at hv
  · cases w with
    | nil => simpa using hw.symm
    | cons c w =>
      obtain ⟨rfl, -⟩ := List.cons.inj hw
      simp at hu

/-- Behind the first line feed of layout there is layout. -/
theorem Layout.behind_lineFeed {text : Text} (h : Layout text) {words b : Text}
    (htext : text = words ++ '\n' :: b) (hw : '\n' ∉ words) : Layout b := by
  induction h generalizing words with
  | nil => simp at htext
  | @blank c rest _ hb ih =>
    cases words with
    | nil =>
      obtain ⟨-, rfl⟩ := List.cons.inj htext
      exact hb
    | cons d words => exact ih (List.cons.inj htext).2 fun hmem => hw (List.mem_cons_of_mem d hmem)
  | @comment line rest hline hb _ =>
    have hslashes : '\n' ∉ '/' :: '/' :: line := by simp [hline]
    have heq : ('/' :: '/' :: line) ++ '\n' :: rest = words ++ '\n' :: b := htext
    obtain rfl := (append_lineFeed_inj hslashes hw heq).2
    exact hb

/-- What a line feed makes layout of may stand at the end of a text. -/
theorem FinalLayout.of_lineFeed {text : Text} (h : Layout text) {b : Text}
    (htext : text = b ++ ['\n']) : FinalLayout b := by
  induction h generalizing b with
  | nil => simp at htext
  | blank hc _ ih =>
    cases b with
    | nil => exact .closed .nil
    | cons d b =>
      obtain ⟨rfl, hrest⟩ := List.cons.inj htext
      exact FinalLayout.append (.blank hc .nil) (ih hrest)
  | @comment words rest hw hrest ih =>
    rcases List.eq_nil_or_concat rest with rfl | ⟨rest, d, rfl⟩
    · have heq : ('/' :: '/' :: words) ++ ['\n'] = b ++ ['\n'] := htext
      obtain rfl := List.append_cancel_right heq
      exact .comment .nil hw
    · have heq : ('/' :: '/' :: (words ++ '\n' :: rest)) ++ [d] = b ++ ['\n'] := by
        simpa using htext
      obtain ⟨rfl, hd⟩ := List.append_inj' heq rfl
      have hline : Layout ('/' :: '/' :: (words ++ ['\n'])) := .comment hw .nil
      have hfinal := FinalLayout.append hline (ih (by rw [List.concat_eq_append, hd]))
      simpa using hfinal

/-- Layout with a line feed in it closes the comment in front of it. -/
theorem FinalLayout.append_closed {a b : Text} (ha : FinalLayout a) (hb : Layout b)
    (hline : '\n' ∈ b) : Layout (a ++ b) := by
  cases ha with
  | closed ha => exact ha.append hb
  | @comment a words ha hw =>
    obtain ⟨line, rest, rfl, hnot⟩ := List.eq_append_cons_of_mem hline
    have hwords : '\n' ∉ words ++ line := by simp [hw, hnot]
    have hclosed : Layout ('/' :: '/' :: ((words ++ line) ++ '\n' :: rest)) :=
      .comment hwords (hb.behind_lineFeed rfl hnot)
    have happend := ha.append hclosed
    simpa using happend

/-- Any layout may follow at the end of a text. -/
theorem FinalLayout.append_final {a b : Text} (ha : FinalLayout a) (hb : FinalLayout b) :
    FinalLayout (a ++ b) := by
  have hclosed : Layout (a ++ (b ++ ['\n'])) := ha.append_closed hb.append_lineFeed (by simp)
  exact .of_lineFeed hclosed (by simp)

/-! ## Insertion -/

/-- A text with another put in at an offset. -/
def insertAt (offset : Nat) (b text : Text) : Text :=
  text.take offset ++ (b ++ text.drop offset)

@[simp] theorem insertAt_zero (b text : Text) : insertAt 0 b text = b ++ text := by
  simp [insertAt]

@[simp] theorem insertAt_cons_succ (offset : Nat) (b text : Text) (c : Char) :
    insertAt (offset + 1) b (c :: text) = c :: insertAt offset b text := by
  simp [insertAt]

theorem insertAt_append_left {offset : Nat} {u : Text} (h : offset ≤ u.length) (b v : Text) :
    insertAt offset b (u ++ v) = insertAt offset b u ++ v := by
  simp [insertAt, List.take_append_of_le_length h, List.drop_append_of_le_length h]

theorem insertAt_append_right (offset : Nat) (b u v : Text) :
    insertAt (u.length + offset) b (u ++ v) = u ++ insertAt offset b v := by
  simp [insertAt, List.take_length_add_append, List.drop_length_add_append]

@[simp] theorem length_insertAt (offset : Nat) (b text : Text) :
    (insertAt offset b text).length = text.length + b.length := by
  simp [insertAt]
  omega

/-- Layout that is put into layout, splitting no comment, is layout with it. -/
theorem Layout.insert {a b : Text} (ha : Layout a) (hb : Layout b) {k : Nat} (hk : k ≤ a.length)
    (hsplit : ¬ ((Mode.code .plain).run (a.take k)).Splits a[k]?) : Layout (insertAt k b a) := by
  induction ha generalizing k with
  | nil =>
    obtain rfl : k = 0 := by simpa using hk
    simpa using hb
  | @blank c a hc ha ih =>
    cases k with
    | zero =>
      rw [insertAt_zero]
      exact hb.append (.blank hc ha)
    | succ k =>
      have hnext : (Mode.code .plain).next c = .code .plain := if_pos hc
      rw [insertAt_cons_succ]
      refine .blank hc (ih (Nat.le_of_succ_le_succ hk) ?_)
      simpa [hnext] using hsplit
  | @comment words a hw ha ih =>
    cases k with
    | zero =>
      rw [insertAt_zero]
      exact hb.append (.comment hw ha)
    | succ k =>
      rcases Nat.lt_or_ge k (words.length + 1) with hin | hbehind
      · exact absurd (splits_comment hw _ hin) hsplit
      · obtain ⟨j, rfl⟩ := Nat.exists_eq_add_of_le hbehind
        cases j with
        | zero =>
          -- at the end of its line the comment takes in what is put there
          have hopen : FinalLayout ([] ++ '/' :: '/' :: words) := .comment .nil hw
          have hbehind : Layout (b ++ '\n' :: a) := hb.append (.blank (by decide) ha)
          have hclosed := hopen.append_closed hbehind (by simp)
          have heq : insertAt (words.length + 1 + 1) b ('/' :: '/' :: (words ++ '\n' :: a))
              = '/' :: '/' :: (words ++ (b ++ '\n' :: a)) := by
            simpa using insertAt_append_right 0 b ('/' :: '/' :: words) ('\n' :: a)
          rw [Nat.add_zero, heq]
          simpa using hclosed
        | succ j =>
          have hline : Layout ('/' :: '/' :: (words ++ ['\n'])) := .comment hw .nil
          have hlength : words.length + 1 + (j + 1) + 1
              = ('/' :: '/' :: (words ++ ['\n'])).length + j := by
            simp
            omega
          have htext : '/' :: '/' :: (words ++ '\n' :: a)
              = '/' :: '/' :: (words ++ ['\n']) ++ a := by simp
          rw [hlength, htext] at hk hsplit ⊢
          rw [insertAt_append_right]
          refine hline.append (ih ?_ ?_)
          · rw [List.length_append] at hk
            exact Nat.le_of_add_le_add_left hk
          · rwa [splits_append_right hline.neutral] at hsplit

/-- Layout that is put into the layout at the end of a text may stand there with it. -/
theorem FinalLayout.insert {a b : Text} (ha : FinalLayout a) (hb : Layout b) {k : Nat}
    (hk : k ≤ a.length) (hsplit : ¬ ((Mode.code .plain).run (a.take k)).Splits a[k]?) :
    FinalLayout (insertAt k b a) := by
  cases ha with
  | closed ha => exact .closed (ha.insert hb hk hsplit)
  | @comment a words ha hw =>
    rcases Nat.lt_or_ge k (a.length + 1) with hin | hbehind
    · have hle : k ≤ a.length := Nat.le_of_lt_succ hin
      rw [insertAt_append_left hle]
      refine .comment (ha.insert hb hle ?_) hw
      rcases Nat.lt_or_eq_of_le hle with hlt | rfl
      · rwa [List.take_append_of_le_length hle, List.getElem?_append_left hlt] at hsplit
      · rw [List.getElem?_eq_none (Nat.le_refl _)]
        exact Mode.not_splits_none _
    · obtain ⟨j, rfl⟩ := Nat.exists_eq_add_of_le hbehind
      rcases Nat.lt_or_ge j (words.length + 1) with hj | hj
      · rw [Nat.add_assoc, Nat.add_comm 1 j, splits_append_right ha.neutral] at hsplit
        have hcomment := splits_comment hw [] hj
        rw [List.append_nil] at hcomment
        exact absurd hcomment hsplit
      · have hend : a.length + 1 + j = (a ++ '/' :: '/' :: words).length + 0 := by
          simp at hk ⊢
          omega
        have heq := insertAt_append_right 0 b (a ++ '/' :: '/' :: words) []
        rw [hend]
        rw [List.append_nil, insertAt_zero, List.append_nil] at heq
        rw [heq]
        exact FinalLayout.append_final (.comment ha hw) (.closed hb)

end Grammar

end Bindcheck
