/-
Bindcheck.Proofs.Spacing.Tree — a tree whose text has more layout in one
place.

An `Insertion` is layout that begins with a blank, and the offset where
it is put. A derivation is told its own offset and puts the layout where
it belongs: `respaced` goes down the tree and offers every piece of layout
the insertion, and only the piece that reaches over its place takes it.

That the text of the new tree is the old text with the insertion is shown
in chunks, each one token with the layout in front of it. A chunk takes
the insertion if the place lies from its beginning on and before its end
(`Insertion.inside`), so the chunks of a text share it out between them
(`inside_append`), and no place between two tokens belongs to both.

What begins at an offset begins at `Insertion.start` of it afterwards, and
what ends there at `Insertion.stop`. They only differ at the place itself.
-/
import Bindcheck.Proofs.Spacing.Layout

namespace Bindcheck

namespace Grammar

/-! ## Insertions -/

/-- Layout that begins with a blank, and the offset where it is put. -/
structure Insertion where
  place : Nat
  blank : Char
  more : Text
  blank_isBlank : isBlank blank = true
  more_layout : Layout more

namespace Insertion

variable {e : Insertion} {u v a w : Text} {o : Nat}

/-- What is put in. -/
def text (e : Insertion) : Text := e.blank :: e.more

theorem layout (e : Insertion) : Layout e.text := .blank e.blank_isBlank e.more_layout

/-- Where something begins afterwards that began at an offset. -/
def start (e : Insertion) (offset : Nat) : Nat :=
  if e.place ≤ offset then offset + e.text.length else offset

/-- Where something ends afterwards that ended at an offset. -/
def stop (e : Insertion) (offset : Nat) : Nat :=
  if e.place < offset then offset + e.text.length else offset

/-- The span afterwards of what had a span. -/
def span (e : Insertion) (span : Span) : Span := ⟨e.start span.start, e.stop span.stop⟩

/-- A text at an offset, with the insertion if the place is in it or at one of its ends. -/
def within (e : Insertion) (o : Nat) (w : Text) : Text :=
  if o ≤ e.place ∧ e.place ≤ o + w.length then insertAt (e.place - o) e.text w else w

/-- A text at an offset, with the insertion if the place is in it or where it begins. -/
def inside (e : Insertion) (o : Nat) (w : Text) : Text :=
  if o ≤ e.place ∧ e.place < o + w.length then insertAt (e.place - o) e.text w else w

/-- No span reaches over the place. -/
def Between (e : Insertion) (spans : List Span) : Prop :=
  ∀ s ∈ spans, ¬ (s.start < e.place ∧ e.place < s.stop)

instance (e : Insertion) (spans : List Span) : Decidable (e.Between spans) :=
  inferInstanceAs (Decidable (∀ s ∈ spans, _))

@[simp] theorem between_cons {s : Span} {spans : List Span} :
    e.Between (s :: spans) ↔ ¬ (s.start < e.place ∧ e.place < s.stop) ∧ e.Between spans := by
  simp [Between]

@[simp] theorem between_append {s t : List Span} :
    e.Between (s ++ t) ↔ e.Between s ∧ e.Between t := List.forall_mem_append

/-! ## Chunks -/

@[simp] theorem inside_nil (e : Insertion) (o : Nat) : e.inside o [] = [] := by
  refine if_neg ?_
  rintro ⟨hle, hlt⟩
  exact Nat.lt_irrefl _ (Nat.lt_of_le_of_lt hle hlt)

/-- Two texts in a row share the insertion out between them. -/
theorem inside_append (e : Insertion) (o : Nat) (u v : Text) :
    e.inside o (u ++ v) = e.inside o u ++ e.inside (o + u.length) v := by
  unfold inside
  rw [List.length_append]
  by_cases hu : o ≤ e.place ∧ e.place < o + u.length
  · rw [if_pos hu, if_pos (by omega), if_neg (by omega), insertAt_append_left (by omega)]
  · by_cases hv : o + u.length ≤ e.place ∧ e.place < o + u.length + v.length
    · have hplace : e.place - o = u.length + (e.place - (o + u.length)) := by omega
      rw [if_neg hu, if_pos hv, if_pos (by omega), hplace, insertAt_append_right]
    · rw [if_neg hu, if_neg hv, if_neg (by omega)]

/-- Behind a text that does not take the insertion, layout takes it also at its end. -/
theorem within_append (e : Insertion) (o : Nat) (u v : Text) :
    e.within o (u ++ v) = e.inside o u ++ e.within (o + u.length) v := by
  unfold inside within
  rw [List.length_append]
  by_cases hu : o ≤ e.place ∧ e.place < o + u.length
  · rw [if_pos hu, if_pos (by omega), if_neg (by omega), insertAt_append_left (by omega)]
  · by_cases hv : o + u.length ≤ e.place ∧ e.place ≤ o + u.length + v.length
    · have hplace : e.place - o = u.length + (e.place - (o + u.length)) := by omega
      rw [if_neg hu, if_pos hv, if_pos (by omega), hplace, insertAt_append_right]
    · rw [if_neg hu, if_neg hv, if_neg (by omega)]

/-- The layout of a chunk takes the insertion, unless the place is in its token. -/
theorem inside_token (hw : w ≠ [])
    (h : ¬ (o + a.length < e.place ∧ e.place < o + a.length + w.length)) :
    e.inside o (a ++ w) = e.within o a ++ w := by
  have hpos := List.length_pos_iff.mpr hw
  unfold inside within
  rw [List.length_append]
  by_cases ha : o ≤ e.place ∧ e.place ≤ o + a.length
  · rw [if_pos ha, if_pos (by omega), insertAt_append_left (by omega)]
  · rw [if_neg ha, if_neg (by omega)]

/-- Layout leads from where the text before it ends to where the text behind it begins. -/
theorem stop_add_within (e : Insertion) (o : Nat) (a : Text) :
    e.stop o + (e.within o a).length = e.start (o + a.length) := by
  unfold stop within start
  rw [apply_ite List.length, length_insertAt]
  split <;> split <;> split <;> omega

/-- A text without layout at its end leads from one end to the next. -/
theorem stop_add_inside (e : Insertion) (o : Nat) (w : Text) :
    e.stop o + (e.inside o w).length = e.stop (o + w.length) := by
  unfold stop inside
  rw [apply_ite List.length, length_insertAt]
  split <;> split <;> split <;> omega

/-- A token leads from where it begins to where it ends. -/
theorem start_add_length (hw : w ≠ []) (h : ¬ (o < e.place ∧ e.place < o + w.length)) :
    e.start o + w.length = e.stop (o + w.length) := by
  have hpos := List.length_pos_iff.mpr hw
  unfold start stop
  split <;> split <;> omega

end Insertion

/-! ## Lexemes -/

mutual

/-- The spans of the tokens of an operand, its text beginning at an offset. -/
def OperandTree.lexemes (o : Nat) : OperandTree → List Span
  | .group opening inner closing =>
    .single o :: (inner.lexemes (o + 1 + opening.length)
      ++ [.single (o + 1 + opening.length + inner.text.length + closing.length)])
  | .string literal _ => [⟨o, o + literal.length⟩]
  | .integer digits => [⟨o, o + digits.length⟩]
  | .name letters => [⟨o, o + letters.length⟩]

def ExprTree.lexemes (o : Nat) : ExprTree → List Span
  | .mk first links => first.lexemes o ++ links.lexemes (o + first.text.length)

def ChainTree.lexemes (o : Nat) : ChainTree → List Span
  | .nil => []
  | .cons before op after operand links =>
    let symbol := o + before.length
    let opened := symbol + op.symbol.toList.length + after.length
    ⟨symbol, symbol + op.symbol.toList.length⟩ :: (operand.lexemes opened
      ++ links.lexemes (opened + operand.text.length))

end

/-- The spans of the tokens of an assignment, the layout in front of it beginning at an offset. -/
def AssignmentTree.lexemes (o : Nat) (t : AssignmentTree) : List Span :=
  let name := o + t.before.length
  ⟨name, name + t.name.length⟩ :: .single (name + t.name.length + t.beforeSign.length)
    :: (t.expr.lexemes (t.exprStart o)
      ++ [.single (t.exprStart o + t.expr.text.length + t.beforeEnd.length)])

def lexemesAll (o : Nat) : List AssignmentTree → List Span
  | [] => []
  | t :: trees => t.lexemes o ++ lexemesAll (o + t.text.length) trees

/-- The spans of the tokens of a source, in order. -/
def Derivation.lexemes {source : Text} (d : Derivation source) : List Span :=
  lexemesAll 0 d.assignments

/-! ## The tree with the insertion -/

mutual

/-- The operand with the insertion in its layout, its text beginning at an offset. -/
def OperandTree.respaced (e : Insertion) (o : Nat) : OperandTree → OperandTree
  | .group opening inner closing =>
    .group (e.within (o + 1) opening) (inner.respaced e (o + 1 + opening.length))
      (e.within (o + 1 + opening.length + inner.text.length) closing)
  | .string literal contents => .string literal contents
  | .integer digits => .integer digits
  | .name letters => .name letters

def ExprTree.respaced (e : Insertion) (o : Nat) : ExprTree → ExprTree
  | .mk first links => .mk (first.respaced e o) (links.respaced e (o + first.text.length))

def ChainTree.respaced (e : Insertion) (o : Nat) : ChainTree → ChainTree
  | .nil => .nil
  | .cons before op after operand links =>
    let signed := o + before.length + op.symbol.toList.length
    .cons (e.within o before) op (e.within signed after)
      (operand.respaced e (signed + after.length))
      (links.respaced e (signed + after.length + operand.text.length))

end

/-- The assignment with the insertion, the layout in front of it beginning at an offset. -/
def AssignmentTree.respaced (e : Insertion) (o : Nat) (t : AssignmentTree) : AssignmentTree where
  before := e.within o t.before
  name := t.name
  beforeSign := e.within (o + t.before.length + t.name.length) t.beforeSign
  afterSign := e.within (o + t.before.length + t.name.length + t.beforeSign.length + 1) t.afterSign
  expr := t.expr.respaced e (t.exprStart o)
  beforeEnd := e.within (t.exprStart o + t.expr.text.length) t.beforeEnd

def respacedAll (e : Insertion) (o : Nat) : List AssignmentTree → List AssignmentTree
  | [] => []
  | t :: trees => t.respaced e o :: respacedAll e (o + t.text.length) trees

/-! ## The text of the tree -/

section Text

variable {e : Insertion}

mutual

/-- An operand, with layout in front of it, is a row of chunks. -/
theorem OperandTree.inside_text (t : OperandTree) (hw : t.Written) (o : Nat) (a : Text)
    (h : e.Between (t.lexemes (o + a.length))) :
    e.inside o (a ++ t.text) = e.within o a ++ (t.respaced e (o + a.length)).text := by
  match t with
  | .group opening inner closing =>
    simp only [OperandTree.lexemes, Insertion.between_cons, Insertion.between_append] at h
    obtain ⟨hopen, hinner, hclose, -⟩ := h
    have hsplit : a ++ (OperandTree.group opening inner closing).text
        = (a ++ ['(']) ++ ((opening ++ inner.text) ++ (closing ++ [')'])) := by
      simp [OperandTree.text]
    have hfirst : e.inside o (a ++ ['(']) = e.within o a ++ ['('] :=
      Insertion.inside_token (List.cons_ne_nil _ _) hopen
    have hmiddle := ExprTree.inside_text inner hw.2.1 _ opening hinner
    have hlast := Insertion.inside_token (List.cons_ne_nil ')' []) hclose
    rw [hsplit, Insertion.inside_append, hfirst, Insertion.inside_append]
    simp only [List.length_append, List.length_singleton, ← Nat.add_assoc]
    rw [hmiddle, hlast]
    simp [OperandTree.respaced, OperandTree.text]
  | .string literal contents =>
    obtain ⟨c, tail, hl, -⟩ := StringLiteral.head hw
    simp only [OperandTree.lexemes, Insertion.between_cons] at h
    exact Insertion.inside_token (by simp [OperandTree.text, hl]) h.1
  | .integer digits =>
    obtain ⟨⟨c, tail, hd, -⟩, -⟩ := hw
    simp only [OperandTree.lexemes, Insertion.between_cons] at h
    exact Insertion.inside_token (by simp [OperandTree.text, hd]) h.1
  | .name letters =>
    obtain ⟨c, tail, hl, -⟩ := hw
    simp only [OperandTree.lexemes, Insertion.between_cons] at h
    exact Insertion.inside_token (by simp [OperandTree.text, hl]) h.1

theorem ExprTree.inside_text (t : ExprTree) (hw : t.Written) (o : Nat) (a : Text)
    (h : e.Between (t.lexemes (o + a.length))) :
    e.inside o (a ++ t.text) = e.within o a ++ (t.respaced e (o + a.length)).text := by
  match t with
  | .mk first links =>
    obtain ⟨hfirst, hlinks⟩ := Insertion.between_append.mp h
    have hleft := OperandTree.inside_text first hw.1 o a hfirst
    have hright := ChainTree.inside_text links hw.2 _ hlinks
    rw [ExprTree.text, ← List.append_assoc, Insertion.inside_append, hleft, List.length_append,
      ← Nat.add_assoc, hright]
    simp [ExprTree.respaced, ExprTree.text]

theorem ChainTree.inside_text (t : ChainTree) (hw : t.Written) (o : Nat)
    (h : e.Between (t.lexemes o)) : e.inside o t.text = (t.respaced e o).text := by
  match t with
  | .nil => exact Insertion.inside_nil e o
  | .cons before op after operand links =>
    obtain ⟨-, hop, -, -, hoperand, hlinks⟩ := hw
    simp only [ChainTree.lexemes, Insertion.between_cons, Insertion.between_append] at h
    obtain ⟨hsymbol, hnext, hlater⟩ := h
    obtain ⟨c, tail, hs, -⟩ := symbol_head hop
    have hsplit : (ChainTree.cons before op after operand links).text
        = (before ++ op.symbol.toList) ++ ((after ++ operand.text) ++ links.text) := by
      simp [ChainTree.text]
    have hleft : e.inside o (before ++ op.symbol.toList) = e.within o before ++ op.symbol.toList :=
      Insertion.inside_token (by simp [hs]) hsymbol
    have hmiddle := OperandTree.inside_text operand hoperand _ after hnext
    have hright := ChainTree.inside_text links hlinks _ hlater
    rw [hsplit, Insertion.inside_append, hleft, Insertion.inside_append]
    simp only [List.length_append, ← Nat.add_assoc]
    rw [hmiddle, hright]
    simp [ChainTree.respaced, ChainTree.text]

end

/-- An assignment is a row of chunks. -/
theorem AssignmentTree.inside_text (t : AssignmentTree) (hw : t.Written) (o : Nat)
    (h : e.Between (t.lexemes o)) : e.inside o t.text = (t.respaced e o).text := by
  simp only [AssignmentTree.lexemes, Insertion.between_cons, Insertion.between_append] at h
  obtain ⟨hname, hsign, hexpr, hend, -⟩ := h
  obtain ⟨c, tail, hl, -⟩ := hw.name
  have hsplit : t.text = (t.before ++ t.name) ++ ((t.beforeSign ++ ['='])
      ++ ((t.afterSign ++ t.expr.text) ++ (t.beforeEnd ++ [';']))) := by
    simp [AssignmentTree.text, AssignmentTree.tail]
  have hfirst : e.inside o (t.before ++ t.name) = e.within o t.before ++ t.name :=
    Insertion.inside_token (by simp [hl]) hname
  have hsecond := Insertion.inside_token (List.cons_ne_nil '=' []) hsign
  have hthird := ExprTree.inside_text t.expr hw.expr _ t.afterSign hexpr
  have hlast := Insertion.inside_token (List.cons_ne_nil ';' []) hend
  rw [hsplit, Insertion.inside_append, hfirst, Insertion.inside_append e _ (t.beforeSign ++ _),
    Insertion.inside_append e _ (t.afterSign ++ _)]
  simp only [List.length_append, List.length_singleton, ← Nat.add_assoc]
  unfold AssignmentTree.exprStart at hthird hlast
  rw [hsecond, hthird, hlast]
  simp [AssignmentTree.respaced, AssignmentTree.text, AssignmentTree.tail,
    AssignmentTree.exprStart]

theorem inside_respacedAll {trees : List AssignmentTree} (hw : ∀ t ∈ trees, t.Written) (o : Nat)
    (h : e.Between (lexemesAll o trees)) :
    e.inside o (trees.flatMap AssignmentTree.text)
      = (respacedAll e o trees).flatMap AssignmentTree.text := by
  induction trees generalizing o with
  | nil => exact Insertion.inside_nil e o
  | cons t trees ih =>
    obtain ⟨ht, hlater⟩ := Insertion.between_append.mp h
    obtain ⟨htw, hrest⟩ := List.forall_mem_cons.mp hw
    rw [List.flatMap_cons, Insertion.inside_append, AssignmentTree.inside_text t htw o ht,
      ih hrest _ hlater]
    simp [respacedAll]

end Text

end Grammar

end Bindcheck
