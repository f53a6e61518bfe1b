/-
Bindcheck.Proofs.Spacing.Written — the derivation of a source with an
insertion.

A tree with the insertion is spelled as its places demand. Two things
could go wrong. The insertion could split a comment: the automaton knows
of each piece of layout where it stands (`Place`), so a piece takes the
insertion only where that is ruled out (`Place.layout_within`). And a
slash could come to stand behind a division, but the insertion begins
with a blank.

Types and nesting do not depend on layout, so `Derivation.respaced` is a
derivation of the source with the insertion.
-/
import Bindcheck.Proofs.Spacing.Tree

namespace Bindcheck

namespace Grammar

variable {e : Insertion} {source a rest w : Text} {o : Nat}

/-! ## Layout with the insertion -/

theorem Place.behind (h : Place source ⟨o, w ++ rest⟩) (hw : Neutral w) :
    Place source ⟨o + w.length, rest⟩ :=
  h.neutral rfl rfl hw

/-- Layout at a place of a source is split in two where no comment of the source is. -/
theorem Place.not_splits (h : Place source ⟨o, a ++ rest⟩) {k : Nat} (hk : k ≤ a.length)
    (hsplit : ¬ SplitsComment source (o + k)) :
    ¬ ((Mode.code .plain).run (a.take k)).Splits a[k]? := by
  cases a with
  | nil => exact Mode.not_splits_none _
  | cons c a =>
    cases k with
    | zero => exact id
    | succ k =>
      rcases Nat.lt_or_eq_of_le hk with hlt | heq
      · have hready : (Mode.before source o).Ready (c :: a.take k) :=
          h.ready (List.cons_ne_nil _ _)
        have hrest : c :: a ++ rest = (c :: a.take k) ++ (a.drop k ++ rest) := by
          simp [← List.append_assoc]
        have hlength : (c :: a.take k).length = k + 1 := by
          simpa using Nat.min_eq_left (Nat.le_of_succ_le_succ hk)
        have hbefore := h.before_eq hrest
        rw [hlength, hready.run_eq (List.cons_ne_nil _ _)] at hbefore
        have hnext : source[o + (k + 1)]? = (c :: a)[k + 1]? := by
          rw [← List.getElem?_drop, h.reached.drop_eq]
          exact List.getElem?_append_left hlt
        unfold SplitsComment at hsplit
        rw [hbefore, hnext] at hsplit
        exact hsplit
      · rw [List.getElem?_eq_none (Nat.le_of_eq heq.symm)]
        exact Mode.not_splits_none _

/-- Layout at a place of a source is layout with the insertion. -/
theorem Place.layout_within (h : Place source ⟨o, a ++ rest⟩) (ha : Layout a)
    (hsplit : ¬ SplitsComment source e.place) : Layout (e.within o a) := by
  unfold Insertion.within
  split
  · have hk : e.place - o ≤ a.length := by omega
    refine ha.insert e.layout hk (h.not_splits hk ?_)
    rwa [Nat.add_sub_of_le (by omega)]
  · exact ha

theorem Place.finalLayout_within (h : Place source ⟨o, a⟩) (ha : FinalLayout a)
    (hsplit : ¬ SplitsComment source e.place) : FinalLayout (e.within o a) := by
  rw [← List.append_nil a] at h
  unfold Insertion.within
  split
  · have hk : e.place - o ≤ a.length := by omega
    refine ha.insert e.layout hk (h.not_splits hk ?_)
    rwa [Nat.add_sub_of_le (by omega)]
  · exact ha

/-- No slash comes first in a text with the insertion, if none did. -/
theorem Insertion.head?_within_ne_slash (h : a.head? ≠ some '/') :
    (e.within o a).head? ≠ some '/' := by
  have hblank : e.blank ≠ '/' := by
    intro heq
    have hb := e.blank_isBlank
    rw [heq] at hb
    exact absurd hb (by decide)
  unfold Insertion.within
  split
  · cases e.place - o with
    | zero => simpa [Insertion.text] using hblank
    | succ k =>
      cases a with
      | nil => simpa [insertAt, Insertion.text] using hblank
      | cons c a => simpa using h
  · exact h

/-- Where an operand follows, only the text in front of it can begin with a slash. -/
theorem OperandTree.head?_ne_slash_iff {t : OperandTree} (h : t.Written) (w : Text) :
    (w ++ t.text).head? ≠ some '/' ↔ w.head? ≠ some '/' := by
  obtain ⟨c, tail, ht, hc⟩ := OperandTree.head h
  cases w with
  | nil => simpa [ht] using hc.not_special.2.1
  | cons d w => simp

/-! ## Trees with the insertion -/

mutual

theorem OperandTree.written_respaced (t : OperandTree) (hw : t.Written) {o : Nat} {rest : Text}
    (h : Place source ⟨o, t.text ++ rest⟩) (hsplit : ¬ SplitsComment source e.place) :
    (t.respaced e o).Written := by
  match t with
  | .group opening inner closing =>
    obtain ⟨hopening, hinner, hclosing⟩ := hw
    have hsource : Place source
        ⟨o, ['('] ++ (opening ++ (inner.text ++ (closing ++ (')' :: rest))))⟩ := by
      simpa [OperandTree.text] using h
    have hopened := hsource.behind rfl
    have hbegin := hopened.behind hopening.neutral
    have hend := hbegin.behind (ExprTree.neutral hinner)
    exact ⟨hopened.layout_within hopening hsplit,
      ExprTree.written_respaced inner hinner hbegin hsplit, hend.layout_within hclosing hsplit⟩
  | .string literal contents => exact hw
  | .integer digits => exact hw
  | .name letters => exact hw

theorem ExprTree.written_respaced (t : ExprTree) (hw : t.Written) {o : Nat} {rest : Text}
    (h : Place source ⟨o, t.text ++ rest⟩) (hsplit : ¬ SplitsComment source e.place) :
    (t.respaced e o).Written := by
  match t with
  | .mk first links =>
    rw [ExprTree.text, List.append_assoc] at h
    have hbehind := h.behind (OperandTree.neutral hw.1)
    exact ⟨OperandTree.written_respaced first hw.1 h hsplit,
      ChainTree.written_respaced links hw.2 hbehind hsplit⟩

theorem ChainTree.written_respaced (t : ChainTree) (hw : t.Written) {o : Nat} {rest : Text}
    (h : Place source ⟨o, t.text ++ rest⟩) (hsplit : ¬ SplitsComment source e.place) :
    (t.respaced e o).Written := by
  match t with
  | .nil => trivial
  | .cons before op after operand links =>
    obtain ⟨hbefore, hop, hslash, hafter, hoperand, hlinks⟩ := hw
    have hsource : Place source ⟨o, before ++ (op.symbol.toList
        ++ (after ++ (operand.text ++ (links.text ++ rest))))⟩ := by
      simpa [ChainTree.text] using h
    have hsymbol := hsource.behind hbefore.neutral
    have hsigned : Place source ⟨o + before.length + op.symbol.toList.length,
        after ++ (operand.text ++ (links.text ++ rest))⟩ := by
      refine hsymbol.step rfl rfl fun _ => ready_symbol hop ?_
      rw [OperandTree.head?_append hoperand]
      exact hslash
    have hnext := hsigned.behind hafter.neutral
    have hlater := hnext.behind (OperandTree.neutral hoperand)
    have hwritten := OperandTree.written_respaced operand hoperand hnext hsplit
    refine ⟨hsource.layout_within hbefore hsplit, hop, ?_, hsigned.layout_within hafter hsplit,
      hwritten, ChainTree.written_respaced links hlinks hlater hsplit⟩
    intro hdivide
    rw [OperandTree.head?_ne_slash_iff hwritten]
    exact Insertion.head?_within_ne_slash
      ((OperandTree.head?_ne_slash_iff hoperand after).mp (hslash hdivide))

end

mutual

/-- Layout does not change how deep groups are nested. -/
@[simp] theorem OperandTree.nesting_respaced (t : OperandTree) (o : Nat) :
    (t.respaced e o).nesting = t.nesting := by
  match t with
  | .group opening inner closing =>
    simp [OperandTree.respaced, OperandTree.nesting, ExprTree.nesting_respaced inner]
  | .string literal contents => rfl
  | .integer digits => rfl
  | .name letters => rfl

@[simp] theorem ExprTree.nesting_respaced (t : ExprTree) (o : Nat) :
    (t.respaced e o).nesting = t.nesting := by
  match t with
  | .mk first links =>
    simp [ExprTree.respaced, ExprTree.nesting, OperandTree.nesting_respaced first,
      ChainTree.nesting_respaced links]

@[simp] theorem ChainTree.nesting_respaced (t : ChainTree) (o : Nat) :
    (t.respaced e o).nesting = t.nesting := by
  match t with
  | .nil => rfl
  | .cons before op after operand links =>
    simp [ChainTree.respaced, ChainTree.nesting, OperandTree.nesting_respaced operand,
      ChainTree.nesting_respaced links]

end

mutual

/-- Layout does not change the types. -/
@[simp] theorem OperandTree.hasType_respaced (t : OperandTree) (o : Nat) (scope : Scope) (ty : Ty) :
    (t.respaced e o).HasType scope ty ↔ t.HasType scope ty := by
  match t with
  | .group opening inner closing => exact ExprTree.hasType_respaced inner _ scope ty
  | .string literal contents => exact Iff.rfl
  | .integer digits => exact Iff.rfl
  | .name letters => exact Iff.rfl

@[simp] theorem ExprTree.hasType_respaced (t : ExprTree) (o : Nat) (scope : Scope) (ty : Ty) :
    (t.respaced e o).HasType scope ty ↔ t.HasType scope ty := by
  match t with
  | .mk first links =>
    exact and_congr (OperandTree.hasType_respaced first _ scope ty)
      (ChainTree.hasType_respaced links _ scope ty)

@[simp] theorem ChainTree.hasType_respaced (t : ChainTree) (o : Nat) (scope : Scope) (ty : Ty) :
    (t.respaced e o).HasType scope ty ↔ t.HasType scope ty := by
  match t with
  | .nil => exact Iff.rfl
  | .cons before op after operand links =>
    exact and_congr (OperandTree.hasType_respaced operand _ scope ty)
      (ChainTree.hasType_respaced links _ scope ty)

end

/-! ## Programs with the insertion -/

theorem AssignmentTree.written_respaced {t : AssignmentTree} (hw : t.Written)
    (h : Place source ⟨o, t.text ++ rest⟩) (hsplit : ¬ SplitsComment source e.place) :
    (t.respaced e o).Written := by
  have hsource : Place source ⟨o, t.before ++ (t.name ++ (t.beforeSign ++ (['=']
      ++ (t.afterSign ++ (t.expr.text ++ (t.beforeEnd ++ ';' :: rest))))))⟩ := by
    simpa [AssignmentTree.text, AssignmentTree.tail] using h
  have hname := hsource.behind hw.before.neutral
  have hsign := hname.behind hw.name.neutral
  have hsigned := (hsign.behind hw.beforeSign.neutral).behind rfl
  have hexpr := hsigned.behind hw.afterSign.neutral
  have hend := hexpr.behind (ExprTree.neutral hw.expr)
  constructor
  case before => exact hsource.layout_within hw.before hsplit
  case name => exact hw.name
  case beforeSign => exact hsign.layout_within hw.beforeSign hsplit
  case afterSign => exact hsigned.layout_within hw.afterSign hsplit
  case expr => exact ExprTree.written_respaced t.expr hw.expr hexpr hsplit
  case nesting => simpa [AssignmentTree.respaced] using hw.nesting
  case beforeEnd => exact hend.layout_within hw.beforeEnd hsplit

theorem written_respacedAll {trees : List AssignmentTree} (hw : ∀ t ∈ trees, t.Written)
    (h : Place source ⟨o, trees.flatMap AssignmentTree.text ++ rest⟩)
    (hsplit : ¬ SplitsComment source e.place) : ∀ t ∈ respacedAll e o trees, t.Written := by
  induction trees generalizing o with
  | nil => simp [respacedAll]
  | cons t trees ih =>
    obtain ⟨htw, hlater⟩ := List.forall_mem_cons.mp hw
    rw [List.flatMap_cons, List.append_assoc] at h
    exact List.forall_mem_cons.mpr ⟨AssignmentTree.written_respaced htw h hsplit,
      ih hlater (h.behind (AssignmentTree.neutral htw))⟩

theorem wellTyped_respacedAll {scope : Scope} {trees : List AssignmentTree}
    (h : WellTyped scope trees) (o : Nat) : WellTyped scope (respacedAll e o trees) := by
  induction trees generalizing scope o with
  | nil => trivial
  | cons t trees ih =>
    obtain ⟨ty, htype, hlater⟩ := h
    exact ⟨ty, (ExprTree.hasType_respaced t.expr _ scope ty).mpr htype, ih hlater _⟩

/-- The text of a derivation stands at the front of its source. -/
theorem Derivation.place (d : Derivation source) :
    Place source ⟨0, d.assignments.flatMap AssignmentTree.text ++ d.trailing⟩ := by
  rw [d.text_eq]
  exact place_start source

/-- The source with the insertion. -/
def Insertion.into (e : Insertion) (source : Text) : Text := insertAt e.place e.text source

/-- The derivation of a source with the insertion between two tokens and in no comment. -/
def Derivation.respaced (d : Derivation source) (hplace : e.place ≤ source.length)
    (hbetween : e.Between d.lexemes) (hsplit : ¬ SplitsComment source e.place) :
    Derivation (e.into source) where
  assignments := respacedAll e 0 d.assignments
  trailing := e.within (0 + (d.assignments.flatMap AssignmentTree.text).length) d.trailing
  text_eq := by
    have hwhole : e.within 0 source = e.into source := by
      refine if_pos ⟨Nat.zero_le _, ?_⟩
      rwa [Nat.zero_add]
    rw [← inside_respacedAll d.written 0 hbetween, ← Insertion.within_append, d.text_eq, hwhole]
  written := written_respacedAll d.written d.place hsplit
  trailing_layout :=
    (d.place.behind (neutral_assignments d.written)).finalLayout_within d.trailing_layout hsplit
  typed := wellTyped_respacedAll d.typed 0

/-- The derivation of a source with any layout at its end. -/
def Derivation.extended (d : Derivation source) {b : Text} (hb : FinalLayout b) :
    Derivation (source ++ b) where
  assignments := d.assignments
  trailing := d.trailing ++ b
  text_eq := by rw [← List.append_assoc, d.text_eq]
  written := d.written
  trailing_layout := d.trailing_layout.append_final hb
  typed := d.typed

end Grammar

end Bindcheck
