/-
Bindcheck.Proofs.RawMark — the mark of a raw string and its quote.

Raw strings are meant to be written with the mark right in front of the
quote. `KeepsMarks` is that rule at a cursor, and `OpensString` is what it
says of a literal. The mark and the quote are read as two tokens, so there
may be layout between them: `MarkApart`. This is the only way in which
the rule is broken (`keepsMarks_iff`). The literals of a program open as
they should, those excepted whose mark stands apart
(`StringLiteral.opens_iff`).
-/
import Bindcheck.Proofs.Quotation
import Bindcheck.Proofs.Reparse

namespace Bindcheck

open Grammar Reader Quoted

/-- The text begins with a quote, or with the mark of a raw string and the quote side by side. -/
def OpensString (text : Text) : Prop := ['\''] <+: text ∨ ['@', '\''] <+: text

/-- The text begins with the mark of a raw string, and its quote stands behind some layout. -/
def MarkApart (text : Text) : Prop :=
  ∃ gap behind, Layout gap ∧ gap ≠ [] ∧ text = '@' :: (gap ++ '\'' :: behind)

/-- The rule for the mark at a cursor. A string that is read there opens with a quote or with mark
and quote, and a mark with anything else behind it is refused for want of the quote. -/
structure KeepsMarks (c : Cursor) : Prop where
  opens : ∀ s d, quoted.run c = .ok (some s) d →
    ∃ literal, c.pastLayout.rest = literal ++ d.rest ∧ OpensString literal
  refused : ∀ text, c.pastLayout.rest = '@' :: text → text.head? ≠ some '\'' →
    ∃ f d, quoted.run c = .error f d ∧ f.diagnostic.kind = .scan ∧
      f.diagnostic.message = "Expected ''' after '@'"

namespace Grammar

variable {gap text : Text}

/-- Layout does not begin with a quote. -/
theorem Layout.head?_ne_quote (h : Layout gap) (hne : gap ≠ []) (text : Text) :
    (gap ++ text).head? ≠ some '\'' := by
  obtain ⟨x, gap, rfl⟩ := List.exists_cons_of_ne_nil hne
  rintro ⟨rfl⟩
  exact absurd h.head (by decide)

/-- A mark that stands apart does not open a string. -/
theorem not_opensString_of_apart (h : MarkApart text) : ¬ OpensString text := by
  obtain ⟨gap, behind, hgap, hne, rfl⟩ := h
  rintro (hquote | hmark)
  · simp at hquote
  · obtain ⟨rest, hrest⟩ := hmark
    have hhead : (gap ++ '\'' :: behind).head? = some '\'' := by
      rw [← (List.cons.inj hrest).2]
      rfl
    exact hgap.head?_ne_quote hne _ hhead

/-- A literal opens a string, unless its mark stands apart. -/
theorem StringLiteral.opens_iff {literal v : Text} (h : StringLiteral literal v) :
    OpensString literal ↔ ¬ MarkApart literal := by
  constructor
  · exact fun hopens hapart => not_opensString_of_apart hapart hopens
  · intro hnot
    cases h with
    | @plain w v _ => exact .inl ⟨w ++ [quote], rfl⟩
    | @raw gap w v hgap _ =>
      by_cases hne : gap = []
      · subst hne
        exact .inr ⟨w ++ [quote], rfl⟩
      · exact absurd ⟨gap, w ++ [quote], hgap, hne, rfl⟩ hnot

end Grammar

variable {c : Cursor}

/-! ## The rule at a cursor -/

/-- Where the mark stands apart the rule is broken: the string goes on behind the layout. -/
theorem not_keepsMarks_of_apart (h : MarkApart c.pastLayout.rest) : ¬ KeepsMarks c := by
  obtain ⟨gap, behind, hgap, hne, hrest⟩ := h
  intro hkeeps
  obtain ⟨f, d, hread, -, hmessage⟩ := hkeeps.refused _ hrest (hgap.head?_ne_quote hne _)
  have hmark : c.pastLayout = ⟨c.pastLayout.offset, rawMark :: (gap ++ quote :: behind)⟩ :=
    congrArg (Cursor.mk c.pastLayout.offset) hrest
  have hbare : Bare (quote :: behind) := bare_cons (by decide) (by decide)
  rw [run_quoted_rawMark hmark (Cursor.pastLayout_append_of_bare hgap hbare _)] at hread
  rcases Outcome.andThen_eq_error.mp hread with hbody | ⟨s, e, -, hbody⟩
  · rcases quotedBodyAt_eq_error hbody with ⟨e, n, hbad, rfl⟩ | rfl
    · obtain ⟨-, -, -, -, hform, -⟩ := spelling_of_badEscape hbad
      cases hform
    · have hwords : "Unterminated string" = "Expected ''' after '@'" := hmessage
      exact absurd hwords (by decide)
  · cases hbody

/-- The rule holds at a cursor exactly if no mark stands apart there. -/
theorem keepsMarks_iff : KeepsMarks c ↔ ¬ MarkApart c.pastLayout.rest := by
  refine ⟨fun hkeeps hapart => not_keepsMarks_of_apart hapart hkeeps, fun hnot => ?_⟩
  constructor
  case opens =>
    intro s d hread
    obtain ⟨literal, v, hliteral, -, hrest, -⟩ := quoted_eq_some hread
    refine ⟨literal, hrest, hliteral.opens_iff.mpr ?_⟩
    rintro ⟨gap, behind, hgap, hne, rfl⟩
    refine hnot ⟨gap, behind ++ d.rest, hgap, hne, ?_⟩
    rw [hrest]
    simp
  case refused =>
    intro text htext hhead
    have hmark : c.pastLayout = ⟨c.pastLayout.offset, rawMark :: text⟩ :=
      congrArg (Cursor.mk c.pastLayout.offset) htext
    have hquote : (⟨c.pastLayout.offset + 1, text⟩ : Cursor).pastLayout.rest.head?
        ≠ some quote := by
      intro hbehind
      obtain ⟨behind, hcons⟩ := List.head?_eq_some_iff.mp hbehind
      obtain ⟨gap, hgap, hsplit, -⟩ := Cursor.exists_layout_of_cons hcons
      obtain rfl : text = gap ++ quote :: behind := hsplit
      refine hnot ⟨gap, behind, hgap, ?_, htext⟩
      rintro rfl
      exact hhead rfl
    exact ⟨_, _, run_quoted_rawMark_error hmark hquote, rfl, rfl⟩

/-! ## The literals of a program -/

/-- The span of a string literal of a program cuts out a literal. -/
theorem exists_literal_of_hasLeaf {source : Text} {code : Code} {s : Statement} {v : String}
    {span : Span} (h : Code.ofProgram source = .ok code) (hs : s ∈ code.statements)
    (hleaf : s.expr.HasLeaf (.literal (.str v) span)) :
    ∃ contents, StringLiteral (span.slice source) contents := by
  obtain ⟨t, scope, start, hw, htext, hx⟩ := exists_tree_of_hasLeaf h hs hleaf
  have hslice : span.slice source = t.text := htext
  rw [hslice]
  cases t with
  | string literal contents => exact ⟨contents, hw⟩
  | integer digits => cases hx
  | name letters => cases hx
  | group opening inner closing => cases hx

/-- The rule for the mark of a raw string is kept at a cursor exactly if no mark stands apart
there, and so it is with the string literals of a program that is accepted: all of them open with
a quote or with mark and quote, those excepted whose mark stands apart. -/
theorem rawMark_adjacent_iff (c : Cursor) :
    (KeepsMarks c ↔ ¬ MarkApart c.pastLayout.rest) ∧
    ∀ source code s v span, Code.ofProgram source = .ok code → s ∈ code.statements →
      s.expr.HasLeaf (.literal (.str v) span) →
      (OpensString (span.slice source) ↔ ¬ MarkApart (span.slice source)) := by
  refine ⟨keepsMarks_iff, ?_⟩
  intro source code s v span hcode hs hleaf
  obtain ⟨contents, hliteral⟩ := exists_literal_of_hasLeaf hcode hs hleaf
  exact hliteral.opens_iff

/-- A blank behind the quote does not part the mark from it. Where no quote stands the mark is refused,
as it should be. -/
theorem rawMark_adjacent_blank :
    KeepsMarks (Cursor.start "@;".toList) ∧
      ∃ code, Code.ofProgram "a=@' b';".toList = .ok code ∧
        OpensString ((⟨2, 7⟩ : Span).slice "a=@' b';".toList) := by
  have hpast : (Cursor.start "@;".toList).pastLayout = Cursor.start "@;".toList :=
    Cursor.pastLayout_of_bare (bare_cons (by decide) (by decide))
  have hnone : ¬ MarkApart "@;".toList := by
    rintro ⟨gap, behind, -, -, htext⟩
    have hmem : '\'' ∈ "@;".toList := by simp [htext]
    exact absurd hmem (by decide)
  let leaf : Operand := .literal (.str " b") ⟨2, 7⟩
  have hcode : Code.ofProgram "a=@' b';".toList
      = .ok ⟨[.assignment ⟨"a", .mk leaf .nil ⟨2, 7⟩, ⟨0, 8⟩⟩], .ofList [("a", ⟨some "a", .str⟩)]⟩ := by
    decide +kernel
  have hleaf : (Expr.mk leaf .nil ⟨2, 7⟩).HasLeaf leaf :=
    ⟨trivial, _, .self _, List.mem_cons_self⟩
  have happart : ¬ MarkApart ((⟨2, 7⟩ : Span).slice "a=@' b';".toList) := by
    rintro ⟨gap, behind, hgap, hne, htext⟩
    refine hgap.head?_ne_quote hne ('\'' :: behind) ?_
    rw [← (List.cons.inj htext).2]
    rfl
  refine ⟨(rawMark_adjacent_iff (Cursor.start "@;".toList)).1.mpr ?_, _, hcode,
    ((rawMark_adjacent_iff (Cursor.start [])).2 _ _ _ _ _ hcode List.mem_cons_self hleaf).mpr
      happart⟩
  rwa [hpast]

/-- A mark may stand apart, and the string is read all the same: a blank parts the two at a cursor,
a comment in a program. -/
theorem rawMark_apart_accepted :
    let c := Cursor.start "@ 'a'".toList
    let program := "x=@//'\n'a';".toList
    quoted.run c = .ok (some "a") ⟨5, []⟩ ∧ ¬ KeepsMarks c ∧
      ∃ code s, Code.ofProgram program = .ok code ∧ s ∈ code.statements ∧
        s.expr.HasLeaf (.literal (.str "a") ⟨2, 10⟩) ∧
        ¬ OpensString ((⟨2, 10⟩ : Span).slice program) := by
  intro c program
  have hpast : c.pastLayout = c := Cursor.pastLayout_of_bare (bare_cons (by decide) (by decide))
  have hapart : MarkApart c.pastLayout.rest := by
    rw [hpast]
    exact ⟨[' '], "a'".toList, .blank (by decide) .nil, by decide, rfl⟩
  let leaf : Operand := .literal (.str "a") ⟨2, 10⟩
  have hcode : Code.ofProgram program
      = .ok ⟨[.assignment ⟨"x", .mk leaf .nil ⟨2, 10⟩, ⟨0, 11⟩⟩],
          .ofList [("x", ⟨some "x", .str⟩)]⟩ := by
    decide +kernel
  have hslice : (⟨2, 10⟩ : Span).slice program = '@' :: ("//'\n".toList ++ '\'' :: "a'".toList) :=
    rfl
  have hcomment : Layout ('/' :: '/' :: (['\''] ++ '\n' :: [])) := .comment (by decide) .nil
  refine ⟨by decide +kernel, not_keepsMarks_of_apart hapart, _, _, hcode, List.mem_cons_self,
    ⟨trivial, _, .self _, List.mem_cons_self⟩, ?_⟩
  exact not_opensString_of_apart ⟨_, _, hcomment, by decide, hslice⟩

end Bindcheck
