/-
Bindcheck.Proofs.Refusal.Program — programs are refused by the rules.

Reading a program stops in an assignment that is refused or at text that
is none, over the names that the statements before it have bound. What
is refused in the expression of the assignment is refused by the rules of
`Refusal`; `ProgramRefusal` adds the rules for what is around it. They
say where the statements end and what has been read of the next one.

`programRefusal_of_ofProgram` says that these rules are all: a program is
refused by one of them, with the code that a checker of the source has
read when it stops.
-/
import Mathlib.Control.Monad.Basic
import Bindcheck.Proofs.Completed
import Bindcheck.Proofs.Refusal.Cause

namespace Bindcheck

open Grammar Reader Quoted

namespace Reader

variable {c d : Cursor} {f : Failure} {table : SymbolTable}

/-- An assignment is refused behind its name, in its expression, or behind that. -/
theorem assignment_eq_error (h : (assignment table).run c = .error f d) :
    ∃ name e, (token .name).run c = .ok (some name) e ∧
      ((e.pastLayout.rest.head? ≠ some '=' ∧
          f = ⟨.equalsExpected name, Span.single e.pastLayout.offset⟩) ∨
        ∃ g, (accept '=').run e = .ok true g ∧
          ((expr table).run g = .error f d ∨
            ∃ x k, (expr table).run g = .ok x k ∧ k.pastLayout.rest.head? ≠ some ';' ∧
              f = ⟨.semicolonExpected, Span.single k.pastLayout.offset⟩)) := by
  have hread : (after .name (assignmentTo table c.pastLayout.offset)).run c.pastLayout
      = .error f d := h
  obtain ⟨name, e, hname, htail⟩ := after_eq_error hread
  rw [run_token, Cursor.pastLayout_pastLayout, ← run_token] at hname
  refine ⟨name, e, hname, ?_⟩
  rcases Outcome.andThen_eq_error.mp htail with hsign | ⟨signed, g, hsign, htail⟩
  · exact absurd hsign accept_ne_error
  cases signed with
  | false =>
    obtain ⟨hhead, rfl⟩ := accept_eq_false hsign
    simp only [Bool.false_eq_true, if_false, run_failHere, Cursor.pastLayout_pastLayout] at htail
    cases htail
    exact .inl ⟨hhead, rfl⟩
  | true =>
    refine .inr ⟨g, hsign, ?_⟩
    rcases Outcome.andThen_eq_error.mp htail with hexpr | ⟨x, k, hexpr, htail⟩
    · exact .inl hexpr
    rcases Outcome.andThen_eq_error.mp htail with hend | ⟨ended, k', hend, htail⟩
    · exact absurd hend accept_ne_error
    cases ended with
    | false =>
      obtain ⟨hhead, rfl⟩ := accept_eq_false hend
      simp only [Bool.false_eq_true, if_false, run_failHere, Cursor.pastLayout_pastLayout] at htail
      cases htail
      exact .inr ⟨x, k, hexpr, hhead, rfl⟩
    | true => cases htail

end Reader

/-- Up to the end of a span stands what stands up to its start, and the span. -/
theorem Span.take_stop (span : Span) (h : span.start ≤ span.stop) (source : Text) :
    source.take span.stop = source.take span.start ++ span.slice source := by
  rw [slice, ← List.take_add, Nat.add_sub_cancel' h]

namespace Grammar

variable {source : Text} {code : Code} {c d : Cursor} {f : Failure}

/-! ## What is refused around an expression -/

/-- What it means that a program is refused, cause by cause, with the code of its statements. -/
inductive ProgramRefusal (source : Text) (code : Code) : Failure → Prop where
  /-- An expression is refused over the names of the statements. -/
  | expression {f : Failure} (h : Refusal source code.symbols f) : ProgramRefusal source code f
  /-- Behind the statements stands a name, and behind that no equals sign. -/
  | equalsExpected {offset : Nat} {before gap : Text} {name : String} (hnext : NextAt source offset)
    (hbefore : Layout before) (hname : IsName name.toList) (hgap : FinalLayout gap)
    (htext : source.take offset = source.take code.stop ++ (before ++ (name.toList ++ gap)))
    (hhead : source[offset]? ≠ some '=') :
    ProgramRefusal source code ⟨.equalsExpected name, Span.single offset⟩
  /-- Behind the statements stands an assignment, up to its semicolon, which is missing. -/
  | semicolonExpected {offset : Nat} {before name gap value : Text} (hnext : NextAt source offset)
    (hbefore : Layout before) (hname : IsName name) (hgap : Layout gap)
    (htext : source.take offset
      = source.take code.stop ++ (before ++ (name ++ (gap ++ '=' :: value))))
    (hvalue : ∃ ty, inferType value code.symbols = .ok ty) (hhead : source[offset]? ≠ some ';') :
    ProgramRefusal source code ⟨.semicolonExpected, Span.single offset⟩
  /-- A whole program stands before the span, which begins no assignment and runs to the end. -/
  | assignmentExpected {span : Span} (hcovers : Covers source span)
    (hstop : span.stop = source.length)
    (hprogram : Code.ofProgram (source.take span.start) = .ok code)
    (hhead : ∀ x ∈ source[span.start]?, Token.isNameStart x = false) :
    ProgramRefusal source code ⟨.assignmentExpected, span⟩

/-- An assignment is refused by the rules. -/
theorem programRefusal_of_assignment (hc : Place source c) (hstop : code.stop = c.offset)
    (hread : (assignment code.symbols).run c = .error f d) : ProgramRefusal source code f := by
  obtain ⟨name, e, hname, hrefused⟩ := assignment_eq_error hread
  obtain ⟨before, letters, hbefore, hletters, rfl, hrest, -, hoffset⟩ := exists_layout_of_name hname
  have hfront : c.rest = (before ++ letters) ++ e.rest := by rw [hrest, List.append_assoc]
  have hend : e.offset = c.offset + (before ++ letters).length := by
    rw [hoffset, List.length_append, Nat.add_assoc]
  have he : Place source e := hc.neutral hfront hend (hbefore.neutral.append hletters.neutral)
  have htake := hc.reached.take_append hfront hend
  rw [← hstop] at htake
  rcases hrefused with ⟨hhead, rfl⟩ | ⟨g, hsign, hrefused⟩
  · obtain ⟨gap, hgap, -, hgapRest, hgapOffset⟩ := e.exists_layout
    have hplace := he.pastLayout
    refine .equalsExpected (hplace.nextAt e.bare_pastLayout) hbefore ?_ hgap ?_ ?_
    · rwa [String.toList_ofList]
    · rw [he.reached.take_append hgapRest hgapOffset, htake, String.toList_ofList]
      simp only [List.append_assoc]
    · rwa [← hplace.reached.head?_rest]
  · have hg := OperandPlace.of_accept he hsign rfl (by decide)
    rcases hrefused with hexpr | ⟨x, k, hexpr, hhead, rfl⟩
    · exact .expression (refusal_of_expr hg hexpr)
    · obtain ⟨gap, hgap, hgapRest, hgapOffset⟩ := exists_layout_of_accept hsign
      obtain ⟨t, trailing, ht⟩ := (finds_operand code.symbols nestingLimit).expression hexpr
      obtain ⟨hk, hty⟩ := ht.inferType_slice (Nat.le_refl _) hg.toPlace
      rw [Cursor.pastLayout_of_bare ht.bare] at hhead ⊢
      have hreach : g.offset ≤ k.offset := by
        have hstart := g.reaches_pastLayout.offset_le
        have hlength := ht.offset_eq
        omega
      have hsignRest : e.rest = (gap ++ ['=']) ++ g.rest := by simp [hgapRest]
      have hsignOffset : g.offset = e.offset + (gap ++ ['=']).length := by
        simp only [List.length_append, List.length_cons, List.length_nil]
        omega
      refine .semicolonExpected (hk.nextAt ht.bare) hbefore hletters hgap ?_ hty ?_
      · have hslice := Span.take_stop ⟨g.offset, k.offset⟩ hreach source
        simp only at hslice
        rw [hslice, he.reached.take_append hsignRest hsignOffset, htake]
        simp
      · rwa [← hk.reached.head?_rest]

/-- Text that is left behind a program, and begins no assignment, is refused by the rules. -/
theorem programRefusal_of_rest {trees : List AssignmentTree} (hw : ∀ t ∈ trees, t.Written)
    (ht : WellTyped (fun _ => none) trees)
    (hcode : code = ⟨(elaborateAll (fun _ => none) 0 trees).map .assignment,
      SymbolTable.empty.bindAll (elaborateAll (fun _ => none) 0 trees)⟩)
    (hc : Place source c) (htake : source.take c.offset = trees.flatMap AssignmentTree.text)
    (hne : c.pastLayout.rest ≠ [])
    (hhead : ∀ x ∈ c.pastLayout.rest.head?, Token.isNameStart x = false) :
    ProgramRefusal source code ⟨.assignmentExpected, c.pastLayout.restSpan⟩ := by
  have hplace := hc.pastLayout
  have hlength := hplace.reached.offset_add_length
  have hpos := List.length_pos_iff.mpr hne
  have hspan : c.pastLayout.restSpan = ⟨c.pastLayout.offset, c.pastLayout.offset
      + c.pastLayout.rest.length⟩ := by
    simp only [Cursor.restSpan, Cursor.finish, Span.mk.injEq, true_and]
    omega
  rw [hspan]
  refine .assignmentExpected (hplace.covers c.bare_pastLayout (List.append_nil _).symm hne) hlength
    ?_ ?_
  · obtain ⟨b, hb, -, hrest, hoffset⟩ := c.exists_layout
    have hfront : trees.flatMap AssignmentTree.text ++ b = source.take c.pastLayout.offset := by
      rw [hc.reached.take_append hrest hoffset, htake]
    rw [hcode]
    exact Derivation.ofProgram_eq ⟨trees, b, hfront, hw, hb, ht⟩
  · rwa [← hplace.reached.head?_rest]

/-- The statements that a checker has read when it stops end at a place, and a program is refused
for what stands there. -/
theorem exists_place_of_ofProgram (h : Code.ofProgram source = .error f) :
    ∃ trees c, (∀ t ∈ trees, AssignmentTree.Written t) ∧ WellTyped (fun _ => none) trees ∧
      Place source c ∧ source.take c.offset = trees.flatMap AssignmentTree.text ∧
      let found := elaborateAll (fun _ => none) 0 trees
      let code : Code := ⟨found.map .assignment, SymbolTable.empty.bindAll found⟩
      (Checker.ofSource source).readProgram.2.code = code ∧ code.stop = c.offset ∧
        ((∃ d, (assignment code.symbols).run c = .error f d) ∨
          (assignment code.symbols).run c = .ok none c.pastLayout ∧ c.pastLayout.rest ≠ [] ∧
            f = ⟨.assignmentExpected, c.pastLayout.restSpan⟩) := by
  obtain ⟨trees, rest, hw, ht, hsource, hstop, hread⟩ :=
    Progress.exists_stop SymbolTable.empty (Cursor.start source)
  have hzero : (Cursor.start source).offset = 0 := rfl
  simp only [SymbolTable.scope_empty, hzero, Nat.zero_add] at ht hstop hread
  have hlast := stop_elaborateAll (fun _ => none) 0 trees
  have hcode : (Checker.ofSource source).readProgram.2.code
      = ⟨(elaborateAll (fun _ => none) 0 trees).map .assignment,
          SymbolTable.empty.bindAll (elaborateAll (fun _ => none) 0 trees)⟩ := by
    have hsymbols := congrArg Code.symbols (Progress.answer_of_stop hstop).1
    show (Progress.read SymbolTable.empty (Cursor.start source)).code = _
    rw [hread]
    exact congrArg (Code.mk _) hsymbols
  refine ⟨trees, ⟨(trees.flatMap AssignmentTree.text).length, rest⟩, hw, ht, ?_, ?_, hcode, ?_, ?_⟩
  · exact (place_start source).neutral hsource (Nat.zero_add _).symm (neutral_assignments hw)
  · have hsplit : source = trees.flatMap AssignmentTree.text ++ rest := hsource
    rw [hsplit, List.take_left]
  · rw [Nat.zero_add] at hlast
    rw [← hlast]
    simp only [Code.stop, List.getLast?_map, Option.map_map]
    rfl
  · simp only [Code.ofProgram, hread, Progress.read_eq (SymbolTable.empty.bindAll _)] at h
    cases hassignment : (assignment (SymbolTable.empty.bindAll
        (elaborateAll (fun _ => none) 0 trees))).run
          ⟨(trees.flatMap AssignmentTree.text).length, rest⟩ with
    | error g d =>
      simp only [hassignment] at h
      cases h
      exact .inl ⟨d, rfl⟩
    | ok found d =>
      obtain _ | a := found
      · obtain ⟨-, rfl⟩ := assignment_eq_none.mp hassignment
        simp only [hassignment] at h
        split at h
        · cases h
        · rename_i hleft
          cases h
          exact .inr ⟨rfl, by simpa [Cursor.atEnd] using hleft, rfl⟩
      · exact absurd hassignment (hstop a d)

/-- A program is refused by the rules, with the code that a checker has read when it stops. -/
theorem programRefusal_of_ofProgram (h : Code.ofProgram source = .error f) :
    ProgramRefusal source (Checker.ofSource source).readProgram.2.code f := by
  obtain ⟨trees, c, hw, ht, hc, htake, hcode, hstop, hrefused⟩ := exists_place_of_ofProgram h
  rw [hcode]
  rcases hrefused with ⟨d, hread⟩ | ⟨hread, hne, rfl⟩
  · exact programRefusal_of_assignment hc hstop hread
  · exact programRefusal_of_rest hw ht rfl hc htake hne (assignment_eq_none.mp hread).1

end Grammar

end Bindcheck
