/-
Bindcheck.Proofs.Query — asking for the type of an expression, and
assigning the expression.

Both read the same expression over the names of a session. As a query it
stands alone and reaches to the end of its text; as an assignment it
stands behind a name, and a line feed and a semicolon follow it.

Where the query has an answer, the expression is the text of a tree
(`ExprTree.exists_of_wholeExpr`). An assignment of that tree is spelled
out too, with the line feed in the layout behind it, so it is read back:
`Checker.readProgram_assigning`. Where the query is refused there is no
tree, and what is refused in front of the end of the text is refused in
front of the line feed: `Checker.readProgram_assigning_error`. Text that
is left over is the exception. It may go on to make a program.
-/
import Mathlib.Control.Monad.Basic
import Bindcheck.Proofs.Concatenation
import Bindcheck.Proofs.Completed
import Bindcheck.Proofs.Ended
import Bindcheck.Proofs.Reparse

namespace Bindcheck

open Grammar Reader

/-- The expression with so many more characters of layout behind it. -/
def Expr.stretch (e : Expr) (count : Nat) : Expr :=
  .mk e.first e.rest ⟨e.span.start, e.span.stop + count⟩

namespace Expr

/-- Layout behind an expression does not change its type. -/
theorem ty_stretch (e : Expr) (count : Nat) : (e.stretch count).ty = e.ty := by
  cases e
  rfl

/-- Layout behind an expression is moved along with it. -/
theorem shift_stretch (e : Expr) (count distance : Nat) :
    (e.stretch count).shift distance = (e.shift distance).stretch count := by
  cases e
  simp only [stretch, first, rest, span, shift, Span.shift, Nat.add_right_comm]

end Expr

namespace Grammar

variable {table : SymbolTable}

/-! ## An expression that stands alone -/

/-- More layout behind a tree stretches its code. -/
theorem ExprTree.elaborate_stretch (t : ExprTree) (scope : Scope) (start trailing count : Nat) :
    t.elaborate scope start (trailing + count)
      = (t.elaborate scope start trailing).stretch count := by
  cases t with
  | mk first links =>
    simp only [elaborate, Expr.stretch, Expr.first, Expr.rest, Expr.span, Nat.add_assoc]

/-- An expression that is read to the end of a text is a tree with layout around it. -/
theorem ExprTree.exists_of_wholeExpr {source : Text} {s : Statement} {d : Cursor}
    (h : (wholeExpr table).run (Cursor.start source) = .ok s d) :
    ∃ (before : Text) (t : ExprTree) (trailing : Text) (ty : Ty),
      source = before ++ (t.text ++ trailing) ∧ Layout before ∧ FinalLayout trailing ∧
        t.Written ∧ t.nesting ≤ nestingLimit ∧ t.HasType table.scope ty ∧
        s = .expression (t.elaborate table.scope before.length trailing.length)
          ⟨0, source.length⟩ := by
  simp only [wholeExpr, run_bind, run_offset, Outcome.ok_andThen] at h
  obtain ⟨x, e, hexpr, h⟩ := Outcome.andThen_eq_ok.mp h
  obtain ⟨t, trailing, hfound⟩ := (finds_operand table nestingLimit).expression hexpr
  obtain ⟨before, hbefore, hsource, hoffset⟩ := hfound.exists_layout
  obtain ⟨ty, hty⟩ := hfound.typed
  have hpast : e.pastLayout = e := Cursor.pastLayout_of_bare hfound.bare
  simp only [run_atEnd, hpast, Outcome.ok_andThen] at h
  split at h
  · rename_i hend
    cases h
    have hnil : d.rest = [] := Cursor.atEnd_iff.mp hend
    have hsplit : source = before ++ (t.text ++ trailing) := by
      simpa [Cursor.start, hnil] using hsource
    have hstart : (Cursor.start source).pastLayout.offset = before.length := by
      rw [hoffset]
      exact Nat.zero_add _
    refine ⟨before, t, trailing, ty, hsplit, hbefore, hfound.trailing_final, hfound.written,
      hfound.nesting, hty, ?_⟩
    have hstop := hfound.offset_eq
    have hlength := congrArg List.length hsplit
    simp only [List.length_append] at hlength
    rw [hfound.eq_elaborate, hstart]
    simp only [Cursor.spanSince, Cursor.start, Statement.expression.injEq, Span.mk.injEq, true_and]
    omega
  · cases h

/-- An expression that is read to the end of a text covers it, up to the layout in front. -/
theorem eq_expression_of_wholeExpr {source : Text} {s : Statement} {d : Cursor}
    (h : (wholeExpr table).run (Cursor.start source) = .ok s d) :
    s = .expression s.expr ⟨0, source.length⟩ ∧ s.expr.span.stop = source.length := by
  obtain ⟨before, t, trailing, ty, rfl, -, -, -, -, -, rfl⟩ := ExprTree.exists_of_wholeExpr h
  refine ⟨rfl, ?_⟩
  simp [Statement.expr, ExprTree.span_elaborate]

/-- Layout in front of an expression is skipped. -/
theorem run_expr_append {b : Text} (h : Layout b) (o : Nat) (text : Text) :
    (expr table).run ⟨o, b ++ text⟩ = (expr table).run ⟨o + b.length, text⟩ := by
  simp only [expr, expression, run_bind, run_skipLayout, Cursor.pastLayout_append h]

/-! ## An expression that is assigned -/

/-- The text that assigns an expression to a name. -/
def assigningText (name source : Text) : Text :=
  name ++ " = ".toList ++ source ++ ending

theorem length_assigningText (name source : Text) :
    (assigningText name source).length = name.length + source.length + 5 := by
  have hsign : " = ".toList.length = 3 := rfl
  simp only [assigningText, ending, List.length_append, hsign, List.length_cons, List.length_nil]
  omega

/-- A tree that is assigned to a name, with a line feed at the end of the layout behind it. -/
def assigning (name before : Text) (t : ExprTree) (trailing : Text) : AssignmentTree where
  before := []
  name := name
  beforeSign := [' ']
  afterSign := ' ' :: before
  expr := t
  beforeEnd := trailing ++ ['\n']

theorem assigning_written {name before trailing : Text} {t : ExprTree} (hn : IsName name)
    (hb : Layout before) (hw : t.Written) (ht : t.nesting ≤ nestingLimit)
    (hf : FinalLayout trailing) : (assigning name before t trailing).Written where
  before := .nil
  name := hn
  beforeSign := .blank (by decide) .nil
  afterSign := .blank (by decide) hb
  expr := hw
  nesting := ht
  beforeEnd := hf.append_lineFeed

theorem text_assigning (name before : Text) (t : ExprTree) (trailing : Text) :
    (assigning name before t trailing).text
      = assigningText name (before ++ (t.text ++ trailing)) := by
  simp [AssignmentTree.text, AssignmentTree.tail, assigning, assigningText, ending]

/-- The code of the assignment holds that of the tree alone, with one more character of layout. -/
theorem elaborate_assigning (scope : Scope) (name before : Text) (t : ExprTree)
    (trailing : Text) :
    (assigning name before t trailing).elaborate scope 0
      = ⟨String.ofList name,
          ((t.elaborate scope before.length trailing.length).shift (name.length + 3)).stretch 1,
          ⟨0, (assigningText name (before ++ (t.text ++ trailing))).length⟩⟩ := by
  have hstart : (assigning name before t trailing).exprStart 0
      = before.length + (name.length + 3) := by
    simp only [AssignmentTree.exprStart, assigning, List.length_cons, List.length_nil]
    omega
  have hlayout : (assigning name before t trailing).beforeEnd.length = trailing.length + 1 := by
    simp [assigning]
  rw [← ExprTree.elaborate_shift, ← ExprTree.elaborate_stretch, ← text_assigning]
  simp only [AssignmentTree.elaborate, hstart, hlayout, Nat.zero_add]
  rfl

end Grammar

namespace Checker

variable {table : SymbolTable} {source name : Text}

/-- An expression that is read alone is read where it is assigned, further along and with one more
character of layout. -/
theorem readProgram_assigning {s : Statement} {d : Cursor}
    (h : (wholeExpr table).run (Cursor.start source) = .ok s d) (hn : IsName name) :
    let text := assigningText name source
    let a : Assignment := ⟨String.ofList name, (s.expr.shift (name.length + 3)).stretch 1,
      ⟨0, text.length⟩⟩
    let r := (withSymbols text table).readProgram
    r.1 = .ok true ∧ r.2.code = ⟨[.assignment a], table.bind a⟩ := by
  obtain ⟨before, t, trailing, ty, rfl, hb, hf, hw, hnest, hty, rfl⟩ :=
    ExprTree.exists_of_wholeExpr h
  have hwritten : ∀ u ∈ [assigning name before t trailing], u.Written := by
    intro u hu
    obtain rfl := List.mem_singleton.mp hu
    exact assigning_written hn hb hw hnest hf
  have htyped : WellTyped table.scope [assigning name before t trailing] := ⟨ty, hty, trivial⟩
  have hread := readProgram_assignments hwritten htyped
  simp only [List.flatMap_cons, List.flatMap_nil, List.append_nil, text_assigning, elaborateAll,
    elaborate_assigning] at hread
  exact hread

/-- An expression that is refused is refused where it is assigned, for a cause of the same kind. -/
theorem readProgram_assigning_error {f : Failure} {d : Cursor}
    (h : (expr table).run (Cursor.start source) = .error f d) (hn : IsName name) :
    ∃ g, (withSymbols (assigningText name source) table).readProgram.1 = .error g ∧
      g.cause.kind = f.cause.kind := by
  let behind := source ++ ending
  have hstart : (Cursor.start (assigningText name source)).pastLayout
      = ⟨0, name ++ ' ' :: '=' :: ' ' :: behind⟩ := by
    have htext : assigningText name source = name ++ ' ' :: '=' :: ' ' :: behind := by
      simp [assigningText, behind]
    rw [htext]
    exact Cursor.pastLayout_of_bare (hn.bare _)
  have hname : (token .name).run (Cursor.start (assigningText name source)).pastLayout
      = .ok (some (String.ofList name)) ⟨0 + name.length, ' ' :: '=' :: ' ' :: behind⟩ := by
    refine run_name ?_ hn (boundary_cons (by decide))
    rw [Cursor.pastLayout_pastLayout, hstart]
  have hblank : Layout [' '] := .blank (by decide) .nil
  have hbare : Bare ('=' :: ' ' :: behind) := bare_cons (by decide) (by decide)
  have hsign : (accept '=').run ⟨0 + name.length, ' ' :: '=' :: ' ' :: behind⟩
      = .ok true ⟨0 + name.length + 2, ' ' :: behind⟩ :=
    run_accept_cons (Cursor.pastLayout_append_of_bare hblank hbare (0 + name.length))
  have hended : (Cursor.start source).Ended ⟨0 + name.length + 3, behind⟩ := .whole rfl
  obtain ⟨g, e, hexpr, hkind⟩ := expr_error_of_ended h hended
  have hspace : (expr table).run ⟨0 + name.length + 2, ' ' :: behind⟩ = .error g e := by
    rw [← hexpr]
    exact run_expr_append hblank (0 + name.length + 2) behind
  have hassignment : (assignment table).run (Cursor.start (assigningText name source))
      = .error g e := by
    simp only [assignment, run_bind, run_skipLayout, Outcome.ok_andThen, run_offset]
    rw [run_after_some hname]
    simp only [assignmentTo, run_bind, hsign, Outcome.ok_andThen, if_true, hspace,
      Outcome.error_andThen]
  refine ⟨g, ?_, hkind⟩
  simp only [readProgram, withSymbols]
  rw [Progress.read_eq, hassignment]

end Checker

/-! ## Queries and assignments -/

section

variable {session source : Text} {code : Code}

/-- Where a query has an answer the expression is read to the end of its text. -/
theorem exists_of_inferTypeAfter_ok (h : Code.ofProgram session = .ok code) {ty : Ty}
    (hty : inferTypeAfter session source = .ok ty) :
    ∃ s d, (wholeExpr code.symbols).run (Cursor.start source) = .ok s d ∧ s.expr.ty = ty := by
  simp only [inferTypeAfter, inferType, h] at hty
  cases hread : (wholeExpr code.symbols).run (Cursor.start source) with
  | ok s d =>
    rw [hread] at hty
    cases hty
    exact ⟨s, d, rfl, rfl⟩
  | error f d =>
    rw [hread] at hty
    cases hty

/-- Where a query is refused the expression is, unless something is left over behind it. -/
theorem exists_of_inferTypeAfter_error (h : Code.ofProgram session = .ok code) {f : Failure}
    (hf : inferTypeAfter session source = .error (.expression f))
    (hkind : f.diagnostic.kind ≠ .trailing) :
    ∃ d, (expr code.symbols).run (Cursor.start source) = .error f d := by
  simp only [inferTypeAfter, inferType, h] at hf
  cases hread : (wholeExpr code.symbols).run (Cursor.start source) with
  | ok s d =>
    rw [hread] at hf
    cases hf
  | error g d =>
    rw [hread] at hf
    cases hf
    simp only [wholeExpr, run_bind, run_offset, Outcome.ok_andThen] at hread
    rcases Outcome.andThen_eq_error.mp hread with hexpr | ⟨x, e, -, hrest⟩
    · exact ⟨d, hexpr⟩
    · -- only what is left over is refused after the expression
      rw [run_atEnd, Outcome.ok_andThen] at hrest
      split at hrest
      · cases hrest
      · cases hrest
        exact absurd rfl hkind

/-- An expression that is read alone, over the names of a session, is the last statement of the
session in which it is assigned. -/
theorem ofProgram_assigning (h : Code.ofProgram session = .ok code) {name : Text}
    (hn : IsName name) {s : Statement} {d : Cursor}
    (hread : (wholeExpr code.symbols).run (Cursor.start source) = .ok s d) :
    let text := assigningText name source
    let target := String.ofList name
    Code.ofProgram (session ++ '\n' :: text) = .ok
      ⟨code.statements ++ [.assignment ⟨target,
          (s.expr.shift (session.length + name.length + 4)).stretch 1,
          ⟨session.length + 1, session.length + 1 + text.length⟩⟩],
        code.symbols.insert target ⟨some target, s.expr.ty⟩⟩ := by
  intro text target
  obtain ⟨hok, hcode⟩ := Checker.readProgram_assigning hread hn
  have hdistance : name.length + 3 + (session.length + 1) = session.length + name.length + 4 := by
    omega
  have hlength : (assigningText name source).length + (session.length + 1)
      = session.length + 1 + (assigningText name source).length := Nat.add_comm _ _
  rw [ofProgram_append_of_ok h hok, hcode]
  simp only [List.map_cons, List.map_nil, Statement.shift, Assignment.shift, Expr.shift_stretch,
    Expr.shift_shift, hdistance, Span.shift, Nat.zero_add, hlength, SymbolTable.bind,
    Expr.ty_stretch, Expr.ty_shift, text, target]

end

/-- The type that is told for an expression over a session is the one that a new name gets if the
expression is assigned to it. The assignment comes last, and its expression is the one that is read
alone, further along and up to the semicolon. An expression for which no type is told is refused
there too, with the same kind of diagnostic, unless something is left over behind it. -/
theorem inferTypeAfter_assigned {session : Text} {code : Code}
    (h : Code.ofProgram session = .ok code) (e : Text) {v : Text} (hv : IsName v)
    (hfree : code.symbols.get? (String.ofList v) = none) :
    let name := String.ofList v
    let p := session ++ '\n' :: (v ++ " = ".toList ++ e ++ "\n;".toList)
    let n := session.length + v.length + 4
    let alone := (Checker.withSymbols e code.symbols).readExpression
    (∀ ty, inferTypeAfter session e = .ok ty →
      ∃ x new, alone.1 = .ok () ∧ alone.2.code.statements = [.expression x ⟨0, e.length⟩] ∧
        Code.ofProgram p = .ok new ∧
        new.symbols.get? name = some ⟨some name, ty⟩ ∧
        (∀ other, other ≠ name → new.symbols.get? other = code.symbols.get? other) ∧
        let y := (x.shift n).stretch 1
        y.span.stop + 1 = p.length ∧
        new.statements
          = code.statements ++ [.assignment ⟨name, y, ⟨session.length + 1, p.length⟩⟩]) ∧
    ∀ f, inferTypeAfter session e = .error (.expression f) → f.diagnostic.kind ≠ .trailing →
      ∃ g, Code.ofProgram p = .error g ∧ g.diagnostic.kind = f.diagnostic.kind := by
  intro name p n alone
  refine ⟨?_, ?_⟩
  · intro ty hty
    obtain ⟨s, d, hread, rfl⟩ := exists_of_inferTypeAfter_ok h hty
    obtain ⟨hs, hstop⟩ := eq_expression_of_wholeExpr hread
    have hp := ofProgram_assigning h hv hread
    have hlength : p.length = session.length + 1 + (assigningText v e).length := by
      have htext : p = session ++ '\n' :: assigningText v e := rfl
      rw [htext, List.length_append, List.length_cons, Nat.add_assoc, Nat.add_comm 1]
    refine ⟨s.expr, _, ?_, ?_, hp, ?_, ?_, ?_, ?_⟩
    · simp [alone, Checker.readExpression, Checker.withSymbols, hread]
    · simp [alone, Checker.readExpression, Checker.withSymbols, hread, ← hs]
    · simp [SymbolTable.get?_insert, name, hfree]
    · intro other hother
      rw [SymbolTable.get?_insert, if_neg hother]
    · show (s.expr.shift n).span.stop + 1 + 1 = p.length
      rw [Expr.span_shift, hlength, length_assigningText]
      simp only [Span.shift, hstop, n]
      omega
    · rw [hlength]
  · intro f hf hkind
    obtain ⟨d, hread⟩ := exists_of_inferTypeAfter_error h hf hkind
    obtain ⟨g, hrefused, hsame⟩ := Checker.readProgram_assigning_error hread hv
    have hg := ofProgram_append_of_error h hrefused
    exact ⟨_, hg, (g.movedBy_shift _).kind.trans hsame⟩

/-- The line feed closes the comment behind the expression. Behind a backslash it makes a bad escape
of what was an open string, and both are refused while the text is cut into tokens. -/
theorem assigned_behind_comment :
    let session := "a=1;//c".toList
    ∃ code, Code.ofProgram session = .ok code ∧ IsName "b".toList ∧
      code.symbols.get? "b" = none ∧
      inferTypeAfter session "(a)+ 2 //d".toList = .ok .int ∧
      (∃ new, Code.ofProgram "a=1;//c\nb = (a)+ 2 //d\n;".toList = .ok new ∧
        new.symbols.get? "b" = some ⟨some "b", .int⟩) ∧
      ∃ f g, inferTypeAfter session "'c\\".toList = .error (.expression f) ∧
        f.cause = .unterminatedString ∧
        Code.ofProgram "a=1;//c\nb = 'c\\\n;".toList = .error g ∧ g.diagnostic.kind = .scan := by
  intro session
  have hcode : Code.ofProgram session = .ok
      ⟨[.assignment ⟨"a", .mk (.literal (.int 1) ⟨2, 3⟩) .nil ⟨2, 3⟩, ⟨0, 4⟩⟩],
        .ofList [("a", ⟨some "a", .int⟩)]⟩ := by
    decide +kernel
  have hname : IsName "b".toList := ⟨'b', [], by decide +kernel, by decide, by simp⟩
  have hok : inferTypeAfter session "(a)+ 2 //d".toList = .ok .int := by decide +kernel
  have herror : inferTypeAfter session "'c\\".toList
      = .error (.expression ⟨.unterminatedString, ⟨0, 3⟩⟩) := by
    decide +kernel
  obtain ⟨_, new, -, -, hnew, hbound, -⟩ :=
    (inferTypeAfter_assigned hcode "(a)+ 2 //d".toList hname (by decide +kernel)).1 .int hok
  obtain ⟨g, hg, hkind⟩ :=
    (inferTypeAfter_assigned hcode "'c\\".toList hname (by decide +kernel)).2 _ herror (by decide)
  refine ⟨_, hcode, hname, by decide +kernel, hok, ⟨new, ?_, hbound⟩, _, g, herror, rfl, ?_, hkind⟩
  · exact hnew
  · exact hg

end Bindcheck
