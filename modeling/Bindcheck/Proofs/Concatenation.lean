/-
Bindcheck.Proofs.Concatenation — a program with any text behind it.

Between the two stands a line feed. It closes a comment at the end of the
program, and it keeps the last token of the program from running into the
text. So reading the whole reads the program and then the text, over the
names that the program binds and `n` characters further along:
`Progress.read_append_lineFeed`, over any table. `ofProgram_append` says
what that makes of the whole, whether the text is a program over those
names, goes on with something that is no assignment, or is refused.
-/
import Mathlib.Control.Monad.Basic
import Bindcheck.Checker
import Bindcheck.Proofs.Grammar.Soundness
import Bindcheck.Proofs.Shift.Readers

namespace Bindcheck

open Grammar

namespace Progress

/-- Reading a program only moves forward. -/
theorem reaches_read (table : SymbolTable) (c : Cursor) : c.Reaches (read table c).cursor := by
  induction hn : c.rest.length using Nat.strongRecOn generalizing table c with
  | _ size ih =>
    have hfirst := (Reader.assignment table).advances c
    rw [read_eq]
    cases hread : (Reader.assignment table).run c with
    | error f d =>
      rw [hread] at hfirst
      exact hfirst
    | ok found d =>
      rw [hread] at hfirst
      cases found with
      | none => exact hfirst
      | some a =>
        have hshorter : d.rest.length < size := hn ▸ Reader.consumes_assignment table hread
        exact hfirst.trans (ih d.rest.length hshorter (table.bind a) d rfl)

/-- A text that is read to its end is read in front of a line feed too, and then the text behind
the line feed, over the names that the first binds. -/
theorem read_append_lineFeed {table : SymbolTable} {first : Text}
    (hfailure : (read table (Cursor.start first)).failure = none)
    (hend : (read table (Cursor.start first)).cursor.atEnd = true) (second : Text) :
    read table (Cursor.start (first ++ '\n' :: second))
      = let p := read table (Cursor.start first)
        let later := (read p.symbols (Cursor.start second)).shift (first.length + 1)
        { later with statements := p.statements ++ later.statements } := by
  obtain ⟨trees, rest, hw, ht, hsplit, hstop⟩ := exists_split table (Cursor.start first)
  have hfirst : first = trees.flatMap AssignmentTree.text ++ rest := hsplit
  have hread := read_append hw ht 0 rest
  have hstart : (⟨0, trees.flatMap AssignmentTree.text ++ rest⟩ : Cursor) = Cursor.start first :=
    congrArg (Cursor.mk 0) hfirst.symm
  rw [hstart] at hread
  -- reading stopped at the end, so what is behind the assignments is layout
  have hfinal : FinalLayout rest := by
    rw [hread] at hfailure hend
    exact final_of_read hstop hfailure hend
  have hlayout : ∀ o, (⟨o, rest⟩ : Cursor).pastLayout.rest = [] := by
    intro o
    rw [Cursor.pastLayout_of_final hfinal]
  simp only [read_of_pastLayout (hlayout _), List.append_nil] at hread
  have hlength := congrArg List.length hfirst
  rw [List.length_append] at hlength
  have hbehind : ∀ names, read names
        ⟨0 + (trees.flatMap AssignmentTree.text).length, rest ++ '\n' :: second⟩
      = (read names (Cursor.start second)).shift (first.length + 1) := by
    intro names
    have hclosed := hfinal.append_lineFeed
    rw [← read_pastLayout, ← List.singleton_append, ← List.append_assoc,
      Cursor.pastLayout_append hclosed, read_pastLayout, ← read_shift]
    congr 1
    simp only [Cursor.start, Cursor.shift, List.length_append, List.length_singleton,
      Cursor.mk.injEq, and_true]
    omega
  have hwhole := read_append hw ht 0 (rest ++ '\n' :: second)
  have hsource : trees.flatMap AssignmentTree.text ++ (rest ++ '\n' :: second)
      = first ++ '\n' :: second := by
    rw [← List.append_assoc, ← hfirst]
  rw [hsource] at hwhole
  simp only [hbehind] at hwhole
  simp only [hread]
  exact hwhole

/-- A program is read, and then the text behind the line feed, over the names that it binds. -/
theorem read_program_append {first : Text} {code : Code} (h : Code.ofProgram first = .ok code)
    (second : Text) :
    ∃ assignments : List Assignment, code.statements = assignments.map .assignment ∧
      read SymbolTable.empty (Cursor.start (first ++ '\n' :: second))
        = let later := (read code.symbols (Cursor.start second)).shift (first.length + 1)
          { later with statements := assignments ++ later.statements } := by
  simp only [Code.ofProgram] at h
  split at h
  · cases h
  · rename_i hfailure
    split at h
    · rename_i hend
      cases h
      exact ⟨_, rfl, read_append_lineFeed hfailure hend second⟩
    · cases h

end Progress

/-! ## The whole -/

/-- What becomes of the whole, by what is read of the text behind. -/
theorem ofProgram_append_eq {first : Text} {code : Code} (h : Code.ofProgram first = .ok code)
    (second : Text) :
    Code.ofProgram (first ++ '\n' :: second)
      = let n := first.length + 1
        let p := Progress.read code.symbols (Cursor.start second)
        match p.failure with
        | some f => .error (f.shift n)
        | none =>
          if p.cursor.atEnd then
            .ok ⟨code.statements ++ p.code.statements.map (·.shift n), p.symbols⟩
          else .error ⟨.assignmentExpected, ⟨p.cursor.offset + n, n + second.length⟩⟩ := by
  obtain ⟨assignments, hstatements, hread⟩ := Progress.read_program_append h second
  have hreach := Progress.reaches_read code.symbols (Cursor.start second)
  simp only [Code.ofProgram, hread]
  generalize Progress.read code.symbols (Cursor.start second) = p at hreach
  have hfinish : p.cursor.offset + p.cursor.rest.length = second.length := by
    simpa [Cursor.finish, Cursor.start] using hreach.finish_eq
  cases hfailure : p.failure with
  | some f => simp [Progress.shift, hfailure]
  | none =>
    cases hend : p.cursor.atEnd with
    | true =>
      have hend' : (p.cursor.shift (first.length + 1)).atEnd = true := hend
      have hmap : p.code.statements.map (Statement.shift (first.length + 1))
          = (p.statements.map (·.shift (first.length + 1))).map .assignment := by
        simp [Progress.code, Statement.shift]
      simp [Progress.shift, Progress.code, hfailure, hend', hstatements, ← hmap]
    | false =>
      have hend' : (p.cursor.shift (first.length + 1)).atEnd = false := hend
      have hspan : (p.cursor.shift (first.length + 1)).restSpan
          = ⟨p.cursor.offset + (first.length + 1), first.length + 1 + second.length⟩ := by
        have hsome : p.cursor.rest ≠ [] := fun hnil => by simp [Cursor.atEnd, hnil] at hend
        have hpos := List.length_pos_iff.mpr hsome
        rw [Cursor.restSpan_shift]
        simp only [Cursor.restSpan, Cursor.finish, Span.shift, Span.mk.injEq, true_and]
        omega
      simp [Progress.shift, hfailure, hend', hspan]

/-- A text that is a program over the names of a program goes on with it. -/
theorem ofProgram_append_of_ok {first : Text} {code : Code} (h : Code.ofProgram first = .ok code)
    {second : Text} (hr : (Checker.withSymbols second code.symbols).readProgram.1 = .ok true) :
    let r := (Checker.withSymbols second code.symbols).readProgram
    Code.ofProgram (first ++ '\n' :: second)
      = .ok ⟨code.statements ++ r.2.code.statements.map (·.shift (first.length + 1)),
          r.2.code.symbols⟩ := by
  simp only [Checker.readProgram, Checker.withSymbols] at hr ⊢
  split at hr
  · cases hr
  · rename_i hfailure
    injection hr with hend
    simp only [ofProgram_append_eq h, hfailure, hend, if_true]
    rfl

/-- A text that goes on with something else than an assignment is refused there. -/
theorem ofProgram_append_of_rest {first : Text} {code : Code} (h : Code.ofProgram first = .ok code)
    {second : Text} (hr : (Checker.withSymbols second code.symbols).readProgram.1 = .ok false) :
    let r := (Checker.withSymbols second code.symbols).readProgram
    let n := first.length + 1
    Code.ofProgram (first ++ '\n' :: second)
      = .error ⟨.assignmentExpected, ⟨r.2.cursor.offset + n, n + second.length⟩⟩ := by
  simp only [Checker.readProgram, Checker.withSymbols] at hr ⊢
  split at hr
  · cases hr
  · rename_i hfailure
    injection hr with hend
    simp only [ofProgram_append_eq h, hfailure, hend, Bool.false_eq_true, if_false]

/-- A text that is refused over the names of a program is refused behind it. -/
theorem ofProgram_append_of_error {first : Text} {code : Code}
    (h : Code.ofProgram first = .ok code) {second : Text} {f : Failure}
    (hr : (Checker.withSymbols second code.symbols).readProgram.1 = .error f) :
    Code.ofProgram (first ++ '\n' :: second) = .error (f.shift (first.length + 1)) := by
  simp only [Checker.readProgram, Checker.withSymbols] at hr
  split at hr
  · rename_i hfailure
    cases hr
    simp only [ofProgram_append_eq h, hfailure]
  · cases hr

/-- A program with any text behind it is read as the program, and then as the text over the names
that the program binds, further along. -/
theorem ofProgram_append {first : Text} {code : Code} (h : Code.ofProgram first = .ok code)
    (second : Text) :
    let n := first.length + 1
    let whole := Code.ofProgram (first ++ '\n' :: second)
    let r := (Checker.withSymbols second code.symbols).readProgram
    ((∃ all, whole = .ok all) ↔ r.1 = .ok true) ∧
    (r.1 = .ok true →
      whole = .ok ⟨code.statements ++ r.2.code.statements.map (·.shift n), r.2.code.symbols⟩) ∧
    (r.1 = .ok false →
      whole = .error ⟨.assignmentExpected, ⟨r.2.cursor.offset + n, n + second.length⟩⟩) ∧
    ∀ f, r.1 = .error f → ∃ g, whole = .error g ∧ f.MovedBy n g := by
  intro n whole r
  have hwhole := ofProgram_append_eq h second
  simp only [r, whole, hwhole, Checker.readProgram, Checker.withSymbols]
  generalize Progress.read code.symbols (Cursor.start second) = p
  cases p.failure with
  | some f =>
    refine ⟨?_, ?_, ?_, ?_⟩
    · simp
    · intro hr
      cases hr
    · intro hr
      cases hr
    · intro g hg
      cases hg
      exact ⟨f.shift n, rfl, f.movedBy_shift n⟩
  | none =>
    cases p.cursor.atEnd with
    | true =>
      refine ⟨⟨fun _ => rfl, fun _ => ⟨_, rfl⟩⟩, fun _ => rfl, ?_, ?_⟩
      · intro hr
        cases hr
      · intro g hg
        cases hg
    | false =>
      refine ⟨?_, ?_, fun _ => rfl, ?_⟩
      · simp
      · intro hr
        cases hr
      · intro g hg
        cases hg

/-- The line feed ends the comment, and the text behind it uses the name that the program binds. -/
theorem append_behind_comment :
    ∃ code, Code.ofProgram "a=1;//c".toList = .ok code ∧
      let r := (Checker.withSymbols "b=a;".toList code.symbols).readProgram
      r.1 = .ok true ∧ Code.ofProgram "a=1;//c\nb=a;".toList
        = .ok ⟨code.statements ++ r.2.code.statements.map (·.shift 8), r.2.code.symbols⟩ := by
  have hcode : Code.ofProgram "a=1;//c".toList = .ok
      ⟨[.assignment ⟨"a", .mk (.literal (.int 1) ⟨2, 3⟩) .nil ⟨2, 3⟩, ⟨0, 4⟩⟩],
        .ofList [("a", ⟨some "a", .int⟩)]⟩ := by
    decide +kernel
  have hread : (Checker.withSymbols "b=a;".toList (.ofList [("a", ⟨some "a", .int⟩)])).readProgram.1
      = .ok true := by
    decide +kernel
  exact ⟨_, hcode, hread, (ofProgram_append hcode "b=a;".toList).2.1 hread⟩

end Bindcheck
