/-
Bindcheck.Proofs.Completed — what reading a program leaves behind.

Reading a program stops at the first place where no assignment is read:
where nothing is left, where something else than a name comes next, or
in the middle of an assignment that is refused. `Progress.answer_of_stop`
tells the three apart by the character behind the layout.

What is left behind is the same in all three. `Progress.exists_stop` cuts
the text into the assignments that were read and the text at which
reading stopped, and `Code.stop` finds the place of the cut in the spans
alone. So the text in front of the cut is a program, with the same
statements and the same table: an assignment that is refused leaves
nothing.
-/
import Mathlib.Control.Monad.Basic
import Bindcheck.Checker
import Bindcheck.Proofs.Grammar.Soundness
import Bindcheck.Proofs.Shift.Readers

namespace Bindcheck

open Grammar Reader

/-! ## Where no assignment begins -/

namespace Reader

variable {α β : Type} {c d : Cursor} {table : SymbolTable}

/-- A name begins with an ASCII letter or an underscore. -/
theorem isNameStart_iff {x : Char} :
    Token.isNameStart x = true ↔ x.isAlpha = true ∨ x = '_' := by
  simp [Token.isNameStart]

/-- No name stands at the front of a text exactly if no character there begins one. -/
theorem read_name_eq_none {text : Text} :
    Token.name.read text = none ↔ ∀ x ∈ text.head?, Token.isNameStart x = false := by
  rw [← read_run_eq_none, Token.name, Token.map, Option.map_eq_none_iff]

/-- Nothing is found behind a token only if the token is not found. -/
theorem token_eq_none_of_after {t : Token α} {next : α → Reader β}
    (h : (after t next).run c = .ok none d) : (token t).run c = .ok none d := by
  obtain ⟨found, e, hread, h⟩ := Outcome.andThen_eq_ok.mp h
  obtain _ | a := found
  · cases h
    exact hread
  · obtain ⟨b, e', -, h⟩ := Outcome.andThen_eq_ok.mp h
    cases h

/-- There is no assignment exactly where no name comes next. -/
theorem assignment_eq_none :
    (assignment table).run c = .ok none d ↔
      (∀ x ∈ c.pastLayout.rest.head?, Token.isNameStart x = false) ∧ d = c.pastLayout := by
  have hafter : (assignment table).run c
      = (after .name (assignmentTo table c.pastLayout.offset)).run c.pastLayout := rfl
  have htoken : (token .name).run c.pastLayout = .ok none d ↔
      (∀ x ∈ c.pastLayout.rest.head?, Token.isNameStart x = false) ∧ d = c.pastLayout := by
    rw [run_token, tokenAt_eq_none, Cursor.pastLayout_pastLayout, read_name_eq_none]
  rw [hafter, ← htoken]
  exact ⟨token_eq_none_of_after, run_after_none⟩

/-- An assignment that is refused is blamed on no text before its name. -/
theorem le_start_of_assignment {f : Failure} (h : (assignment table).run c = .error f d) :
    c.pastLayout.offset ≤ f.span.start := by
  have hpast : (assignment table).run c.pastLayout = .error f d := by
    rw [← h]
    simp [assignment]
  exact Follows.le_start_of_error (fun n => follows_assignment (n := n) table) hpast

end Reader

namespace Progress

variable {table : SymbolTable} {c : Cursor}

/-! ## Where reading stops -/

/-- What a checker answers, by how far reading has come. -/
def answer (p : Progress) : Except Failure Bool :=
  match p.failure with
  | some failure => .error failure
  | none => .ok p.cursor.atEnd

/-- Where no assignment is read nothing changes, and the next character decides the answer. -/
theorem answer_of_stop (hstop : ∀ a d, (assignment table).run c ≠ .ok (some a) d) :
    (read table c).code = ⟨[], table⟩ ∧
      match c.pastLayout.rest.head? with
      | none => (read table c).answer = .ok true
      | some x =>
        if Token.isNameStart x = true then
          ∃ f, (read table c).answer = .error f ∧ c.pastLayout.offset ≤ f.span.start
        else (read table c).answer = .ok false := by
  rw [read_eq]
  cases hread : (assignment table).run c with
  | error f d =>
    refine ⟨rfl, ?_⟩
    -- without a name nothing would have been refused
    have hname : ¬ ∀ x ∈ c.pastLayout.rest.head?, Token.isNameStart x = false := by
      intro hnone
      rw [assignment_eq_none.mpr ⟨hnone, rfl⟩] at hread
      cases hread
    cases hhead : c.pastLayout.rest.head? with
    | none => simp [hhead] at hname
    | some x =>
      have hx : Token.isNameStart x = true := by simpa [hhead] using hname
      simp only [hx, if_true]
      exact ⟨f, rfl, le_start_of_assignment hread⟩
  | ok found d =>
    cases found with
    | some a => exact absurd hread (hstop a d)
    | none =>
      obtain ⟨hname, rfl⟩ := assignment_eq_none.mp hread
      refine ⟨rfl, ?_⟩
      cases hrest : c.pastLayout.rest with
      | nil => simp [answer, Cursor.atEnd, hrest]
      | cons x rest =>
        have hx : Token.isNameStart x = false := hname x (by simp [hrest])
        simp [answer, Cursor.atEnd, hrest, hx]

/-- Reading a program cuts its text into assignments and a text at which reading stops. -/
theorem exists_stop (table : SymbolTable) (c : Cursor) :
    ∃ trees rest, (∀ t ∈ trees, AssignmentTree.Written t) ∧ WellTyped table.scope trees ∧
      c.rest = trees.flatMap AssignmentTree.text ++ rest ∧
      let found := elaborateAll table.scope c.offset trees
      let here : Cursor := ⟨c.offset + (trees.flatMap AssignmentTree.text).length, rest⟩
      (∀ a d, (assignment (table.bindAll found)).run here ≠ .ok (some a) d) ∧
        read table c
          = { read (table.bindAll found) here with
              statements := found } := by
  obtain ⟨trees, rest, hw, ht, hrest, hstop⟩ := exists_split table c
  refine ⟨trees, rest, hw, ht, hrest, hstop, ?_⟩
  have hread := read_append hw ht c.offset rest
  have hnone := congrArg Code.statements (answer_of_stop hstop).1
  have hempty := List.map_eq_nil_iff.mp hnone
  rw [← hrest] at hread
  simp only [hempty, List.append_nil] at hread
  exact hread

/-- The table that reading a program leaves is the one after its assignments. -/
theorem symbols_read (table : SymbolTable) (c : Cursor) :
    (read table c).symbols = table.bindAll (read table c).statements := by
  obtain ⟨trees, rest, -, -, -, hstop, hread⟩ := exists_stop table c
  rw [hread]
  exact congrArg Code.symbols (answer_of_stop hstop).1

end Progress

/-! ## The end of the last statement -/

/-- Where the last statement stops; the front of the text if there is none. -/
def Code.stop (code : Code) : Nat :=
  (code.statements.getLast?.map fun s => s.span.stop).getD 0

/-- The last of some assignments stops where their text does. -/
theorem Grammar.stop_elaborateAll (scope : Scope) (o : Nat) (trees : List AssignmentTree) :
    ((elaborateAll scope o trees).getLast?.map fun a => a.span.stop).getD o
      = o + (trees.flatMap AssignmentTree.text).length := by
  induction trees generalizing scope o with
  | nil => rfl
  | cons t trees ih =>
    have hlast := ih (scope.bind t.target (t.elaborate scope o).expr.ty) (o + t.text.length)
    have hcons : elaborateAll scope o (t :: trees) = t.elaborate scope o
        :: elaborateAll (scope.bind t.target (t.elaborate scope o).expr.ty)
          (o + t.text.length) trees := rfl
    rw [hcons, List.flatMap_cons, List.length_append, ← Nat.add_assoc, ← hlast,
      List.getLast?_cons]
    -- the assignment itself is the last if none follows
    generalize elaborateAll _ _ trees = later
    cases later.getLast? with
    | none => rfl
    | some a => rfl

/-! ## What is left behind -/

namespace Checker

/-- The text of some assignments alone is a program, whatever else the source held. -/
theorem readProgram_assignments {table : SymbolTable} {trees : List AssignmentTree}
    (hw : ∀ t ∈ trees, t.Written) (ht : WellTyped table.scope trees) :
    let found := elaborateAll table.scope 0 trees
    let r := (withSymbols (trees.flatMap AssignmentTree.text) table).readProgram
    r.1 = .ok true ∧ r.2.code = ⟨found.map .assignment, table.bindAll found⟩ := by
  intro found r
  have hread := Progress.read_append hw ht 0 []
  have hend : ∀ o, (⟨o, []⟩ : Cursor).pastLayout.rest = [] := by
    intro o
    simp [Cursor.pastLayout]
  simp only [List.append_nil, Progress.read_of_pastLayout (hend _)] at hread
  simp [r, readProgram, withSymbols, Cursor.start, hread, Cursor.atEnd, hend, Progress.code,
    found]

/-- Reading a program leaves the code of the assignments that it has read, and answers by the
character at which it stops. -/
theorem exists_readProgram (source : Text) (table : SymbolTable) :
    ∃ trees rest, (∀ t ∈ trees, AssignmentTree.Written t) ∧ WellTyped table.scope trees ∧
      source = trees.flatMap AssignmentTree.text ++ rest ∧
      let found := elaborateAll table.scope 0 trees
      let r := (withSymbols source table).readProgram
      let next := (⟨(trees.flatMap AssignmentTree.text).length, rest⟩ : Cursor).pastLayout
      r.2.code = ⟨found.map .assignment, table.bindAll found⟩ ∧
        match next.rest.head? with
        | none => r.1 = .ok true
        | some x =>
          if Token.isNameStart x = true then
            ∃ f, r.1 = .error f ∧ next.offset ≤ f.span.start
          else r.1 = .ok false := by
  obtain ⟨trees, rest, hw, ht, hsource, hstop, hread⟩ :=
    Progress.exists_stop table (Cursor.start source)
  obtain ⟨hcode, hanswer⟩ := Progress.answer_of_stop hstop
  have hoffset : (Cursor.start source).offset + (trees.flatMap AssignmentTree.text).length
      = (trees.flatMap AssignmentTree.text).length := Nat.zero_add _
  rw [hoffset] at hcode hanswer hread
  refine ⟨trees, rest, hw, ht, hsource, ?_, ?_⟩
  · show (Progress.read table (Cursor.start source)).code = _
    have hsymbols := congrArg Code.symbols hcode
    rw [hread]
    simp only [Progress.code] at hsymbols ⊢
    rw [hsymbols]
    rfl
  · have hsame : (withSymbols source table).readProgram.1
        = (Progress.read table (Cursor.start source)).answer := rfl
    rw [hsame, hread]
    exact hanswer

/-- An expression that is refused leaves no statement, and the table as it was. -/
theorem code_of_readExpression_error {checker : Checker} (f : Failure)
    (h : checker.readExpression.1 = .error f) :
    checker.readExpression.2.code = ⟨[], checker.code.symbols⟩ := by
  unfold readExpression at h ⊢
  split
  · rename_i hread
    rw [hread] at h
    cases h
  · rfl

end Checker

/-- However reading a program ends, it leaves the statements and the table of the text up to the
end of its last statement, which is a program; the next character tells how it has ended. -/
theorem completed_of_readProgram (source : Text) (table : SymbolTable) :
    let checker := Checker.withSymbols source table
    let r := checker.readProgram
    let stop := r.2.code.stop
    let again := (Checker.withSymbols (source.take stop) table).readProgram
    let next := (⟨stop, source.drop stop⟩ : Cursor).pastLayout
    (again.1 = .ok true ∧ again.2.code = r.2.code) ∧
    (r.1 = .ok true ↔ next.offset = source.length) ∧
    (r.1 = .ok false ↔
      ∃ x, source[next.offset]? = some x ∧ ¬ (x.isAlpha = true ∨ x = '_')) ∧
    ((∃ f, r.1 = .error f) ↔
      ∃ x, source[next.offset]? = some x ∧ (x.isAlpha = true ∨ x = '_')) ∧
    (∀ f, r.1 = .error f → next.offset ≤ f.span.start) ∧
    ∀ f, checker.readExpression.1 = .error f → checker.readExpression.2.code = ⟨[], table⟩ := by
  intro checker r stop again next
  obtain ⟨trees, rest, hw, ht, hsource, hcode, hanswer⟩ := Checker.exists_readProgram source table
  obtain ⟨hagain, hsame⟩ := Checker.readProgram_assignments hw ht
  -- the spans alone tell where the assignments end
  have hstop : stop = (trees.flatMap AssignmentTree.text).length := by
    have hlast := stop_elaborateAll table.scope 0 trees
    simp only [stop, r, checker, hcode, Code.stop, List.getLast?_map, Option.map_map]
    rw [Nat.zero_add] at hlast
    exact hlast
  have htake : source.take stop = trees.flatMap AssignmentTree.text := by
    rw [hstop, hsource, List.take_left]
  have hdrop : source.drop stop = rest := by
    rw [hstop, hsource, List.drop_left]
  have hreach : (Cursor.start source).Reaches next := by
    refine (Cursor.reaches_drop ?_).trans (Cursor.reaches_pastLayout _)
    rw [hstop, hsource, List.length_append]
    exact Nat.le_add_right _ _
  have hend := hreach.offset_add_length
  have hhead := hreach.head?_rest
  rw [← hstop, ← hdrop] at hanswer
  rw [← htake] at hagain hsame
  refine ⟨⟨hagain, hsame.trans hcode.symm⟩, ?_⟩
  simp only [← hhead, ← isNameStart_iff]
  have halone : ∀ f, checker.readExpression.1 = .error f →
      checker.readExpression.2.code = ⟨[], table⟩ := Checker.code_of_readExpression_error
  cases hnext : next.rest with
  | nil =>
    have hoffset : next.offset = source.length := by simpa [hnext] using hend
    have hr : r.1 = .ok true := by simpa [next, hnext] using hanswer
    exact ⟨by simp [hr, hoffset], by simp [hr], by simp [hr], by simp [hr], halone⟩
  | cons x text =>
    have hoffset : next.offset ≠ source.length := by
      rw [hnext, List.length_cons] at hend
      omega
    by_cases hx : Token.isNameStart x = true
    · obtain ⟨f, hr, hf⟩ : ∃ f, r.1 = .error f ∧ next.offset ≤ f.span.start := by
        simpa [next, hnext, hx] using hanswer
      exact ⟨by simp [hr, hoffset], by simp [hr, hx], by simp [hr, hx], by simp [hr, hf], halone⟩
    · have hr : r.1 = .ok false := by simpa [next, hnext, hx] using hanswer
      exact ⟨by simp [hr, hoffset], by simp [hr, hx], by simp [hr, hx], by simp [hr], halone⟩

end Bindcheck
