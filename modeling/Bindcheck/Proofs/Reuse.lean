/-
Bindcheck.Proofs.Reuse — a checker that reads its source again and again.

A checker keeps the names that a program has bound, so a second reading
sees bindings that the first one made further on. It makes no difference.
An assignment that was read over fewer names is read over more of them
with the same types (`Reader.assignment_mono`), and binds nothing new the
second time. An assignment that was refused was refused over the table
that the first reading left, and that is the table of the second.

`Progress.read_again` is this for one more reading. `Checker.symbols_after`
follows the table through any sequence of readings: it changes with the
first program that is read, and then never again.
-/
import Mathlib.Data.List.Induction
import Bindcheck.Proofs.Completed

namespace Bindcheck

open Grammar Reader

variable {table larger : SymbolTable} {c d : Cursor}

/-! ## A table that grows -/

/-- A larger table gives names the same types. -/
theorem SymbolTable.Subset.scope (h : table.Subset larger) :
    Scope.Subset table.scope larger.scope := by
  intro name ty hty
  obtain ⟨entry, hentry, rfl⟩ := Option.map_eq_some_iff.mp hty
  unfold SymbolTable.scope
  rw [h name entry hentry]
  rfl

/-- An assignment that is read over some names is read over more of them. -/
theorem Reader.assignment_mono {a : Assignment} (h : (assignment table).run c = .ok (some a) d)
    (hlarger : table.Subset larger) : (assignment larger).run c = .ok (some a) d := by
  have hs := hlarger.scope
  obtain ⟨t, ty, hrest, hoffset, hw, ht, rfl⟩ := AssignmentTree.exists_of_run h
  have hread := AssignmentTree.run_assignment hw (ht.mono hs) c.offset d.rest
  have hsame : t.elaborate larger.scope c.offset = t.elaborate table.scope c.offset := by
    unfold AssignmentTree.elaborate
    rw [ExprTree.elaborate_of_subset t.expr ht hs]
  rw [← hrest, ← hoffset, hsame] at hread
  exact hread

/-- Reading a program again over the table that it has left gives the same. -/
theorem Progress.read_again (table : SymbolTable) (c : Cursor) :
    read (read table c).symbols c = read table c := by
  induction hn : c.rest.length using Nat.strongRecOn generalizing table c with
  | _ size ih =>
    cases hread : (assignment table).run c with
    | error f d =>
      -- nothing was bound, so the table is the same
      have hsame : (read table c).symbols = table := by rw [read_eq, hread]
      rw [hsame]
    | ok found d =>
      cases found with
      | none =>
        have hsame : (read table c).symbols = table := by rw [read_eq, hread]
        rw [hsame]
      | some a =>
        have hshorter : d.rest.length < size := hn ▸ consumes_assignment table hread
        have hlater := ih d.rest.length hshorter (table.bind a) d rfl
        have hfirst : read table c = { read (table.bind a) d with
            statements := a :: (read (table.bind a) d).statements } := by
          rw [read_eq, hread]
        have hsymbols : (read table c).symbols = (read (table.bind a) d).symbols := by rw [hfirst]
        rw [← hsymbols] at hlater
        -- the table that was left holds what was bound before, and the name of `a`
        have hall := symbols_read table c
        have hmem : a ∈ (read table c).statements := by
          rw [hfirst]
          exact List.mem_cons_self
        have hagain : (assignment (read table c).symbols).run c = .ok (some a) d := by
          rw [hall]
          exact assignment_mono hread (table.subset_bindAll _)
        have hbound : (read table c).symbols.bind a = (read table c).symbols := by
          rw [hall]
          exact SymbolTable.bind_of_contains (table.contains_bindAll hmem)
        rw [read_eq (read table c).symbols, hagain]
        simp only [hbound, hlater]
        exact hfirst.symm

/-! ## A checker that is used again -/

namespace Checker

/-- A way to read the source of a checker. -/
inductive Request where
  | program
  | expression
  deriving DecidableEq, Repr

/-- The checker after it has read its source. -/
def perform (checker : Checker) : Request → Checker
  | .program => checker.readProgram.2
  | .expression => checker.readExpression.2

/-- The checker after it has read its source some times. -/
def after (checker : Checker) (requests : List Request) : Checker :=
  requests.foldl perform checker

theorem after_concat (checker : Checker) (requests : List Request) (request : Request) :
    checker.after (requests ++ [request]) = (checker.after requests).perform request := by
  simp [after]

/-- Reading does not touch the source. -/
theorem source_perform (checker : Checker) (request : Request) :
    (checker.perform request).source = checker.source := by
  cases request with
  | program => rfl
  | expression =>
    simp only [perform, readExpression]
    split <;> rfl

theorem source_after (checker : Checker) (requests : List Request) :
    (checker.after requests).source = checker.source := by
  induction requests using List.reverseRecOn with
  | nil => rfl
  | append_singleton requests request ih => rw [after_concat, source_perform, ih]

/-- Reading an expression binds nothing. -/
theorem symbols_readExpression (checker : Checker) :
    checker.readExpression.2.code.symbols = checker.code.symbols := by
  unfold readExpression
  split <;> rfl

/-- A checker answers by its source and its table alone. -/
theorem readProgram_eq (checker : Checker) :
    checker.readProgram = (withSymbols checker.source checker.code.symbols).readProgram := by
  simp only [readProgram, withSymbols]

theorem readExpression_eq (checker : Checker) :
    checker.readExpression
      = (withSymbols checker.source checker.code.symbols).readExpression := by
  simp only [readExpression, withSymbols]

/-- The table that a program has left is the table over which it is read again. -/
theorem readProgram_again (source : Text) (table : SymbolTable) :
    (withSymbols source (withSymbols source table).readProgram.2.code.symbols).readProgram
      = (withSymbols source table).readProgram := by
  have hagain := Progress.read_again table (Cursor.start source)
  simp [readProgram, withSymbols, Progress.code, hagain]

/-- The table of a checker is that of the program in its source once that has been read. -/
theorem symbols_after (source : Text) (table : SymbolTable) (requests : List Request) :
    ((withSymbols source table).after requests).code.symbols
      = if .program ∈ requests then (withSymbols source table).readProgram.2.code.symbols
        else table := by
  induction requests using List.reverseRecOn with
  | nil => rfl
  | append_singleton requests request ih =>
    rw [after_concat]
    cases request with
    | expression =>
      rw [perform, symbols_readExpression, ih]
      simp
    | program =>
      have hsource : ((withSymbols source table).after requests).source = source :=
        source_after _ _
      rw [perform, readProgram_eq, hsource, ih]
      split
      · rw [readProgram_again]
        simp
      · simp

end Checker

/-- After any readings, a checker reads its source as a program as it did the first time. It reads
it as an expression as a new one would, over the names of the program if that has been read. -/
theorem read_after_requests (source : Text) (table : SymbolTable)
    (requests : List Checker.Request) :
    let fresh := Checker.withSymbols source table
    let checker := fresh.after requests
    let known := if .program ∈ requests then fresh.readProgram.2.code.symbols else table
    checker.readProgram = fresh.readProgram ∧
      checker.readExpression = (Checker.withSymbols source known).readExpression ∧
      checker.readExpression.2.code.symbols = checker.code.symbols := by
  intro fresh checker known
  have hsource : checker.source = source := Checker.source_after fresh requests
  have hsymbols : checker.code.symbols = known := Checker.symbols_after source table requests
  refine ⟨?_, ?_, checker.symbols_readExpression⟩
  · rw [Checker.readProgram_eq, hsource, hsymbols]
    simp only [known]
    split
    · exact Checker.readProgram_again source table
    · rfl
  · rw [Checker.readExpression_eq, hsource, hsymbols]

end Bindcheck
