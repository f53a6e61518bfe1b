/-
Bindcheck.Syntax.Program — reading and checking programs.

  program    := assignment*
  assignment := name '=' expression ';'

Each assignment is read over the names that the assignments before it have bound, and binds
its own name to the type of its expression, unless the name is bound already.

Reading a program goes on until there is no further name or something is refused.
`Progress` keeps what was read up to there: a statement that is refused adds neither a
statement nor a binding. A program is complete where nothing is left.
-/
import Bindcheck.Syntax.Expression

namespace Bindcheck

namespace Reader

/-- Reads the rest of an assignment, whose name began at the given offset. -/
def assignmentTo (scope : SymbolTable) (start : Nat) (name : String) : Reader Assignment := do
  if ← accept '=' then
    let expr ← expr scope
    if ← accept ';' then
      return ⟨name, expr, ← spanSince start⟩
    else
      failHere .semicolonExpected
  else
    failHere (.equalsExpected name)

/-- Reads an assignment over the names of a table, if there is a name to assign. -/
def assignment (scope : SymbolTable) : Reader (Option Assignment) := do
  skipLayout
  let start ← offset
  after .name (assignmentTo scope start)

/-- An assignment begins with a name, which takes a character. -/
theorem consumes_assignment (scope : SymbolTable) : (assignment scope).Consumes := by
  intro c a d h
  have found : (after .name (assignmentTo scope c.pastLayout.offset)).run c.pastLayout =
    .ok (some a) d := h
  have := length_lt_of_after Token.name_pos found
  have := c.reaches_pastLayout.length_le
  omega

end Reader

/-- The table after an assignment: its name is bound, unless it was bound before. -/
def SymbolTable.bind (table : SymbolTable) (a : Assignment) : SymbolTable :=
  table.insert a.name ⟨some a.name, a.expr.ty⟩

/-- How far reading a program has come. -/
structure Progress where
  statements : List Assignment
  symbols : SymbolTable
  cursor : Cursor
  failure : Option Failure
  deriving DecidableEq

namespace Progress

/-- Reads assignments from a cursor on, over the names of a table. -/
def read (symbols : SymbolTable) (c : Cursor) : Progress :=
  match found : (Reader.assignment symbols).run c with
  | .error f d => ⟨[], symbols, d, some f⟩
  | .ok none d => ⟨[], symbols, d, none⟩
  | .ok (some a) d =>
    have : d.rest.length < c.rest.length := Reader.consumes_assignment symbols found
    let later := read (symbols.bind a) d
    { later with statements := a :: later.statements }
termination_by c.rest.length

/-- Reading a program reads one assignment, and after it the program that follows. -/
theorem read_eq (symbols : SymbolTable) (c : Cursor) :
    read symbols c =
      match (Reader.assignment symbols).run c with
      | .error f d => ⟨[], symbols, d, some f⟩
      | .ok none d => ⟨[], symbols, d, none⟩
      | .ok (some a) d =>
        let later := read (symbols.bind a) d
        { later with statements := a :: later.statements } := by
  rw [read]
  split <;> rename_i h <;> simp [h]

/-- The statements that were read and the table after them. -/
def code (p : Progress) : Code := ⟨p.statements.map .assignment, p.symbols⟩

end Progress

end Bindcheck
