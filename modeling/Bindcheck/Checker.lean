/-
Bindcheck.Checker — a source that is read as a program or as an expression, again and again.

A checker keeps its source, the place where the last reading came to rest, and the code read so
far. Each reading starts over at the front of the source and drops the statements of the one
before, but the names that a program has bound stay bound.
-/
import Bindcheck.Syntax.Program

namespace Bindcheck

/-- A source, a place in it, and the code that was read. -/
structure Checker where
  source : Text
  cursor : Cursor
  code : Code
  deriving DecidableEq

namespace Checker

/-- A checker of a source in which a table binds the names. -/
def withSymbols (source : Text) (symbols : SymbolTable) : Checker :=
  ⟨source, Cursor.start source, ⟨[], symbols⟩⟩

/-- A checker of a source in which no name is bound. -/
def ofSource (source : Text) : Checker := withSymbols source SymbolTable.empty

/--
Reads the source as a program, and says whether nothing is left after its statements. Where a
statement is refused, those before it remain.
-/
def readProgram (checker : Checker) : Except Failure Bool × Checker :=
  let p := Progress.read checker.code.symbols (Cursor.start checker.source)
  (match p.failure with
    | some failure => .error failure
    | none => .ok p.cursor.atEnd,
    ⟨checker.source, p.cursor, p.code⟩)

/-- Reads the source as one expression; where it is refused, no statement remains. -/
def readExpression (checker : Checker) : Except Failure Unit × Checker :=
  match (Reader.wholeExpr checker.code.symbols).run (Cursor.start checker.source) with
  | .ok statement c => (.ok (), ⟨checker.source, c, ⟨[statement], checker.code.symbols⟩⟩)
  | .error failure c => (.error failure, ⟨checker.source, c, ⟨[], checker.code.symbols⟩⟩)

end Checker

end Bindcheck
