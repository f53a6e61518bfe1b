/-
Bindcheck.Syntax.Source — whole sources, read as programs and as expressions.

  * `Code.ofProgram` takes a program to its code, if the whole source is a program.
  * `Code.ofExpression` takes an expression to its code, over the names of a table.
  * `inferType` and `inferTypeAfter` give the type of an expression, over the names of a
    table or over those that an earlier program binds.
-/
import Bindcheck.Syntax.Program

namespace Bindcheck

namespace Code

/-- The code of a program; text after the last statement is refused. -/
def ofProgram (source : Text) : Except Failure Code :=
  let p := Progress.read SymbolTable.empty (Cursor.start source)
  match p.failure with
  | some failure => .error failure
  | none =>
    if p.cursor.atEnd then .ok p.code
    else .error ⟨.assignmentExpected, p.cursor.restSpan⟩

/-- The code of an expression over the names of a table. -/
def ofExpression (source : Text) (symbols : SymbolTable) : Except Failure Code :=
  match (Reader.wholeExpr symbols).run (Cursor.start source) with
  | .ok statement _ => .ok ⟨[statement], symbols⟩
  | .error failure _ => .error failure

/-- What a program is known to bind, one line for each name: the name and its type. -/
def listing (code : Code) : String :=
  String.join (code.symbols.toList.map fun (name, entry) => name ++ ": " ++ entry.ty.name ++ "\n")

end Code

/-- The type of an expression over the names of a table. -/
def inferType (source : Text) (symbols : SymbolTable) : Except Failure Ty :=
  match (Reader.wholeExpr symbols).run (Cursor.start source) with
  | .ok statement _ => .ok statement.expr.ty
  | .error failure _ => .error failure

/-- A failure in the program that binds the names, or in the expression over them. -/
inductive QueryFailure where
  | program (failure : Failure)
  | expression (failure : Failure)
  deriving DecidableEq, Repr

/-- The type of an expression over the names that a program binds. -/
def inferTypeAfter (program expr : Text) : Except QueryFailure Ty :=
  match Code.ofProgram program with
  | .error failure => .error (.program failure)
  | .ok code =>
    match inferType expr code.symbols with
    | .error failure => .error (.expression failure)
    | .ok ty => .ok ty

end Bindcheck
