/-
Bindcheck.Proofs.Reparse — the span of an expression is the text of the
expression.

Cut the span of an expression out of a program, at any depth, and read
the piece alone over the names that the program binds: the result is the
same expression, moved to the front. The same holds of literals and
variables, which are read as an expression without operators.

`LocatedExpr` says which text stands at the span. That text is read back
without what stood around it, since the tree in it is spelled out, and
over the larger table, since no name in it changes its type. That the
code of a tree only depends on where it stands through its spans is
`ExprTree.elaborate_shift`.
-/
import Mathlib.Control.Monad.Basic
import Bindcheck.Checker
import Bindcheck.Proofs.Shift.Code
import Bindcheck.Proofs.Subexpression

namespace Bindcheck

open Grammar

/-- A span that covers a piece in the middle of a text cuts it out. -/
theorem Span.slice_middle (a b c : Text) :
    (⟨a.length, a.length + b.length⟩ : Span).slice (a ++ (b ++ c)) = b := by
  simp [slice]

/-- The text, read alone over the names of a table, is the expression. -/
def ReadsAs (text : Text) (table : SymbolTable) (e : Expr) : Prop :=
  let r := (Checker.withSymbols text table).readExpression
  r.1 = .ok () ∧ r.2.code.statements = [.expression e ⟨0, text.length⟩]

namespace Grammar

variable {scope : Scope} {ty : Ty}

/-! ## Code further along -/

mutual

/-- The code of an operand further along is its code, moved. -/
theorem OperandTree.elaborate_shift (t : OperandTree) (scope : Scope) (start distance : Nat) :
    t.elaborate scope (start + distance) = (t.elaborate scope start).shift distance := by
  match t with
  | .group opening inner closing =>
    have hstart : start + distance + 1 + opening.length
        = start + 1 + opening.length + distance := by omega
    simp only [OperandTree.elaborate, Operand.shift, hstart]
    rw [ExprTree.elaborate_shift inner]
  | .string literal contents =>
    simp only [OperandTree.elaborate, Operand.shift, Span.shift, Nat.add_right_comm]
  | .integer digits =>
    simp only [OperandTree.elaborate, Operand.shift, Span.shift, Nat.add_right_comm]
  | .name letters =>
    simp only [OperandTree.elaborate, Operand.shift, Span.shift, Nat.add_right_comm]

theorem ExprTree.elaborate_shift (t : ExprTree) (scope : Scope)
    (start trailing distance : Nat) :
    t.elaborate scope (start + distance) trailing
      = (t.elaborate scope start trailing).shift distance := by
  match t with
  | .mk first links =>
    have hspan : start + distance + (first.text.length + links.text.length) + trailing
        = start + (first.text.length + links.text.length) + trailing + distance := by omega
    simp only [ExprTree.elaborate, Expr.shift, Span.shift, hspan]
    rw [OperandTree.elaborate_shift first, Nat.add_right_comm start distance,
      ChainTree.elaborate_shift links]

theorem ChainTree.elaborate_shift (t : ChainTree) (scope : Scope) (start distance : Nat) :
    t.elaborate scope (start + distance) = (t.elaborate scope start).shift distance := by
  match t with
  | .nil => rfl
  | .cons before op after operand links =>
    have hopened : start + distance + before.length + op.symbol.toList.length + after.length
        = start + before.length + op.symbol.toList.length + after.length + distance := by omega
    simp only [ChainTree.elaborate, Chain.shift, hopened]
    rw [OperandTree.elaborate_shift operand, Nat.add_right_comm _ distance,
      ChainTree.elaborate_shift links]

end

/-! ## Pieces of a program -/

/-- What is located over some names is located over more of them. -/
theorem LocatedExpr.mono {larger : Scope} {c : Cursor} {e : Expr}
    (h : LocatedExpr scope ty c e) (hs : scope.Subset larger) : LocatedExpr larger ty c e := by
  obtain ⟨t, before, trailing, behind, hrest, hb, hw, hn, ht, rfl⟩ := h
  refine ⟨t, before, trailing, behind, hrest, hb, hw, hn, ht.mono hs, ?_⟩
  rw [ExprTree.elaborate_of_subset t ht hs]

/-- A tree that is spelled out is read back alone, with the layout behind it. -/
theorem ExprTree.readsAs {t : ExprTree} {table : SymbolTable} {trailing : Text}
    (hw : t.Written) (hn : t.nesting ≤ nestingLimit) (ht : t.HasType table.scope ty)
    (hb : FinalLayout trailing) :
    ReadsAs (t.text ++ trailing) table (t.elaborate table.scope 0 trailing.length) := by
  simp [ReadsAs, Checker.readExpression, Checker.withSymbols, ExprTree.run_wholeExpr hw hn ht hb]

/-- The code of an expression has the span of its text and the layout behind it. -/
theorem ExprTree.span_elaborate (t : ExprTree) (scope : Scope) (start trailing : Nat) :
    (t.elaborate scope start trailing).span = ⟨start, start + (t.text.length + trailing)⟩ := by
  cases t with
  | mk first links =>
    simp only [ExprTree.elaborate, Expr.span, ExprTree.text, List.length_append, Nat.add_assoc]

theorem OperandTree.span_elaborate {t : OperandTree} {start : Nat}
    (h : (t.elaborate scope start).IsLeaf) :
    (t.elaborate scope start).span = ⟨start, start + t.text.length⟩ := by
  cases t with
  | group opening inner closing => cases h
  | string literal contents => rfl
  | integer digits => rfl
  | name letters => rfl

/-- A literal or variable of a located expression is the code of a tree whose text stands in its
span. -/
theorem LocatedExpr.exists_tree {source : Text} {e : Expr} {x : Operand}
    (h : LocatedExpr scope ty (Cursor.start source) e) (hleaf : e.HasLeaf x) :
    ∃ (t : OperandTree) (start : Nat), t.Written ∧ x.span.slice source = t.text ∧
      x = t.elaborate scope start := by
  obtain ⟨t, before, behind, hrest, hw, -, -, rfl⟩ := h.leaf hleaf
  have hsource : source = before ++ (t.text ++ behind) := hrest
  have hoffset : (Cursor.start source).offset + before.length = before.length := Nat.zero_add _
  refine ⟨t, _, hw, ?_, rfl⟩
  rw [OperandTree.span_elaborate hleaf.1, hoffset, hsource, Span.slice_middle]

/-- A literal or variable of a program is the code of a tree whose text stands in its span. -/
theorem exists_tree_of_hasLeaf {source : Text} {code : Code} {s : Statement} {x : Operand}
    (h : Code.ofProgram source = .ok code) (hs : s ∈ code.statements)
    (hleaf : s.expr.HasLeaf x) :
    ∃ (t : OperandTree) (scope : Scope) (start : Nat), t.Written ∧
      x.span.slice source = t.text ∧ x = t.elaborate scope start := by
  obtain ⟨assignments, hstatements, -, hlocated⟩ := exists_located h
  rw [hstatements] at hs
  obtain ⟨a, ha, rfl⟩ := List.mem_map.mp hs
  obtain ⟨k, hk⟩ := List.mem_iff_getElem?.mp ha
  obtain ⟨t, start, hfound⟩ := (hlocated k a hk).exists_tree hleaf
  exact ⟨t, _, start, hfound⟩

/-- The span of a located expression is read back as the expression. -/
theorem LocatedExpr.readsAs {table : SymbolTable} {source : Text} {e : Expr}
    (h : LocatedExpr table.scope ty (Cursor.start source) e) :
    ∃ e' : Expr, e'.shift e.span.start = e ∧ ReadsAs (e.span.slice source) table e' := by
  obtain ⟨t, before, trailing, behind, hrest, hb, hw, hn, ht, rfl⟩ := h
  have hsource : source = before ++ ((t.text ++ trailing) ++ behind) := by
    rw [List.append_assoc]
    exact hrest
  have hoffset : (Cursor.start source).offset + before.length = before.length := Nat.zero_add _
  refine ⟨t.elaborate table.scope 0 trailing.length, ?_, ?_⟩
  · rw [hoffset, ExprTree.span_elaborate, ← ExprTree.elaborate_shift, Nat.zero_add]
  · rw [hoffset, ExprTree.span_elaborate, ← List.length_append, hsource, Span.slice_middle]
    exact ExprTree.readsAs hw hn ht (.closed hb)

/-- The span of a located literal or variable is read back as that operand alone. -/
theorem LocatedOperand.readsAs {table : SymbolTable} {source : Text} {x : Operand}
    (h : LocatedOperand table.scope ty (Cursor.start source) x) (hleaf : x.IsLeaf) :
    ∃ x' : Operand, x'.shift x.span.start = x ∧
      ReadsAs (x.span.slice source) table (.mk x' .nil x'.span) := by
  obtain ⟨t, before, behind, hrest, hw, hn, ht, rfl⟩ := h
  have hsource : source = before ++ (t.text ++ behind) := hrest
  have hoffset : (Cursor.start source).offset + before.length = before.length := Nat.zero_add _
  rw [hoffset] at hleaf ⊢
  have hfront : (t.elaborate table.scope 0).IsLeaf := by
    cases t with
    | group opening inner closing => exact hleaf
    | string literal contents => trivial
    | integer digits => trivial
    | name letters => trivial
  refine ⟨t.elaborate table.scope 0, ?_, ?_⟩
  · rw [OperandTree.span_elaborate hleaf, ← OperandTree.elaborate_shift, Nat.zero_add]
  · have hread : ReadsAs ((ExprTree.mk t .nil).text ++ []) table
        ((ExprTree.mk t .nil).elaborate table.scope 0 0) :=
      ExprTree.readsAs ⟨hw, trivial⟩ (Nat.max_le.mpr ⟨hn, Nat.zero_le _⟩) ⟨ht, trivial⟩
        (.closed .nil)
    rw [OperandTree.span_elaborate hleaf, hsource, Span.slice_middle,
      OperandTree.span_elaborate hfront]
    simpa [ExprTree.text, ChainTree.text, ExprTree.elaborate, ChainTree.elaborate] using hread

end Grammar

/-- The span of each expression inside a program is read back as that expression, and the span of
each literal and variable as that operand alone. -/
theorem subexpression_readsAs {source : Text} {code : Code}
    (h : Code.ofProgram source = .ok code) {s : Statement} (hs : s ∈ code.statements) {e : Expr}
    (he : s.expr.Contains e) :
    (∃ e' : Expr, e'.shift e.span.start = e ∧
      ReadsAs (e.span.slice source) code.symbols e') ∧
    ∀ x ∈ e.operands, x.IsLeaf → ∃ x' : Operand, x'.shift x.span.start = x ∧
      ReadsAs (x.span.slice source) code.symbols (.mk x' .nil x'.span) := by
  obtain ⟨assignments, hstatements, hsymbols, hlocated⟩ := exists_located h
  rw [hstatements] at hs
  obtain ⟨a, ha, rfl⟩ := List.mem_map.mp hs
  obtain ⟨k, hk⟩ := List.mem_iff_getElem?.mp ha
  -- the names of all statements include those of the statements before
  have hscope : Scope.Subset (Scope.bindAll (fun _ => none) (assignments.take k))
      code.symbols.scope := by
    rw [hsymbols, SymbolTable.scope_bindAll, SymbolTable.scope_empty]
    conv => rhs; rw [← List.take_append_drop k assignments, Scope.bindAll_append]
    exact Scope.subset_bindAll _ _
  have hin := ((hlocated k a hk).mono hscope).contains he
  exact ⟨hin.readsAs, fun x hx hleaf => (hin.operand hx).readsAs hleaf⟩

/-- The expression of a group, with the blank before its parenthesis, is read back alone. -/
theorem group_readsAs :
    let inner : Expr :=
      .mk (.var "a" .int ⟨7, 8⟩) (.cons .add (.literal (.int 2) ⟨10, 11⟩) .nil) ⟨7, 12⟩
    ∃ code, Code.ofProgram "a=1;b=(a+ 2 );".toList = .ok code ∧
      (∃ s ∈ code.statements, s.expr.Contains inner) ∧
      ∃ e' : Expr, e'.shift 7 = inner ∧ ReadsAs "a+ 2 ".toList code.symbols e' := by
  intro inner
  have hcode : Code.ofProgram "a=1;b=(a+ 2 );".toList = .ok
      ⟨[.assignment ⟨"a", .mk (.literal (.int 1) ⟨2, 3⟩) .nil ⟨2, 3⟩, ⟨0, 4⟩⟩,
        .assignment ⟨"b", .mk (.group inner) .nil ⟨6, 13⟩, ⟨4, 14⟩⟩],
        .ofList [("a", ⟨some "a", .int⟩), ("b", ⟨some "b", .int⟩)]⟩ := by
    decide +kernel
  have hstatement : Statement.assignment ⟨"b", .mk (.group inner) .nil ⟨6, 13⟩, ⟨4, 14⟩⟩ ∈
      [.assignment ⟨"a", .mk (.literal (.int 1) ⟨2, 3⟩) .nil ⟨2, 3⟩, ⟨0, 4⟩⟩,
        .assignment ⟨"b", .mk (.group inner) .nil ⟨6, 13⟩, ⟨4, 14⟩⟩] :=
    List.mem_cons_of_mem _ List.mem_cons_self
  have hinner : (Expr.mk (.group inner) .nil ⟨6, 13⟩).Contains inner :=
    .group List.mem_cons_self (.self inner)
  exact ⟨_, hcode, ⟨_, hstatement, hinner⟩, (subexpression_readsAs hcode hstatement hinner).1⟩

end Bindcheck
