/-
Bindcheck.Proofs.Nesting.Limit — how deep an expression may be nested,
exactly.

`wrapped k e` puts `k` pairs of parentheses around a text, a line feed in
front of each closing one. If the text is an expression, also one with a
comment at its end, then so is the wrapped text, `k` groups deeper
(`IsExpr.wrapped`). Up to the limit it is read back. Past the limit two
facts meet: with all the parentheses allowed that it needs it is read as
code that is too deep, and no reader finds such code with fewer of them.
By `Reader.tighter_operand` the nesting is refused then, and by
`Counting.tracks_expr` at the first parenthesis that is too deep.

`nestingLimit_exact` puts this together with the counter that the readers
may share.
-/
import Bindcheck.Proofs.Nesting.Allowance
import Bindcheck.Proofs.Nesting.Readers
import Bindcheck.Proofs.Query
import Bindcheck.Proofs.Refusal.Cause

namespace Bindcheck

open Grammar Reader

/-! ## The nesting of code -/

mutual

/-- How many groups the deepest literal or variable of an operand is inside of. -/
def Operand.nesting : Operand → Nat
  | .literal _ _ => 0
  | .var _ _ _ => 0
  | .group inner => inner.nesting + 1

def Expr.nesting : Expr → Nat
  | .mk first rest _ => max first.nesting rest.nesting

def Chain.nesting : Chain → Nat
  | .nil => 0
  | .cons _ operand rest => max operand.nesting rest.nesting

end

namespace Grammar

variable {scope : Scope} {ty : Ty} {table : SymbolTable} {n : Nat} {text : Text}

mutual

/-- The code of an operand is nested as deep as its tree. -/
theorem OperandTree.nesting_elaborate (t : OperandTree) (scope : Scope) (start : Nat) :
    (t.elaborate scope start).nesting = t.nesting := by
  match t with
  | .group opening inner closing =>
    simp only [OperandTree.elaborate, Operand.nesting, OperandTree.nesting,
      ExprTree.nesting_elaborate inner]
  | .string literal contents => rfl
  | .integer digits => rfl
  | .name letters => rfl

theorem ExprTree.nesting_elaborate (t : ExprTree) (scope : Scope) (start trailing : Nat) :
    (t.elaborate scope start trailing).nesting = t.nesting := by
  match t with
  | .mk first links =>
    simp only [ExprTree.elaborate, Expr.nesting, ExprTree.nesting,
      OperandTree.nesting_elaborate first, ChainTree.nesting_elaborate links]

theorem ChainTree.nesting_elaborate (t : ChainTree) (scope : Scope) (start : Nat) :
    (t.elaborate scope start).nesting = t.nesting := by
  match t with
  | .nil => rfl
  | .cons before op after operand links =>
    simp only [ChainTree.elaborate, Chain.nesting, ChainTree.nesting,
      OperandTree.nesting_elaborate operand, ChainTree.nesting_elaborate links]

end

/-- No assignment that is read is nested deeper than may be, also if a later one is refused. -/
theorem nesting_le_of_mem_read {c : Cursor} {a : Assignment}
    (ha : a ∈ (Progress.read table c).statements) : a.expr.nesting ≤ nestingLimit := by
  induction hn : c.rest.length using Nat.strongRecOn generalizing table c with
  | _ size ih =>
    rw [Progress.read_eq] at ha
    cases hread : (assignment table).run c with
    | error f d => simp [hread] at ha
    | ok found d =>
      cases found with
      | none => simp [hread] at ha
      | some first =>
        simp only [hread, List.mem_cons] at ha
        rcases ha with rfl | ha
        · obtain ⟨t, ty, -, -, hw, -, rfl⟩ := AssignmentTree.exists_of_run hread
          rw [AssignmentTree.elaborate, ExprTree.nesting_elaborate]
          exact hw.nesting
        · exact ih d.rest.length (hn ▸ consumes_assignment table hread) ha rfl

theorem nesting_le_of_ofProgram {source : Text} {code : Code}
    (h : Code.ofProgram source = .ok code) {s : Statement} (hs : s ∈ code.statements) :
    s.expr.nesting ≤ nestingLimit := by
  simp only [Code.ofProgram] at h
  split at h
  · cases h
  · split at h
    · cases h
      obtain ⟨a, ha, rfl⟩ := List.mem_map.mp hs
      exact nesting_le_of_mem_read ha
    · cases h

/-! ## Texts of expressions -/

/-- The text is an expression so many groups deep, of a type, with layout around it. -/
inductive IsExpr (scope : Scope) (ty : Ty) (n : Nat) (text : Text) : Prop
  | intro (before : Text) (t : ExprTree) (trailing : Text)
    (htext : text = before ++ (t.text ++ trailing)) (hb : Layout before) (hw : t.Written)
    (hn : t.nesting = n) (ht : t.HasType scope ty) (hf : FinalLayout trailing)

/-- Parentheses around an expression, with a line feed before the closing one. -/
def wrapped : Nat → Text → Text
  | 0, e => e
  | k + 1, e => '(' :: (wrapped k e ++ ['\n', ')'])

/-- The line feed ends a comment behind the expression, so the parenthesis is code. -/
theorem IsExpr.wrap (h : IsExpr scope ty n text) :
    IsExpr scope ty (n + 1) ('(' :: (text ++ ['\n', ')'])) := by
  obtain ⟨before, t, trailing, rfl, hb, hw, rfl, ht, hf⟩ := h
  refine ⟨[], .mk (.group before t (trailing ++ ['\n'])) .nil, [], ?_, .nil,
    ⟨⟨hb, hw, hf.append_lineFeed⟩, trivial⟩, Nat.max_eq_left (Nat.zero_le _), ⟨ht, trivial⟩,
    .closed .nil⟩
  simp [ExprTree.text, ChainTree.text, OperandTree.text]

theorem IsExpr.wrapped (h : IsExpr scope ty n text) (k : Nat) :
    IsExpr scope ty (n + k) (wrapped k text) := by
  induction k with
  | zero => exact h
  | succ k ih => exact ih.wrap

/-- Up to the limit an expression is accepted. -/
theorem IsExpr.accepted (h : IsExpr table.scope ty n text) (hn : n ≤ nestingLimit) :
    inferType text table = .ok ty := by
  obtain ⟨before, t, trailing, rfl, hb, hw, rfl, ht, hf⟩ := h
  exact inferType_eq_ok hb hw hn ht hf

/-- Past the limit no expression is read, since it would be nested too deeply. -/
theorem IsExpr.run_expr (h : IsExpr table.scope ty n text) (hn : nestingLimit < n) :
    ∃ span d, (expr table).run (Cursor.start text) = .error ⟨.nestedTooDeeply, span⟩ d := by
  obtain ⟨before, t, trailing, rfl, hb, hw, rfl, ht, hf⟩ := h
  have hread := ExprTree.run_expression t hw (Nat.le_refl _) ht hb hf.stops 0
  have htighter := tighter_expression (tighter_operand table (Nat.le_of_lt hn))
    (Cursor.start (before ++ (t.text ++ trailing)))
  cases htighter with
  | tooDeep span d herror => exact ⟨span, d, herror⟩
  | same hsame =>
    obtain ⟨t', trailing', hfound⟩ :=
      (finds_operand table nestingLimit).expression (hsame.trans hread)
    have hcode := congrArg Expr.nesting hfound.eq_elaborate
    rw [ExprTree.nesting_elaborate, ExprTree.nesting_elaborate] at hcode
    have hn' := hfound.nesting
    omega

/-- Past the limit the first parenthesis that is too deep is refused. -/
theorem IsExpr.tooDeep (h : IsExpr table.scope ty n text) (hn : nestingLimit < n) :
    ∃ p, inferType text table = .error ⟨.nestedTooDeeply, Span.single p⟩ ∧
      FirstTooDeep text p := by
  obtain ⟨span, d, hread⟩ := h.run_expr hn
  obtain ⟨p, rfl, hfirst⟩ :=
    Counting.tracks_expr.error (Cursor.start text) _ d (level_start text) hread rfl
  refine ⟨p, ?_, hfirst⟩
  simp only [inferType, wholeExpr, run_bind, run_offset, Outcome.ok_andThen, hread,
    Outcome.error_andThen]

/-- An expression that is accepted is one, as deep as its code. -/
theorem exists_of_inferType (h : inferType text table = .ok ty) :
    ∃ x, Code.ofExpression text table = .ok ⟨[.expression x ⟨0, text.length⟩], table⟩ ∧
      IsExpr table.scope ty x.nesting text := by
  unfold inferType at h
  split at h
  · rename_i s d hread
    cases h
    obtain ⟨before, t, trailing, ty, htext, hb, hf, hw, -, ht, rfl⟩ :=
      ExprTree.exists_of_wholeExpr hread
    refine ⟨_, by rw [Code.ofExpression, hread], ?_⟩
    show IsExpr table.scope (t.elaborate table.scope before.length trailing.length).ty _ text
    rw [ExprTree.ty_elaborate t ht, ExprTree.nesting_elaborate]
    exact ⟨before, t, trailing, htext, hb, hw, rfl, ht, hf⟩
  · cases h

/-- An expression that is accepted is not nested deeper than may be. -/
theorem nesting_le_of_ofExpression {source : Text} {code : Code}
    (h : Code.ofExpression source table = .ok code) {s : Statement} (hs : s ∈ code.statements) :
    s.expr.nesting ≤ nestingLimit := by
  unfold Code.ofExpression at h
  split at h
  · rename_i s' d hread
    cases h
    obtain ⟨before, t, trailing, ty, -, -, -, -, hn, -, rfl⟩ := ExprTree.exists_of_wholeExpr hread
    obtain rfl := List.mem_singleton.mp hs
    rw [Statement.expr, ExprTree.nesting_elaborate]
    exact hn
  · cases h

end Grammar

/-- An expression may be wrapped up to the limit and no further. The counter is at every operand how
many parentheses are open, and it comes back to where it was. No code that is kept is deeper. -/
theorem nestingLimit_exact (table : SymbolTable) :
    (∀ e ty, inferType e table = .ok ty →
      ∃ x, Code.ofExpression e table = .ok ⟨[.expression x ⟨0, e.length⟩], table⟩ ∧ ∀ k,
        (inferType (wrapped k e) table = .ok ty ↔ x.nesting + k ≤ nestingLimit) ∧
        (nestingLimit < x.nesting + k → ∃ f p, inferType (wrapped k e) table = .error f ∧
          f.cause.kind = .parse ∧ f.cause.message = "Expressions nested too deeply" ∧
          f.span = Span.single p ∧ FirstTooDeep (wrapped k e) p)) ∧
    (∀ n g c, g.depth ≤ nestingLimit → nestingLimit < g.depth + n →
      Counted g (Counting.operand table n g c)
        ((operand table (nestingLimit - g.depth)).run c) ∧
      (c.pastLayout.offset, g.depth) ∈ (Counting.operand table n g c).2.seen) ∧
    (∀ source g, g.depth = 0 → g.Honest source →
      let expression := Counting.wholeExpr table g (Cursor.start source)
      let program := Counting.program table g (Cursor.start source)
      Counted g expression ((wholeExpr table).run (Cursor.start source)) ∧
      expression.2.Honest source ∧
      Counted g program (Progress.read table (Cursor.start source)) ∧
      program.2.Honest source) ∧
    (∀ source code s, Code.ofExpression source table = .ok code → s ∈ code.statements →
      s.expr.nesting ≤ nestingLimit) ∧
    (∀ source code s, Code.ofProgram source = .ok code → s ∈ code.statements →
      s.expr.nesting ≤ nestingLimit) ∧
    ∀ source a, a ∈ (Progress.read table (Cursor.start source)).statements →
      a.expr.nesting ≤ nestingLimit := by
  refine ⟨?_, ?_, ?_, fun _ _ _ h hs => nesting_le_of_ofExpression h hs,
    fun _ _ _ h hs => nesting_le_of_ofProgram h hs, fun _ _ => nesting_le_of_mem_read⟩
  · intro e ty h
    obtain ⟨x, hcode, hexpr⟩ := exists_of_inferType h
    refine ⟨x, hcode, ?_⟩
    intro k
    have hdeep : nestingLimit < x.nesting + k → ∃ p,
        inferType (wrapped k e) table = .error ⟨.nestedTooDeeply, Span.single p⟩ ∧
          FirstTooDeep (wrapped k e) p := (hexpr.wrapped k).tooDeep
    constructor
    · constructor
      · intro hok
        by_contra hn
        obtain ⟨p, herror, -⟩ := hdeep (Nat.lt_of_not_le hn)
        rw [hok] at herror
        cases herror
      · exact (hexpr.wrapped k).accepted
    · intro hn
      obtain ⟨p, herror, hfirst⟩ := hdeep hn
      exact ⟨_, p, herror, rfl, rfl, rfl, hfirst⟩
  · intro n g c hdepth hn
    have hoperand : Counting.Stays [] g.depth (Counting.operand table n)
        (operand table (nestingLimit - g.depth)) ∧ _ := Counting.tracks_operand table hdepth hn
    obtain ⟨htracks, hnotes⟩ := hoperand
    exact ⟨htracks.counted g c rfl, hnotes g c rfl⟩
  · intro source g hg hhonest
    have htracks : Tracks source 0 (Level source 0) (Counting.wholeExpr table) (wholeExpr table)
        fun _ _ => True := Counting.tracks_wholeExpr
    exact ⟨htracks.counted g _ hg, htracks.honest g _ hg (level_start source) hhonest,
      Counting.counted_program source table hg hhonest⟩

/-- A group counts wherever it stands, and a parenthesis in a comment does not. -/
theorem nestingLimit_beside_operand :
    let e := "1+(2)//(".toList
    inferType (wrapped 127 e) .empty = .ok .int ∧
      (∃ f p, inferType (wrapped 128 e) .empty = .error f ∧
        f.cause.message = "Expressions nested too deeply" ∧ f.span = Span.single p ∧
        FirstTooDeep (wrapped 128 e) p) ∧
      (128, 2) ∈ (Counting.operand .empty 127 ⟨2, []⟩ ⟨128, "'('".toList⟩).2.seen ∧
      (Counting.wholeExpr .empty ⟨0, []⟩ (Cursor.start e)).2.Honest e ∧
      ∃ code, Code.ofProgram "a=((1));".toList = .ok code ∧
        ∀ s ∈ code.statements, s.expr.nesting ≤ nestingLimit := by
  intro e
  obtain ⟨hwrapped, hoperand, hcounted, -, hprogram, -⟩ := nestingLimit_exact .empty
  have hcode : Code.ofExpression e .empty = .ok ⟨[.expression
      (.mk (.literal (.int 1) ⟨0, 1⟩) (.cons .add
        (.group (.mk (.literal (.int 2) ⟨3, 4⟩) .nil ⟨3, 4⟩)) .nil) ⟨0, 8⟩) ⟨0, 8⟩], .empty⟩ := by
    decide +kernel
  obtain ⟨x, hx, hlimit⟩ := hwrapped e .int (by decide +kernel)
  rw [hcode] at hx
  cases hx
  obtain ⟨f, p, herror, -, hmessage, hspan, hfirst⟩ := (hlimit 128).2 (by decide)
  have hassigned : Code.ofProgram "a=((1));".toList = .ok ⟨[.assignment ⟨"a",
      .mk (.group (.mk (.group (.mk (.literal (.int 1) ⟨4, 5⟩) .nil ⟨4, 5⟩)) .nil ⟨3, 6⟩)) .nil
        ⟨2, 7⟩, ⟨0, 8⟩⟩], .ofList [("a", ⟨some "a", .int⟩)]⟩ := by
    decide +kernel
  exact ⟨(hlimit 127).1.mpr (by decide), ⟨f, p, herror, hmessage, hspan, hfirst⟩,
    (hoperand 127 ⟨2, []⟩ ⟨128, "'('".toList⟩ (by decide) (by decide)).2,
    (hcounted e ⟨0, []⟩ rfl (by simp [Gauge.Honest])).2.1,
    _, hassigned, fun s hs => hprogram _ _ s hassigned hs⟩

end Bindcheck
