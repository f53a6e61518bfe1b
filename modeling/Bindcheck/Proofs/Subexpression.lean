/-
Bindcheck.Proofs.Subexpression — the expressions and leaves inside the
code of a program, and where their texts stand.

* `Expr.Contains` goes down through groups; `Expr.HasLeaf` is a literal
  or variable at the end of such a way.
* `LocatedExpr` and `LocatedOperand` are the invariants. They say that
  an expression or an operand is the code of a tree whose text stands at
  its own offset in the source.
* `LocatedExpr.operand` and `LocatedOperand.inner` are the two steps
  down, so `LocatedExpr.contains` is an induction on the way.
* `exists_located` begins it: the expression of each statement of a
  program is located, over the names that the statements before assign.
-/
import Bindcheck.Proofs.Grammar.Soundness

namespace Bindcheck

/-! ## Inside an expression -/

/-- An expression stands inside another: it is the same, or stands inside one of its groups. -/
inductive Expr.Contains : Expr → Expr → Prop
  | self (e : Expr) : e.Contains e
  | group {e inner x : Expr} (hmem : .group inner ∈ e.operands) (h : inner.Contains x) :
    e.Contains x

/-- The operand is a literal or a variable. -/
def Operand.IsLeaf : Operand → Prop
  | .literal _ _ => True
  | .var _ _ _ => True
  | .group _ => False

/-- The literals and variables of an expression, at any depth. -/
def Expr.HasLeaf (e : Expr) (x : Operand) : Prop :=
  x.IsLeaf ∧ ∃ inner, e.Contains inner ∧ x ∈ inner.operands

namespace Grammar

variable {scope : Scope} {ty : Ty} {c : Cursor}

/-! ## Where operands and expressions stand -/

/-- The operand is the code of a tree whose text stands in the text at a cursor. -/
inductive LocatedOperand (scope : Scope) (ty : Ty) (c : Cursor) (x : Operand) : Prop
  | intro (t : OperandTree) (before behind : Text)
    (hrest : c.rest = before ++ (t.text ++ behind)) (hw : t.Written)
    (hn : t.nesting ≤ nestingLimit) (ht : t.HasType scope ty)
    (hx : x = t.elaborate scope (c.offset + before.length))

/-- The expression is the code of a tree whose text, with layout behind it, stands in the text
at a cursor. -/
inductive LocatedExpr (scope : Scope) (ty : Ty) (c : Cursor) (e : Expr) : Prop
  | intro (t : ExprTree) (before trailing behind : Text)
    (hrest : c.rest = before ++ (t.text ++ (trailing ++ behind))) (hb : Layout trailing)
    (hw : t.Written) (hn : t.nesting ≤ nestingLimit) (ht : t.HasType scope ty)
    (he : e = t.elaborate scope (c.offset + before.length) trailing.length)

/-- What is located in a part of a text is located in the text. -/
theorem LocatedOperand.widen {x : Operand} {o : Nat} {a text b : Text}
    (h : LocatedOperand scope ty ⟨o + a.length, text⟩ x) :
    LocatedOperand scope ty ⟨o, a ++ (text ++ b)⟩ x := by
  obtain ⟨t, before, behind, hrest, hw, hn, ht, rfl⟩ := h
  simp only at hrest
  refine ⟨t, a ++ before, behind ++ b, ?_, hw, hn, ht, ?_⟩
  · simp [hrest]
  · simp [Nat.add_assoc]

/-- The operands of a chain stand in its text. -/
theorem ChainTree.located (t : ChainTree) (hw : t.Written) (hn : t.nesting ≤ nestingLimit)
    (ht : t.HasType scope ty) {o : Nat} {x : Operand}
    (hx : x ∈ (t.elaborate scope o).toList.map (·.2)) :
    LocatedOperand scope ty ⟨o, t.text⟩ x := by
  match t with
  | .nil => cases hx
  | .cons before op after operand links =>
    have hnest := Nat.max_le.mp hn
    obtain ⟨-, -, -, -, hoperand, hlinks⟩ := hw
    have hlength : ∀ text : Text, o + (before ++ (op.symbol.toList ++ (after ++ text))).length
        = o + before.length + op.symbol.toList.length + after.length + text.length := by
      intro text
      simp only [List.length_append, Nat.add_assoc]
    rcases List.mem_cons.mp hx with rfl | hx
    · refine ⟨operand, before ++ (op.symbol.toList ++ after), links.text, ?_, hoperand, hnest.1,
        ht.1, ?_⟩
      · simp [ChainTree.text]
      · have hstart := hlength []
        rw [List.append_nil] at hstart
        rw [hstart]
        rfl
    · have hlater := ChainTree.located links hlinks hnest.2 ht.2 hx
      rw [← hlength] at hlater
      have hwide := hlater.widen (b := [])
      simpa [ChainTree.text] using hwide

theorem ExprTree.located {t : ExprTree} (hw : t.Written) (hn : t.nesting ≤ nestingLimit)
    (ht : t.HasType scope ty) {o trailing : Nat} {x : Operand}
    (hx : x ∈ (t.elaborate scope o trailing).operands) :
    LocatedOperand scope ty ⟨o, t.text⟩ x := by
  cases t with
  | mk first links =>
    have hnest := Nat.max_le.mp hn
    rcases List.mem_cons.mp hx with rfl | hx
    · exact ⟨first, [], links.text, rfl, hw.1, hnest.1, ht.1, rfl⟩
    · have hwide := (ChainTree.located links hw.2 hnest.2 ht.2 hx).widen (b := [])
      rwa [List.append_nil] at hwide

theorem LocatedExpr.operand {e : Expr} {x : Operand} (h : LocatedExpr scope ty c e)
    (hx : x ∈ e.operands) : LocatedOperand scope ty c x := by
  obtain ⟨t, before, trailing, behind, hrest, -, hw, hn, ht, rfl⟩ := h
  have hin := (ExprTree.located hw hn ht hx).widen (b := trailing ++ behind)
  rwa [← hrest] at hin

/-- The expression of a located group is located. -/
theorem LocatedOperand.inner {e : Expr} (h : LocatedOperand scope ty c (.group e)) :
    LocatedExpr scope ty c e := by
  obtain ⟨t, before, behind, hrest, hw, hn, ht, hx⟩ := h
  match t with
  | .string literal contents => cases hx
  | .integer digits => cases hx
  | .name letters => cases hx
  | .group opening inner closing =>
    obtain ⟨-, hinner, hclosing⟩ := hw
    refine ⟨inner, before ++ '(' :: opening, closing, ')' :: behind, ?_, hclosing, hinner,
      Nat.le_of_succ_le hn, ht, ?_⟩
    · rw [hrest]
      simp [OperandTree.text]
    · rw [Operand.group.inj hx, List.length_append, List.length_cons]
      congr 1
      omega

/-- What stands inside a located expression is located. -/
theorem LocatedExpr.contains {e x : Expr} (h : LocatedExpr scope ty c e) (hx : e.Contains x) :
    LocatedExpr scope ty c x := by
  induction hx with
  | self e => exact h
  | group hmem _ ih => exact ih (h.operand hmem).inner

theorem LocatedExpr.leaf {e : Expr} {x : Operand} (h : LocatedExpr scope ty c e)
    (hx : e.HasLeaf x) : LocatedOperand scope ty c x := by
  obtain ⟨-, inner, hinner, hmem⟩ := hx
  exact (h.contains hinner).operand hmem

/-! ## The expressions of statements -/

/-- An expression that is located in the back of a text is located in the text. -/
theorem LocatedExpr.widen {e : Expr} {o : Nat} {a text : Text}
    (h : LocatedExpr scope ty ⟨o + a.length, text⟩ e) : LocatedExpr scope ty ⟨o, a ++ text⟩ e := by
  obtain ⟨t, before, trailing, behind, hrest, hb, hw, hn, ht, rfl⟩ := h
  simp only at hrest
  refine ⟨t, a ++ before, trailing, behind, ?_, hb, hw, hn, ht, ?_⟩
  · simp [hrest]
  · simp [Nat.add_assoc]

/-- The expression of an assignment stands in its text. -/
theorem AssignmentTree.located {t : AssignmentTree} (hw : t.Written)
    (ht : t.expr.HasType scope ty) (o : Nat) (rest : Text) :
    LocatedExpr scope ty ⟨o, t.text ++ rest⟩ (t.elaborate scope o).expr := by
  refine ⟨t.expr, t.before ++ (t.name ++ (t.beforeSign ++ '=' :: t.afterSign)), t.beforeEnd,
    ';' :: rest, ?_, hw.beforeEnd, hw.expr, hw.nesting, ht, ?_⟩
  · simp [AssignmentTree.text, AssignmentTree.tail]
  · simp only [AssignmentTree.elaborate, AssignmentTree.exprStart, List.length_append,
      List.length_cons]
    congr 1
    omega

/-- The expressions of assignments stand in their text, each over the names assigned before it. -/
theorem located_elaborateAll {trees : List AssignmentTree} (hw : ∀ t ∈ trees, t.Written)
    (ht : WellTyped scope trees) (o : Nat) (rest : Text) {k : Nat} {a : Assignment}
    (ha : (elaborateAll scope o trees)[k]? = some a) :
    LocatedExpr (scope.bindAll ((elaborateAll scope o trees).take k)) a.expr.ty
      ⟨o, trees.flatMap AssignmentTree.text ++ rest⟩ a.expr := by
  induction trees generalizing scope o k with
  | nil => cases ha
  | cons t trees ih =>
    obtain ⟨ty, htype, hlater⟩ := ht
    have hty : (t.elaborate scope o).expr.ty = ty := ExprTree.ty_elaborate _ htype _ _
    rw [List.flatMap_cons, List.append_assoc]
    cases k with
    | zero =>
      obtain rfl : t.elaborate scope o = a := Option.some.inj ha
      show LocatedExpr scope (t.elaborate scope o).expr.ty _ _
      rw [hty]
      exact AssignmentTree.located (hw t List.mem_cons_self) htype o _
    | succ k =>
      rw [← hty] at hlater
      exact (ih (fun u hu => hw u (List.mem_cons_of_mem t hu)) hlater _ ha).widen

/-- The statements of a program are assignments, whose expressions are located. -/
theorem exists_located {source : Text} {code : Code} (h : Code.ofProgram source = .ok code) :
    ∃ assignments : List Assignment, code.statements = assignments.map .assignment ∧
      code.symbols = SymbolTable.empty.bindAll assignments ∧
      ∀ k a, assignments[k]? = some a →
        LocatedExpr (Scope.bindAll (fun _ => none) (assignments.take k)) a.expr.ty
          (Cursor.start source) a.expr := by
  obtain ⟨d⟩ := exists_derivation h
  rw [d.ofProgram_eq] at h
  cases h
  refine ⟨_, rfl, rfl, ?_⟩
  intro k a ha
  have hlocated := located_elaborateAll d.written d.typed 0 d.trailing ha
  rwa [d.text_eq] at hlocated

/-- The expressions of the assignments that are read stand in the text, over any names and whatever
is refused behind them. -/
theorem exists_located_of_read {table : SymbolTable} {a : Assignment}
    (h : a ∈ (Progress.read table c).statements) : ∃ scope ty, LocatedExpr scope ty c a.expr := by
  induction hn : c.rest.length using Nat.strongRecOn generalizing table c with
  | _ n ih =>
    rw [Progress.read_eq] at h
    cases hread : (Reader.assignment table).run c with
    | error f d =>
      rw [hread] at h
      cases h
    | ok found d =>
      rw [hread] at h
      cases found with
      | none => cases h
      | some first =>
        have hshorter : d.rest.length < n := hn ▸ Reader.consumes_assignment table hread
        obtain ⟨t, ty, hrest, hoffset, hw, hty, rfl⟩ := AssignmentTree.exists_of_run hread
        obtain ⟨o, text⟩ := c
        obtain ⟨p, rest⟩ := d
        obtain rfl : text = t.text ++ rest := hrest
        obtain rfl : p = o + t.text.length := hoffset
        rcases List.mem_cons.mp h with rfl | hlater
        · exact ⟨table.scope, ty, AssignmentTree.located hw hty o rest⟩
        · obtain ⟨scope, ty', hlocated⟩ := ih rest.length hshorter hlater rfl
          exact ⟨scope, ty', hlocated.widen⟩

end Grammar

end Bindcheck
