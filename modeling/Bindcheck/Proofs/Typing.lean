/-
Bindcheck.Proofs.Typing — the types in the code of a program.

`Code.WellTyped` is what the checker promises of the code that it
accepts: one type in each expression at every depth, a table that holds
the first assignment of each name and nothing else, and variables that
are assigned before they are used, with the type that the table gives.
`wellTyped_ofProgram` proves it of every program.

The table grows while the statements are read, and the promise is about
the table at the end. `LocatedExpr` gives each statement the scope that
was there when it was read; `Scope.bindAll_apply` says that what this
scope holds is the first assignment among the statements before, which
is also the first among all.
-/
import Mathlib.Control.Monad.Basic
import Bindcheck.Proofs.Subexpression

namespace Bindcheck

open Grammar

/-- The types in some code agree with each other and with its table. -/
structure Code.WellTyped (code : Code) : Prop where
  /-- At every depth the operands of an expression have its type. -/
  uniform : ∀ s ∈ code.statements, ∀ e, s.expr.Contains e → ∀ x ∈ e.operands, x.ty = e.ty
  /-- Through all groups the literals and variables of a statement have one type. -/
  leaves : ∀ s ∈ code.statements, ∀ x, s.expr.HasLeaf x → x.ty = s.expr.ty
  /-- That type is one that a literal can have. -/
  int_or_str : ∀ s ∈ code.statements, s.expr.ty = .int ∨ s.expr.ty = .str
  /-- The table binds the names that are assigned, each as its first assignment does. -/
  bound : ∀ name, code.symbols.get? name
    = (code.statements.find? fun s => s.target? = some name).map
        fun s => ⟨some name, s.expr.ty⟩
  /-- A variable is assigned before it is used, and has the type that the table gives. -/
  used : ∀ (k : Nat) (s : Statement), code.statements[k]? = some s →
    ∀ name ty span, s.expr.HasLeaf (.var name ty span) →
      (∃ (j : Nat) (t : Statement), j < k ∧ code.statements[j]? = some t ∧
        t.target? = some name) ∧
      code.symbols.get? name = some ⟨some name, ty⟩

namespace Grammar

variable {scope : Scope} {ty : Ty} {c : Cursor}

/-! ## Located expressions -/

theorem LocatedExpr.ty_eq {e : Expr} (h : LocatedExpr scope ty c e) : e.ty = ty := by
  obtain ⟨t, before, trailing, behind, -, -, -, -, ht, rfl⟩ := h
  exact ExprTree.ty_elaborate t ht _ _

theorem LocatedOperand.ty_eq {x : Operand} (h : LocatedOperand scope ty c x) : x.ty = ty := by
  obtain ⟨t, before, behind, -, -, -, ht, rfl⟩ := h
  exact OperandTree.ty_elaborate t ht _

/-- A variable that is located has its type from the scope. -/
theorem LocatedOperand.scope_eq {name : String} {t : Ty} {span : Span}
    (h : LocatedOperand scope ty c (.var name t span)) : scope name = some t := by
  have hty : t = ty := h.ty_eq
  obtain ⟨tree, before, behind, -, -, -, ht, hx⟩ := h
  match tree with
  | .group opening inner closing => cases hx
  | .string literal contents => cases hx
  | .integer digits => cases hx
  | .name letters =>
    cases hx
    show scope (String.ofList letters) = some _
    rw [hty]
    exact ht

mutual

/-- An operand has the type of a literal if all names have. -/
theorem OperandTree.HasType.int_or_str {t : OperandTree} (h : t.HasType scope ty)
    (hs : ∀ name ty, scope name = some ty → ty = .int ∨ ty = .str) : ty = .int ∨ ty = .str := by
  match t with
  | .group opening inner closing => exact ExprTree.HasType.int_or_str (t := inner) h hs
  | .string literal contents => exact .inr h
  | .integer digits => exact .inl h
  | .name letters => exact hs _ _ h

theorem ExprTree.HasType.int_or_str {t : ExprTree} (h : t.HasType scope ty)
    (hs : ∀ name ty, scope name = some ty → ty = .int ∨ ty = .str) : ty = .int ∨ ty = .str := by
  match t with
  | .mk first links => exact OperandTree.HasType.int_or_str h.1 hs

end

/-! ## What the statements before have assigned -/

variable {assignments : List Assignment}

/-- What the first assignments give a type is assigned by one of them, the first of all. -/
theorem exists_first {k : Nat} {name : String}
    (h : Scope.bindAll (fun _ => none) (assignments.take k) name = some ty) :
    ∃ (j : Nat) (a : Assignment), j < k ∧ assignments[j]? = some a ∧ a.name = name ∧
      a.expr.ty = ty ∧ assignments.find? (·.name = name) = some a := by
  rw [Scope.bindAll_apply, Option.none_or] at h
  obtain ⟨a, hfind, rfl⟩ := Option.map_eq_some_iff.mp h
  have hname : a.name = name := by simpa using List.find?_some hfind
  obtain ⟨j, hj, hget⟩ := List.getElem_of_mem (List.mem_of_find?_eq_some hfind)
  have hjk : j < k := Nat.lt_of_lt_of_le hj (List.length_take_le k assignments)
  refine ⟨j, a, hjk, ?_, hname, rfl, ?_⟩
  · rw [← List.getElem?_take_of_lt hjk, List.getElem?_eq_getElem hj, hget]
  · rw [← List.take_append_drop k assignments, List.find?_append, hfind, Option.some_or]

/-- Every expression has the type of a literal if each is located over the names before it. -/
theorem int_or_str_of_located
    (h : ∀ k a, assignments[k]? = some a →
      LocatedExpr (Scope.bindAll (fun _ => none) (assignments.take k)) a.expr.ty c a.expr)
    (k : Nat) (a : Assignment) (ha : assignments[k]? = some a) :
    a.expr.ty = .int ∨ a.expr.ty = .str := by
  induction k using Nat.strongRecOn generalizing a with
  | _ k ih =>
    obtain ⟨t, before, trailing, behind, -, -, -, -, ht, -⟩ := h k a ha
    refine ht.int_or_str ?_
    intro name ty hscope
    obtain ⟨j, b, hj, hb, -, rfl, -⟩ := exists_first hscope
    exact ih j hj b hb

end Grammar

/-! ## The promise -/

/-- The code of every program is well typed. -/
theorem wellTyped_ofProgram {source : Text} {code : Code} (h : Code.ofProgram source = .ok code) :
    code.WellTyped := by
  obtain ⟨assignments, hstatements, hsymbols, hlocated⟩ := exists_located h
  have hstatement : ∀ s ∈ code.statements,
      ∃ (k : Nat) (a : Assignment), assignments[k]? = some a ∧ s = .assignment a := by
    intro s hs
    rw [hstatements] at hs
    obtain ⟨a, ha, rfl⟩ := List.mem_map.mp hs
    obtain ⟨k, hk⟩ := List.mem_iff_getElem?.mp ha
    exact ⟨k, a, hk, rfl⟩
  have hbound : ∀ name, code.symbols.get? name
      = (assignments.find? (·.name = name)).map fun a => ⟨some name, a.expr.ty⟩ := by
    intro name
    rw [hsymbols, SymbolTable.get?_bindAll, SymbolTable.get?_empty, Option.none_or]
  constructor
  case uniform =>
    intro s hs e he x hx
    obtain ⟨k, a, ha, rfl⟩ := hstatement s hs
    have hin := (hlocated k a ha).contains he
    rw [hin.ty_eq, (hin.operand hx).ty_eq]
  case leaves =>
    intro s hs x hx
    obtain ⟨k, a, ha, rfl⟩ := hstatement s hs
    exact ((hlocated k a ha).leaf hx).ty_eq
  case int_or_str =>
    intro s hs
    obtain ⟨k, a, ha, rfl⟩ := hstatement s hs
    exact int_or_str_of_located hlocated k a ha
  case bound =>
    intro name
    have htarget : ((fun s : Statement => decide (s.target? = some name)) ∘ .assignment)
        = fun a : Assignment => decide (a.name = name) := by
      funext a
      simp [Statement.target?]
    rw [hbound, hstatements, List.find?_map, Option.map_map, htarget]
    rfl
  case used =>
    intro k s hs name ty span hleaf
    rw [hstatements, List.getElem?_map] at hs
    obtain ⟨a, ha, rfl⟩ := Option.map_eq_some_iff.mp hs
    obtain ⟨j, b, hj, hb, hname, hty, hfirst⟩ :=
      exists_first ((hlocated k a ha).leaf hleaf).scope_eq
    refine ⟨⟨j, .assignment b, hj, ?_, ?_⟩, ?_⟩
    · rw [hstatements, List.getElem?_map, hb, Option.map_some]
    · rw [← hname]
      rfl
    · rw [hbound, hfirst, Option.map_some, hty]

/-- A name that is assigned a second time, with another type, and used in a group in between. -/
theorem wellTyped_reassigned :
    ∃ code, Code.ofProgram "a=1;b=(a);a='x';".toList = .ok code ∧ code.WellTyped ∧
      code.symbols = .ofList [("a", ⟨some "a", .int⟩), ("b", ⟨some "b", .int⟩)] := by
  have hcode : Code.ofProgram "a=1;b=(a);a='x';".toList = .ok
      ⟨[.assignment ⟨"a", .mk (.literal (.int 1) ⟨2, 3⟩) .nil ⟨2, 3⟩, ⟨0, 4⟩⟩,
        .assignment ⟨"b", .mk (.group (.mk (.var "a" .int ⟨7, 8⟩) .nil ⟨7, 8⟩)) .nil ⟨6, 9⟩,
          ⟨4, 10⟩⟩,
        .assignment ⟨"a", .mk (.literal (.str "x") ⟨12, 15⟩) .nil ⟨12, 15⟩, ⟨10, 16⟩⟩],
        .ofList [("a", ⟨some "a", .int⟩), ("b", ⟨some "b", .int⟩)]⟩ := by
    decide +kernel
  exact ⟨_, hcode, wellTyped_ofProgram hcode, rfl⟩

end Bindcheck
