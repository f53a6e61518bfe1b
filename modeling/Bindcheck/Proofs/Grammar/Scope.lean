/-
Bindcheck.Proofs.Grammar.Scope — what names are bound to after some
assignments.

A scope gives types to names; `SymbolTable.scope` is the scope that a
table stands for. Both grow with assignments, and in both the first
assignment of a name decides: `SymbolTable.get?_bindAll` and
`Scope.bindAll_apply` find it with `List.find?`. A scope that grows keeps
the types that it gives (`Scope.subset_bindAll`), so what has a type in a
scope keeps its type and its code (`ExprTree.HasType.mono`,
`ExprTree.elaborate_of_subset`).
-/
import Bindcheck.Proofs.Grammar.Derivation

namespace Bindcheck

open Grammar

/-! ## Tables and scopes -/

/-- What a table says of the types of names. -/
def SymbolTable.scope (table : SymbolTable) : Scope :=
  fun name => (table.get? name).map Entry.ty

/-- The table after some assignments. -/
def SymbolTable.bindAll (table : SymbolTable) (assignments : List Assignment) : SymbolTable :=
  assignments.foldl SymbolTable.bind table

/-- The scope after some assignments. -/
def Grammar.Scope.bindAll (scope : Scope) (assignments : List Assignment) : Scope :=
  assignments.foldl (fun s a => s.bind a.name a.expr.ty) scope

namespace SymbolTable

theorem scope_empty : SymbolTable.empty.scope = fun _ => none := by
  funext name
  simp [scope]

theorem scope_bind (table : SymbolTable) (a : Assignment) :
    (table.bind a).scope = table.scope.bind a.name a.expr.ty := by
  funext name
  simp only [scope, bind, Scope.bind, SymbolTable.get?_insert]
  by_cases h : name = a.name
  · subst h
    cases table.get? a.name <;> simp
  · simp [h]

/-- The table after an assignment gives its name the type of its tree, unless it has one. -/
theorem scope_bind_elaborate {table : SymbolTable} {t : AssignmentTree} {ty : Ty}
    (ht : t.expr.HasType table.scope ty) (o : Nat) :
    (table.bind (t.elaborate table.scope o)).scope = table.scope.bind t.target ty := by
  have hty : (t.elaborate table.scope o).expr.ty = ty := ExprTree.ty_elaborate _ ht _ _
  rw [scope_bind, hty]
  rfl

theorem scope_bindAll (table : SymbolTable) (assignments : List Assignment) :
    (table.bindAll assignments).scope = table.scope.bindAll assignments := by
  induction assignments generalizing table with
  | nil => rfl
  | cons a assignments ih =>
    simp only [bindAll, Scope.bindAll, List.foldl_cons, ← scope_bind]
    exact ih (table.bind a)

/-- A name that was not bound is bound by the first assignment of it. -/
theorem get?_bindAll (table : SymbolTable) (assignments : List Assignment) (name : String) :
    (table.bindAll assignments).get? name
      = (table.get? name).or
          ((assignments.find? (·.name = name)).map fun a => ⟨some name, a.expr.ty⟩) := by
  induction assignments generalizing table with
  | nil => simp [bindAll]
  | cons a assignments ih =>
    have hrest := ih (table.bind a)
    simp only [bindAll, List.foldl_cons] at hrest ⊢
    rw [hrest, bind, get?_insert]
    by_cases h : name = a.name
    · subst h
      cases table.get? a.name <;> simp
    · simp [h, Ne.symm h]

/-- Table inclusion: what is bound in the first has the same entry in the second. -/
def Subset (table larger : SymbolTable) : Prop :=
  ∀ name entry, table.get? name = some entry → larger.get? name = some entry

theorem Subset.refl (table : SymbolTable) : table.Subset table := fun _ _ h => h

theorem Subset.trans {a b c : SymbolTable} (hab : a.Subset b) (hbc : b.Subset c) : a.Subset c :=
  fun name entry h => hbc name entry (hab name entry h)

/-- Assignments leave what is bound as it is. -/
theorem subset_bindAll (table : SymbolTable) (assignments : List Assignment) :
    table.Subset (table.bindAll assignments) := by
  intro name entry h
  rw [get?_bindAll, h, Option.some_or]

/-- Every name that is assigned is bound afterwards. -/
theorem contains_bindAll (table : SymbolTable) {assignments : List Assignment} {a : Assignment}
    (h : a ∈ assignments) : (table.bindAll assignments).contains a.name = true := by
  have hfind : (assignments.find? (·.name = a.name)).isSome = true := by
    rw [List.find?_isSome]
    exact ⟨a, h, by simp⟩
  unfold contains
  rw [get?_bindAll]
  cases table.get? a.name with
  | some entry => rfl
  | none => simpa using hfind

/-- The assignment of a name that is bound changes nothing. -/
theorem bind_of_contains {table : SymbolTable} {a : Assignment}
    (h : table.contains a.name = true) : table.bind a = table :=
  insert_of_contains _ h

theorem size_le_bindAll (table : SymbolTable) (assignments : List Assignment) :
    table.size ≤ (table.bindAll assignments).size := by
  induction assignments generalizing table with
  | nil => exact Nat.le_refl _
  | cons a assignments ih =>
    have hstep : table.size ≤ (table.bind a).size := by
      unfold bind
      rw [size_insert]
      split <;> omega
    exact Nat.le_trans hstep (ih (table.bind a))

/-- The number of bindings stays the same exactly if every assigned name was bound before. -/
theorem size_bindAll_eq_iff (table : SymbolTable) (assignments : List Assignment) :
    (table.bindAll assignments).size = table.size ↔
      ∀ a ∈ assignments, table.contains a.name = true := by
  induction assignments with
  | nil => simp [bindAll]
  | cons a assignments ih =>
    have hcons : table.bindAll (a :: assignments) = (table.bind a).bindAll assignments := rfl
    rw [hcons, List.forall_mem_cons]
    by_cases h : table.contains a.name = true
    · rw [bind_of_contains h, ih]
      simp [h]
    · -- the first new name makes the table larger, and no later one takes that back
      have hstep : (table.bind a).size = table.size + 1 := by
        unfold bind
        rw [size_insert, if_neg h]
      have hlater := size_le_bindAll (table.bind a) assignments
      constructor
      · intro heq
        omega
      · rintro ⟨hbound, -⟩
        exact absurd hbound h

end SymbolTable

namespace Grammar

/-! ## Scopes that grow -/

namespace Scope

variable {scope larger : Scope}

/-- Scope inclusion: what has a type in the first has the same type in the second. -/
def Subset (scope larger : Scope) : Prop :=
  ∀ name ty, scope name = some ty → larger name = some ty

/-- Some assignments give a name that has no type the type of the first assignment of it. -/
theorem bindAll_apply (scope : Scope) (assignments : List Assignment) (name : String) :
    scope.bindAll assignments name
      = (scope name).or ((assignments.find? (·.name = name)).map fun a => a.expr.ty) := by
  induction assignments generalizing scope with
  | nil => simp [bindAll]
  | cons a assignments ih =>
    have hrest := ih (scope.bind a.name a.expr.ty)
    simp only [bindAll, List.foldl_cons] at hrest ⊢
    rw [hrest]
    unfold bind
    by_cases h : name = a.name
    · subst h
      cases scope a.name <;> simp
    · simp [h, Ne.symm h]

theorem bindAll_append (scope : Scope) (first second : List Assignment) :
    scope.bindAll (first ++ second) = (scope.bindAll first).bindAll second := by
  simp [bindAll, List.foldl_append]

/-- Assignments take no type away. -/
theorem subset_bindAll (scope : Scope) (assignments : List Assignment) :
    scope.Subset (scope.bindAll assignments) := by
  intro name ty h
  rw [bindAll_apply, h, Option.some_or]

end Scope

variable {scope larger : Scope}

mutual

/-- An operand keeps its type in a larger scope. -/
theorem OperandTree.HasType.mono {t : OperandTree} {ty : Ty} (h : t.HasType scope ty)
    (hs : scope.Subset larger) : t.HasType larger ty := by
  match t with
  | .group opening inner closing => exact ExprTree.HasType.mono (t := inner) h hs
  | .string literal contents => exact h
  | .integer digits => exact h
  | .name letters =>
    show larger (String.ofList letters) = some ty
    exact hs _ _ h

theorem ExprTree.HasType.mono {t : ExprTree} {ty : Ty} (h : t.HasType scope ty)
    (hs : scope.Subset larger) : t.HasType larger ty := by
  match t with
  | .mk first links => exact ⟨OperandTree.HasType.mono h.1 hs, ChainTree.HasType.mono h.2 hs⟩

theorem ChainTree.HasType.mono {t : ChainTree} {ty : Ty} (h : t.HasType scope ty)
    (hs : scope.Subset larger) : t.HasType larger ty := by
  match t with
  | .nil => trivial
  | .cons before op after operand links =>
    exact ⟨OperandTree.HasType.mono h.1 hs, ChainTree.HasType.mono h.2 hs⟩

end

mutual

/-- An operand that has a type in a scope has the same code in a larger one. -/
theorem OperandTree.elaborate_of_subset (t : OperandTree) {ty : Ty} (h : t.HasType scope ty)
    (hs : scope.Subset larger) (start : Nat) :
    t.elaborate larger start = t.elaborate scope start := by
  match t with
  | .group opening inner closing =>
    simp only [OperandTree.elaborate]
    rw [ExprTree.elaborate_of_subset inner h hs]
  | .string literal contents => rfl
  | .integer digits => rfl
  | .name letters =>
    have hname : scope (String.ofList letters) = some ty := h
    simp only [OperandTree.elaborate, hname, hs _ _ hname]

theorem ExprTree.elaborate_of_subset (t : ExprTree) {ty : Ty} (h : t.HasType scope ty)
    (hs : scope.Subset larger) (start trailing : Nat) :
    t.elaborate larger start trailing = t.elaborate scope start trailing := by
  match t with
  | .mk first links =>
    simp only [ExprTree.elaborate]
    rw [OperandTree.elaborate_of_subset first h.1 hs, ChainTree.elaborate_of_subset links h.2 hs]

theorem ChainTree.elaborate_of_subset (t : ChainTree) {ty : Ty} (h : t.HasType scope ty)
    (hs : scope.Subset larger) (start : Nat) :
    t.elaborate larger start = t.elaborate scope start := by
  match t with
  | .nil => rfl
  | .cons before op after operand links =>
    simp only [ChainTree.elaborate]
    rw [OperandTree.elaborate_of_subset operand h.1 hs,
      ChainTree.elaborate_of_subset links h.2 hs]

end

end Grammar

end Bindcheck
