/-
Bindcheck.SymbolTable — variables bound to types; the first binding of a name stays.

A table is the list of its bindings in strictly increasing order of their names, by code
points. So a set of bindings has one table, equality of tables is equality of lists, and
`toList` is the listing that users see.

  * `insert` binds a new name and leaves a name that is bound as it is; `insert?` refuses it.
  * `get?_insert` says what every name is bound to after an insertion, and `size_insert` how
    many names are; `insert_of_contains` is the case in which nothing changes.
  * `mem_toList_iff` says what is listed, and `ext_get?` that a table is no more than what its
    names are bound to.
-/
import Bindcheck.Ty

namespace Bindcheck

/-- What is known of a name: the name of the variable, if it has one, and its type. -/
structure Entry where
  name : Option String
  ty : Ty
  deriving DecidableEq, Repr

/-- Bindings of names, sorted by name. -/
structure SymbolTable where
  toList : List (String × Entry)
  sorted : toList.Pairwise (fun a b => a.1 < b.1)
  deriving DecidableEq

namespace SymbolTable

/-! ## Looking up -/

/-- The table that binds nothing. -/
def empty : SymbolTable := ⟨[], List.Pairwise.nil⟩

instance : Inhabited SymbolTable := ⟨empty⟩

/-- What a name is bound to. -/
def get? (table : SymbolTable) (name : String) : Option Entry := table.toList.lookup name

/-- The name is bound. -/
def contains (table : SymbolTable) (name : String) : Bool := (table.get? name).isSome

/-- The number of bindings. -/
def size (table : SymbolTable) : Nat := table.toList.length

/-! ## Binding a name -/

/-- Places a binding where its name belongs, unless the name is there already. -/
def insertSorted (name : String) (entry : Entry) : List (String × Entry) → List (String × Entry)
  | [] => [(name, entry)]
  | binding :: bindings =>
    if binding.1 < name then binding :: insertSorted name entry bindings
    else if name < binding.1 then (name, entry) :: binding :: bindings
    else binding :: bindings

/-- Placing a binding brings in no other. -/
theorem mem_of_mem_insertSorted {name : String} {entry : Entry}
    {bindings : List (String × Entry)} {b : String × Entry}
    (h : b ∈ insertSorted name entry bindings) : b = (name, entry) ∨ b ∈ bindings := by
  induction bindings with
  | nil => simpa [insertSorted] using h
  | cons c bindings ih =>
    simp only [insertSorted] at h
    split at h
    · rcases List.mem_cons.1 h with rfl | h
      · simp
      · rcases ih h with h | h <;> simp [h]
    · split at h <;> simp_all

/-- Placing a binding keeps the order. -/
theorem sorted_insertSorted {name : String} {entry : Entry} {bindings : List (String × Entry)}
    (sorted : bindings.Pairwise (fun a b => a.1 < b.1)) :
    (insertSorted name entry bindings).Pairwise (fun a b => a.1 < b.1) := by
  induction bindings with
  | nil => simp [insertSorted]
  | cons c bindings ih =>
    obtain ⟨first, rest⟩ := List.pairwise_cons.1 sorted
    simp only [insertSorted]
    split
    · rename_i before
      refine List.pairwise_cons.2 ⟨fun b hb => ?_, ih rest⟩
      rcases mem_of_mem_insertSorted hb with rfl | hb
      · exact before
      · exact first b hb
    · split
      · rename_i after
        refine List.pairwise_cons.2 ⟨fun b hb => ?_, sorted⟩
        rcases List.mem_cons.1 hb with rfl | hb
        · exact after
        · exact String.lt_trans after (first b hb)
      · exact sorted

/-- Binds a name, unless it is bound already. -/
def insert (table : SymbolTable) (name : String) (entry : Entry) : SymbolTable :=
  ⟨insertSorted name entry table.toList, sorted_insertSorted table.sorted⟩

/-- Binds a new name; a name that is bound is refused. -/
def insert? (table : SymbolTable) (name : String) (entry : Entry) : Option SymbolTable :=
  if table.contains name then none else some (table.insert name entry)

/-- The table of some bindings, made in the order given. -/
def ofList (bindings : List (String × Entry)) : SymbolTable :=
  bindings.foldl (fun table binding => table.insert binding.1 binding.2) empty

/-! ## What an insertion changes -/

/-- Looking a name up goes past the bindings of other names. -/
theorem lookup_cons_ite (name : String) (b : String × Entry) (bindings : List (String × Entry)) :
    (b :: bindings).lookup name = if name = b.1 then some b.2 else bindings.lookup name := by
  obtain ⟨key, entry⟩ := b
  by_cases h : name = key <;> simp [List.lookup_cons, h, beq_eq_false_iff_ne.2]

/-- A name smaller than all names of a list is not in it. -/
theorem lookup_eq_none_of_lt {name : String} {bindings : List (String × Entry)}
    (h : ∀ b ∈ bindings, name < b.1) : bindings.lookup name = none := by
  induction bindings with
  | nil => rfl
  | cons c bindings ih =>
    have ne : name ≠ c.1 := fun eq => String.lt_irrefl c.1 (eq ▸ h c (by simp))
    rw [lookup_cons_ite, if_neg ne]
    exact ih fun b hb => h b (by simp [hb])

/-- After placing a binding, its name has the earlier entry if there is one. -/
theorem lookup_insertSorted {name other : String} {entry : Entry}
    {bindings : List (String × Entry)} (sorted : bindings.Pairwise (fun a b => a.1 < b.1)) :
    (insertSorted name entry bindings).lookup other =
      if other = name then some ((bindings.lookup name).getD entry)
      else bindings.lookup other := by
  induction bindings with
  | nil => simp [insertSorted, lookup_cons_ite]
  | cons c bindings ih =>
    obtain ⟨first, rest⟩ := List.pairwise_cons.1 sorted
    simp only [insertSorted]
    split
    · rename_i before
      have ne : name ≠ c.1 := fun eq => String.lt_irrefl c.1 (eq ▸ before)
      simp only [lookup_cons_ite, ih rest]
      grind
    · split
      · rename_i after
        have ne : name ≠ c.1 := fun eq => String.lt_irrefl c.1 (eq ▸ after)
        have unbound : bindings.lookup name = none :=
          lookup_eq_none_of_lt fun b hb => String.lt_trans after (first b hb)
        simp only [lookup_cons_ite, unbound]
        grind
      · rename_i before after
        have eq : name = c.1 := String.le_antisymm (String.not_lt.1 before) (String.not_lt.1 after)
        simp only [lookup_cons_ite]
        grind

/-- Placing a binding of a name that is there changes nothing. -/
theorem insertSorted_of_lookup {name : String} {old : Entry} {bindings : List (String × Entry)}
    (sorted : bindings.Pairwise (fun a b => a.1 < b.1)) (h : bindings.lookup name = some old)
    (entry : Entry) : insertSorted name entry bindings = bindings := by
  induction bindings with
  | nil => cases h
  | cons c bindings ih =>
    obtain ⟨first, rest⟩ := List.pairwise_cons.1 sorted
    rw [lookup_cons_ite] at h
    simp only [insertSorted]
    split
    · rename_i before
      have ne : name ≠ c.1 := fun eq => String.lt_irrefl c.1 (eq ▸ before)
      rw [if_neg ne] at h
      rw [ih rest h]
    · split
      · rename_i after
        have ne : name ≠ c.1 := fun eq => String.lt_irrefl c.1 (eq ▸ after)
        have unbound : bindings.lookup name = none :=
          lookup_eq_none_of_lt fun b hb => String.lt_trans after (first b hb)
        rw [if_neg ne, unbound] at h
        cases h
      · rfl

/-- Placing a binding of a new name makes the list longer by one. -/
theorem length_insertSorted {name : String} {entry : Entry} {bindings : List (String × Entry)}
    (h : bindings.lookup name = none) :
    (insertSorted name entry bindings).length = bindings.length + 1 := by
  induction bindings with
  | nil => rfl
  | cons c bindings ih =>
    have ne : name ≠ c.1 := by
      rintro rfl
      simp [lookup_cons_ite] at h
    rw [lookup_cons_ite, if_neg ne] at h
    simp only [insertSorted]
    split
    · simp [ih h]
    · split
      · rfl
      · rename_i before after
        exact absurd (String.le_antisymm (String.not_lt.1 before) (String.not_lt.1 after)) ne

/-- No name is bound in the empty table. -/
@[simp] theorem get?_empty (name : String) : empty.get? name = none := rfl

/-- After an insertion its name has the earlier entry if there is one, else the new one. -/
theorem get?_insert (table : SymbolTable) (name other : String) (entry : Entry) :
    (table.insert name entry).get? other =
      if other = name then some ((table.get? name).getD entry) else table.get? other :=
  lookup_insertSorted table.sorted

/-- A name is bound if it has an entry. -/
theorem contains_iff {table : SymbolTable} {name : String} :
    table.contains name = true ↔ ∃ entry, table.get? name = some entry :=
  Option.isSome_iff_exists

/-- Inserting a name that is bound changes nothing. -/
theorem insert_of_contains {table : SymbolTable} {name : String} (entry : Entry)
    (h : table.contains name = true) : table.insert name entry = table := by
  obtain ⟨old, found⟩ := contains_iff.1 h
  have same := insertSorted_of_lookup table.sorted found entry
  simp only [insert, same]

/-- Inserting a new name adds one binding. -/
theorem size_insert (table : SymbolTable) (name : String) (entry : Entry) :
    (table.insert name entry).size =
      if table.contains name = true then table.size else table.size + 1 := by
  by_cases h : table.contains name = true
  · rw [insert_of_contains entry h, if_pos h]
  · have unbound : table.get? name = none := Option.not_isSome_iff_eq_none.1 h
    rw [if_neg h]
    exact length_insertSorted unbound

/-! ## The list of bindings -/

/-- The entry of a name in a sorted list is the one it is listed with. -/
theorem lookup_eq_some_iff {name : String} {entry : Entry} {bindings : List (String × Entry)}
    (sorted : bindings.Pairwise (fun a b => a.1 < b.1)) :
    bindings.lookup name = some entry ↔ (name, entry) ∈ bindings := by
  induction bindings with
  | nil => simp
  | cons c bindings ih =>
    obtain ⟨first, rest⟩ := List.pairwise_cons.1 sorted
    rw [lookup_cons_ite, List.mem_cons, ← ih rest]
    by_cases same : name = c.1
    · subst same
      rw [if_pos rfl, lookup_eq_none_of_lt first]
      simp [Prod.ext_iff, eq_comm]
    · simp [same, Prod.ext_iff]

/-- A table lists the names that it binds, with their entries. -/
theorem mem_toList_iff {table : SymbolTable} {name : String} {entry : Entry} :
    (name, entry) ∈ table.toList ↔ table.get? name = some entry :=
  (lookup_eq_some_iff table.sorted).symm

/-! ## Telling tables apart -/

/-- If a sorted list has the first name of another list, its own first name comes no later. -/
theorem not_lt_of_lookup {x y : String × Entry} {a b : List (String × Entry)}
    (first : ∀ c ∈ a, x.1 < c.1) (h : (x :: a).lookup y.1 = (y :: b).lookup y.1) :
    ¬ y.1 < x.1 := by
  intro before
  have missing : (x :: a).lookup y.1 = none := by
    refine lookup_eq_none_of_lt fun c hc => ?_
    rcases List.mem_cons.1 hc with rfl | hc
    · exact before
    · exact String.lt_trans before (first c hc)
  simp [missing, lookup_cons_ite] at h

/-- Two sorted lists in which every name has the same entry are the same. -/
theorem eq_of_lookup {a b : List (String × Entry)} (ha : a.Pairwise (fun x y => x.1 < y.1))
    (hb : b.Pairwise (fun x y => x.1 < y.1)) (h : ∀ name, a.lookup name = b.lookup name) :
    a = b := by
  induction a generalizing b with
  | nil =>
    cases b with
    | nil => rfl
    | cons y b => simpa [lookup_cons_ite] using h y.1
  | cons x a ih =>
    obtain ⟨firstA, restA⟩ := List.pairwise_cons.1 ha
    cases b with
    | nil => simpa [lookup_cons_ite] using h x.1
    | cons y b =>
      obtain ⟨firstB, restB⟩ := List.pairwise_cons.1 hb
      have name_eq : x.1 = y.1 :=
        String.le_antisymm (String.not_lt.1 (not_lt_of_lookup firstA (h y.1)))
          (String.not_lt.1 (not_lt_of_lookup firstB (h x.1).symm))
      simp only [lookup_cons_ite, name_eq] at h
      have entry_eq : x.2 = y.2 := by simpa using h y.1
      obtain rfl : x = y := Prod.ext name_eq entry_eq
      congr 1
      refine ih restA restB fun name => ?_
      by_cases same : name = x.1
      · subst same
        rw [lookup_eq_none_of_lt firstA, lookup_eq_none_of_lt firstB]
      · simpa [same] using h name

/-- Two tables that bind every name to the same are equal. -/
theorem ext_get? {a b : SymbolTable} (h : ∀ name, a.get? name = b.get? name) : a = b := by
  obtain ⟨bindings, sorted⟩ := a
  obtain ⟨others, sorted'⟩ := b
  obtain rfl := eq_of_lookup sorted sorted' h
  rfl

end SymbolTable

end Bindcheck
