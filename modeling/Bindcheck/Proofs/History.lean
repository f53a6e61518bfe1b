/-
Bindcheck.Proofs.History — a symbol table after a history of insertions.

A history is any sequence of names, each with an entry to record for it.
`SymbolTable.insertAll` performs its insertions one after the other. An
insertion that is refused leaves the table as it is (`insertAll_cons`), so
every name is bound to the first entry that the history has for it:
`firstEntry`, which knows nothing of tables (`get?_insertAll`).

`Recorded` says what follows from this for all that can be asked of the
table. Since a table is no more than what its names are bound to, two
histories lead to one table exactly if they agree on first entries, and
the order of insertions only matters for a name that is inserted twice
(`firstEntry_perm`).
-/
import Mathlib.Data.Finset.Card
import Bindcheck.SymbolTable

namespace Bindcheck

variable {history later : List (String × Entry)} {table : SymbolTable} {name : String}

/-! ## First entries -/

/-- The entry that a history has first for a name. -/
def firstEntry (history : List (String × Entry)) (name : String) : Option Entry :=
  (history.find? (·.1 = name)).map (·.2)

theorem firstEntry_cons (b : String × Entry) (history : List (String × Entry)) (name : String) :
    firstEntry (b :: history) name
      = if name = b.1 then some b.2 else firstEntry history name := by
  by_cases h : name = b.1
  · simp [firstEntry, h]
  · simp [firstEntry, h, Ne.symm h]

theorem firstEntry_append (history later : List (String × Entry)) (name : String) :
    firstEntry (history ++ later) name = (firstEntry history name).or (firstEntry later name) := by
  simp [firstEntry, List.find?_append, Option.map_or]

theorem isSome_firstEntry :
    (firstEntry history name).isSome = true ↔ name ∈ history.map Prod.fst := by
  simp [firstEntry, List.find?_isSome, List.mem_map]

/-- Where no name comes twice every entry is the first of its name. -/
theorem firstEntry_of_nodup (h : (history.map Prod.fst).Nodup) (entry : Entry) :
    firstEntry history name = some entry ↔ (name, entry) ∈ history := by
  induction history with
  | nil => simp [firstEntry]
  | cons b history ih =>
    obtain ⟨hnew, hrest⟩ := List.nodup_cons.mp h
    rw [firstEntry_cons, List.mem_cons, ← ih hrest]
    by_cases hname : name = b.1
    · subst hname
      have hnone : firstEntry history b.1 = none := by
        rwa [← Option.not_isSome_iff_eq_none, isSome_firstEntry]
      simp [hnone, Prod.ext_iff, eq_comm]
    · simp [hname, Prod.ext_iff]

/-- Where no name comes twice the order does not matter. -/
theorem firstEntry_perm (h : history.Perm later) (hnodup : (history.map Prod.fst).Nodup)
    (name : String) : firstEntry history name = firstEntry later name := by
  apply Option.ext
  intro entry
  rw [firstEntry_of_nodup hnodup, firstEntry_of_nodup ((h.map Prod.fst).nodup_iff.mp hnodup)]
  exact h.mem_iff

/-! ## Insertions in sequence -/

namespace SymbolTable

/-- The answers to some insertions, one after the other, and the table after them. An insertion
is answered by whether it has bound its name. -/
def insertAll (table : SymbolTable) : List (String × Entry) → List Bool × SymbolTable
  | [] => ([], table)
  | b :: history =>
    match table.insert? b.1 b.2 with
    | some next => (true :: (next.insertAll history).1, (next.insertAll history).2)
    | none => (false :: (table.insertAll history).1, (table.insertAll history).2)

/-- An insertion is answered by whether its name was free, and either way the table goes on. -/
theorem insertAll_cons (table : SymbolTable) (b : String × Entry)
    (history : List (String × Entry)) :
    table.insertAll (b :: history)
      = ((!table.contains b.1) :: ((table.insert b.1 b.2).insertAll history).1,
          ((table.insert b.1 b.2).insertAll history).2) := by
  cases h : table.contains b.1 with
  | true => simp [insertAll, insert?, h, insert_of_contains b.2 h]
  | false => simp [insertAll, insert?, h]

/-- A name that was free is bound to its first entry. -/
theorem get?_insertAll (table : SymbolTable) (history : List (String × Entry)) (name : String) :
    (table.insertAll history).2.get? name = (table.get? name).or (firstEntry history name) := by
  induction history generalizing table with
  | nil => simp [insertAll, firstEntry]
  | cons b history ih =>
    rw [insertAll_cons]
    simp only [ih, get?_insert, firstEntry_cons]
    by_cases h : name = b.1
    · subst h
      cases table.get? b.1 <;> simp
    · simp [h]

/-- A name is bound afterwards if it was bound or inserted. -/
theorem contains_insertAll (table : SymbolTable) (history : List (String × Entry))
    (name : String) :
    (table.insertAll history).2.contains name = true ↔
      table.contains name = true ∨ name ∈ history.map Prod.fst := by
  unfold contains
  rw [get?_insertAll, ← isSome_firstEntry]
  cases table.get? name <;> simp

theorem length_insertAll (table : SymbolTable) (history : List (String × Entry)) :
    (table.insertAll history).1.length = history.length := by
  induction history generalizing table with
  | nil => rfl
  | cons b history ih => simp [insertAll_cons, ih]

/-- An insertion finds the table that the insertions before it have left. -/
theorem answer_insertAll (table : SymbolTable) {i : Nat} {b : String × Entry}
    (h : history[i]? = some b) :
    (table.insertAll history).1[i]?
      = some (!(table.insertAll (history.take i)).2.contains b.1) := by
  induction history generalizing table i with
  | nil => cases h
  | cons a history ih =>
    rw [insertAll_cons]
    cases i with
    | zero =>
      obtain rfl : a = b := Option.some.inj h
      rfl
    | succ i =>
      rw [List.take_succ_cons, insertAll_cons]
      exact ih (table.insert a.1 a.2) h

/-! ## What is listed -/

/-- The names of a table are listed in ascending order, so none is listed twice. -/
theorem nodup_names (table : SymbolTable) : (table.toList.map Prod.fst).Nodup := by
  refine List.pairwise_map.mpr (table.sorted.imp ?_)
  intro a b hlt heq
  rw [heq] at hlt
  exact String.lt_irrefl b.1 hlt

theorem mem_names_iff : name ∈ table.toList.map Prod.fst ↔ table.contains name = true := by
  rw [contains_iff, List.mem_map]
  constructor
  · rintro ⟨b, hb, rfl⟩
    exact ⟨b.2, mem_toList_iff.mp hb⟩
  · rintro ⟨entry, hentry⟩
    exact ⟨(name, entry), mem_toList_iff.mpr hentry, rfl⟩

/-- There are as many bindings as names are bound. -/
theorem size_eq_card {names : Finset String}
    (h : ∀ name, table.contains name = true ↔ name ∈ names) : table.size = names.card := by
  have hnames : (table.toList.map Prod.fst).toFinset = names := by
    ext name
    rw [List.mem_toFinset, mem_names_iff, h]
  rw [← hnames, List.toFinset_card_of_nodup table.nodup_names, List.length_map]
  rfl

/-- Two tables that list the same bindings are the same. -/
theorem eq_iff_mem {other : SymbolTable} :
    table = other ↔ ∀ b, b ∈ table.toList ↔ b ∈ other.toList := by
  constructor
  · rintro rfl b
    rfl
  · intro h
    apply ext_get?
    intro name
    apply Option.ext
    intro entry
    rw [← mem_toList_iff, ← mem_toList_iff]
    exact h (name, entry)

end SymbolTable

/-- The code points of the characters of a name. -/
def codePoints (name : String) : List Nat := name.toList.map Char.toNat

/-- Names are ordered by their code points, the first difference deciding. -/
theorem codePoints_lt {a b : String} (h : a < b) : codePoints a < codePoints b := by
  refine List.map_lt ?_ (String.lt_iff.mp h)
  intro x y hxy
  exact UInt32.lt_iff_toNat_lt.mp hxy

/-- What a table holds after a history of insertions, and how these were answered. -/
structure Recorded (history : List (String × Entry)) (answers : List Bool)
    (table : SymbolTable) : Prop where
  length_answers : answers.length = history.length
  /-- An insertion is answered by whether its name comes for the first time. -/
  answer : ∀ i b, history[i]? = some b →
    answers[i]? = some (decide (b.1 ∉ (history.take i).map Prod.fst))
  get? : ∀ name, table.get? name = firstEntry history name
  contains : ∀ name, table.contains name = (table.get? name).isSome ∧
    (table.contains name = true ↔ name ∈ history.map Prod.fst)
  size : table.size = (history.map Prod.fst).toFinset.card
  /-- What is listed are the first entries, each of them once and in the order of code points. -/
  listed : ∀ name entry, (name, entry) ∈ table.toList ↔ firstEntry history name = some entry
  nodup : table.toList.Nodup
  ascending : table.toList.Pairwise fun a b => codePoints a.1 < codePoints b.1

namespace SymbolTable

theorem recorded_insertAll (history : List (String × Entry)) :
    Recorded history (empty.insertAll history).1 (empty.insertAll history).2 := by
  have hget : ∀ name, (empty.insertAll history).2.get? name = firstEntry history name := by
    intro name
    rw [get?_insertAll, get?_empty, Option.none_or]
  have hcontains : ∀ history name, (empty.insertAll history).2.contains name = true ↔
      name ∈ history.map Prod.fst := by
    intro history name
    rw [contains_insertAll]
    simp [SymbolTable.contains]
  constructor
  case length_answers => exact length_insertAll empty history
  case answer =>
    intro i b hb
    have hfree : (!(empty.insertAll (history.take i)).2.contains b.1)
        = decide (b.1 ∉ (history.take i).map Prod.fst) := by
      apply Bool.eq_iff_iff.mpr
      rw [decide_eq_true_iff, ← hcontains]
      simp
    rw [answer_insertAll empty hb, hfree]
  case get? => exact hget
  case contains => exact fun name => ⟨rfl, hcontains history name⟩
  case size =>
    apply size_eq_card
    intro name
    rw [hcontains, List.mem_toFinset]
  case listed =>
    intro name entry
    rw [mem_toList_iff, hget]
  case nodup => exact (nodup_names _).of_map Prod.fst
  case ascending => exact (sorted _).imp codePoints_lt

end SymbolTable

/-- After any history of insertions the table holds the first entry of every name, and no later
insertion changes that. Tables are the same exactly if they list the same bindings. So histories
lead to the same table exactly if they agree on first entries, as they do in any order if no name
comes twice. -/
theorem recorded_history (history : List (String × Entry)) :
    let r := SymbolTable.empty.insertAll history
    Recorded history r.1 r.2 ∧
    (∀ later name entry, r.2.get? name = some entry →
      (SymbolTable.empty.insertAll (history ++ later)).2.get? name = some entry) ∧
    (∀ table table' : SymbolTable, table = table' ↔
      ∀ b, b ∈ table.toList ↔ b ∈ table'.toList) ∧
    (∀ other, r.2 = (SymbolTable.empty.insertAll other).2 ↔
      ∀ name, firstEntry history name = firstEntry other name) ∧
    ∀ other, history.Perm other → (history.map Prod.fst).Nodup →
      r.2 = (SymbolTable.empty.insertAll other).2 := by
  intro r
  have hget : ∀ history name, (SymbolTable.empty.insertAll history).2.get? name
      = firstEntry history name := fun history => (SymbolTable.recorded_insertAll history).get?
  have hsame : ∀ other, r.2 = (SymbolTable.empty.insertAll other).2 ↔
      ∀ name, firstEntry history name = firstEntry other name := by
    intro other
    constructor
    · intro heq name
      rw [← hget, ← hget other, ← heq]
    · intro hfirst
      apply SymbolTable.ext_get?
      intro name
      rw [hget, hget, hfirst]
  refine ⟨SymbolTable.recorded_insertAll history, ?kept, fun _ _ => SymbolTable.eq_iff_mem, hsame,
    fun other hperm hnodup => (hsame other).mpr (firstEntry_perm hperm hnodup)⟩
  case kept =>
    intro later name entry hentry
    rw [hget] at hentry
    rw [hget, firstEntry_append, hentry, Option.some_or]

/-- The second insertion of a name is refused, and capital letters come before small ones. -/
theorem recorded_twice :
    let a : Entry := ⟨some "a", .int⟩
    let b : Entry := ⟨none, .str⟩
    let r := SymbolTable.empty.insertAll [("b", b), ("a", a), ("b", a), ("B", b)]
    r.1 = [true, true, false, true] ∧ r.2.toList = [("B", b), ("a", a), ("b", b)] ∧
      (SymbolTable.empty.insertAll [("b", b), ("a", a), ("b", a), ("B", b), ("a", b)]).2.get? "a"
        = some a ∧
      (SymbolTable.empty.insertAll [("b", b), ("a", a)]).2
        = (SymbolTable.empty.insertAll [("a", a), ("b", b)]).2 := by
  intro a b r
  have hanswers : r.1 = [true, true, false, true] := by decide +kernel
  have hlisted : r.2.toList = [("B", b), ("a", a), ("b", b)] := by decide +kernel
  have hbound : r.2.get? "a" = some a := by decide +kernel
  exact ⟨hanswers, hlisted, (recorded_history _).2.1 [("a", b)] "a" a hbound,
    (recorded_history _).2.2.2.2 _ (.swap ("a", a) ("b", b) []) (by decide)⟩

end Bindcheck
