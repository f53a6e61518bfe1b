/-
Bindcheck.Proofs.Commutation — two programs, in either order.

A program that is read over some names is read over more of them in the
same way, as long as none of the names that it binds itself has been
added: `Progress.read_of_subset`. What an earlier program adds are the
names that it assigns. So if two programs over a table assign no new name
in common, each is read behind the other as it is read alone, and since
the first binding of every new name is in one of the two only, both
orders leave the same table: `readProgram_comm`.
-/
import Bindcheck.Proofs.Concatenation
import Bindcheck.Proofs.Reuse

namespace Bindcheck

open Grammar Reader

/-! ## More names -/

/-- Binding the same name keeps one table within the other, unless only the larger one had it. -/
theorem SymbolTable.Subset.bind {table larger : SymbolTable} (h : table.Subset larger)
    {a : Assignment} (ha : table.get? a.name = none → larger.get? a.name = none) :
    (table.bind a).Subset (larger.bind a) := by
  intro name entry hentry
  simp only [SymbolTable.bind, get?_insert] at hentry ⊢
  by_cases hname : name = a.name
  · rw [if_pos hname] at hentry ⊢
    cases hold : table.get? a.name with
    | none => rwa [ha hold, ← hold]
    | some old => rwa [h _ _ hold, ← hold]
  · rw [if_neg hname] at hentry ⊢
    exact h name entry hentry

namespace Progress

/-- A text in which nothing is refused is read in the same way over more names, if none of those
that it binds is among them. -/
theorem read_of_subset {table larger : SymbolTable} {c : Cursor}
    (hfailure : (read table c).failure = none) (hsubset : table.Subset larger)
    (hnew : ∀ a ∈ (read table c).statements,
      table.get? a.name = none → larger.get? a.name = none) :
    read larger c
      = { read table c with symbols := larger.bindAll (read table c).statements } := by
  induction hn : c.rest.length using Nat.strongRecOn generalizing table larger c with
  | _ size ih =>
    cases hread : (assignment table).run c with
    | error f d =>
      rw [read_eq, hread] at hfailure
      cases hfailure
    | ok found d =>
      cases found with
      | none =>
        -- whether a name comes next does not depend on the table
        have hnone : (assignment larger).run c = .ok none d :=
          assignment_eq_none.mpr (assignment_eq_none.mp hread)
        rw [read_eq, read_eq table, hread, hnone]
        rfl
      | some a =>
        have hshorter : d.rest.length < size := hn ▸ consumes_assignment table hread
        have hfirst : read table c = { read (table.bind a) d with
            statements := a :: (read (table.bind a) d).statements } := by
          rw [read_eq, hread]
        rw [hfirst] at hfailure hnew
        have ha : table.get? a.name = none → larger.get? a.name = none :=
          hnew a List.mem_cons_self
        have hlater : ∀ b ∈ (read (table.bind a) d).statements,
            (table.bind a).get? b.name = none → (larger.bind a).get? b.name = none := by
          intro b hb hfree
          simp only [SymbolTable.bind, SymbolTable.get?_insert] at hfree ⊢
          split at hfree
          · cases hfree
          · rename_i hname
            rw [if_neg hname]
            exact hnew b (List.mem_cons_of_mem a hb) hfree
        have hrest := ih d.rest.length hshorter hfailure (hsubset.bind ha) hlater rfl
        rw [read_eq, assignment_mono hread hsubset]
        simp only [hrest, hfirst]
        rfl

end Progress

namespace Checker

variable {table : SymbolTable} {first second : Text}

/-- A source is a program over a table exactly if it is read to its end. -/
theorem readProgram_eq_ok_true :
    (withSymbols first table).readProgram.1 = .ok true ↔
      (Progress.read table (Cursor.start first)).failure = none ∧
        (Progress.read table (Cursor.start first)).cursor.atEnd = true := by
  simp only [readProgram, withSymbols]
  split <;> simp_all

/-- Two programs are independent over a table: a name that both assign is bound in it. -/
def Independent (table : SymbolTable) (first second : Code) : Prop :=
  ∀ s ∈ first.statements, ∀ t ∈ second.statements, ∀ name ∈ s.target?, name ∈ t.target? →
    table.contains name = true

/-- The assignments of two independent programs that have a name in common have a bound name. -/
theorem Independent.contains
    (h : Independent table (withSymbols first table).readProgram.2.code
      (withSymbols second table).readProgram.2.code) {a b : Assignment}
    (ha : a ∈ (Progress.read table (Cursor.start first)).statements)
    (hb : b ∈ (Progress.read table (Cursor.start second)).statements) (hname : a.name = b.name) :
    table.contains b.name = true :=
  h (.assignment a) (List.mem_map_of_mem ha) (.assignment b) (List.mem_map_of_mem hb) b.name
    (congrArg some hname) rfl

theorem Independent.symm {a b : Code} (h : Independent table a b) : Independent table b a :=
  fun s hs t ht name hname hname' => h t ht s hs name hname' hname

/-- A name that both of two independent programs bind is bound to the same in both. -/
theorem Independent.or_comm
    (h : Independent table (withSymbols first table).readProgram.2.code
      (withSymbols second table).readProgram.2.code) (name : String) :
    let a := (withSymbols first table).readProgram.2.code
    let b := (withSymbols second table).readProgram.2.code
    (a.symbols.get? name).or (b.symbols.get? name)
      = (b.symbols.get? name).or (a.symbols.get? name) := by
  let p := Progress.read table (Cursor.start first)
  let q := Progress.read table (Cursor.start second)
  show (p.symbols.get? name).or (q.symbols.get? name)
    = (q.symbols.get? name).or (p.symbols.get? name)
  have hp : p.symbols = table.bindAll p.statements := Progress.symbols_read table _
  have hq : q.symbols = table.bindAll q.statements := Progress.symbols_read table _
  rw [hp, hq, SymbolTable.get?_bindAll, SymbolTable.get?_bindAll]
  cases hold : table.get? name with
  | some entry => simp
  | none =>
    -- a name that is not bound is assigned by one of the two only
    cases hx : p.statements.find? (·.name = name) with
    | none => simp
    | some x =>
      cases hy : q.statements.find? (·.name = name) with
      | none => simp
      | some y =>
        have hxname : x.name = name := by simpa using List.find?_some hx
        have hyname : y.name = name := by simpa using List.find?_some hy
        have hbound := h.contains (List.mem_of_find?_eq_some hx) (List.mem_of_find?_eq_some hy)
          (hxname.trans hyname.symm)
        rw [hyname, SymbolTable.contains, hold] at hbound
        cases hbound

/-- A program behind another over the same table, from which it is independent, is read as it is
read alone, and every name is bound as in one of the two. -/
theorem readProgram_append (hfirst : (withSymbols first table).readProgram.1 = .ok true)
    (hsecond : (withSymbols second table).readProgram.1 = .ok true)
    (hind : Independent table (withSymbols first table).readProgram.2.code
      (withSymbols second table).readProgram.2.code) :
    let a := (withSymbols first table).readProgram.2.code
    let b := (withSymbols second table).readProgram.2.code
    let whole := (withSymbols (first ++ '\n' :: second) table).readProgram
    whole.1 = .ok true ∧
      whole.2.code.statements = a.statements ++ b.statements.map (·.shift (first.length + 1)) ∧
      ∀ name, whole.2.code.symbols.get? name
        = (table.get? name).or ((a.symbols.get? name).or (b.symbols.get? name)) := by
  intro a b whole
  obtain ⟨hfailure, hend⟩ := readProgram_eq_ok_true.mp hfirst
  obtain ⟨hfailure', hend'⟩ := readProgram_eq_ok_true.mp hsecond
  let p := Progress.read table (Cursor.start first)
  let q := Progress.read table (Cursor.start second)
  have hp : p.symbols = table.bindAll p.statements := Progress.symbols_read table _
  have hq : q.symbols = table.bindAll q.statements := Progress.symbols_read table _
  -- the names that the first program adds are not those that the second one binds
  have hnew : ∀ t ∈ q.statements, table.get? t.name = none → p.symbols.get? t.name = none := by
    intro t ht hfree
    rw [hp, SymbolTable.get?_bindAll, hfree, Option.none_or, Option.map_eq_none_iff,
      List.find?_eq_none]
    intro u hu hname
    have hbound := hind.contains hu ht (by simpa using hname)
    rw [SymbolTable.contains, hfree] at hbound
    cases hbound
  have hsubset : table.Subset p.symbols := by
    rw [hp]
    exact table.subset_bindAll _
  have hlater := Progress.read_of_subset hfailure' hsubset hnew
  have hread := Progress.read_append_lineFeed hfailure hend second
  simp only [show Progress.read table (Cursor.start first) = p from rfl, hlater] at hread
  have hcode : whole.2.code = (Progress.read table (Cursor.start (first ++ '\n' :: second))).code :=
    rfl
  refine ⟨?_, ?_, ?_⟩
  · refine readProgram_eq_ok_true.mpr ?_
    rw [hread]
    exact ⟨by simp [Progress.shift, hfailure'], hend'⟩
  · rw [hcode, hread]
    simp [Progress.code, Progress.shift, Statement.shift, a, b, readProgram, withSymbols, p]
  · intro name
    have hsymbols : whole.2.code.symbols = p.symbols.bindAll q.statements := by
      rw [hcode, hread]
      rfl
    show _ = (table.get? name).or ((p.symbols.get? name).or (q.symbols.get? name))
    rw [hsymbols, hq, SymbolTable.get?_bindAll, SymbolTable.get?_bindAll]
    cases hold : table.get? name with
    | some entry => simp [hsubset name entry hold]
    | none => simp

end Checker

/-- Two programs over a table that assign no new name in common may stand in either order: both
orders are programs over the table, they leave the same table, in which every name is bound as one
of the two binds it alone, and the statements are the same, moved to where they stand. -/
theorem readProgram_comm (table : SymbolTable) {first second : Text}
    (hfirst : (Checker.withSymbols first table).readProgram.1 = .ok true)
    (hsecond : (Checker.withSymbols second table).readProgram.1 = .ok true)
    (hind : Checker.Independent table (Checker.withSymbols first table).readProgram.2.code
      (Checker.withSymbols second table).readProgram.2.code) :
    let a := (Checker.withSymbols first table).readProgram.2.code
    let b := (Checker.withSymbols second table).readProgram.2.code
    let ab := (Checker.withSymbols (first ++ '\n' :: second) table).readProgram
    let ba := (Checker.withSymbols (second ++ '\n' :: first) table).readProgram
    ab.1 = .ok true ∧ ba.1 = .ok true ∧
      ab.2.code.symbols = ba.2.code.symbols ∧
      (∀ name, ab.2.code.symbols.get? name
        = (table.get? name).or ((a.symbols.get? name).or (b.symbols.get? name))) ∧
      ab.2.code.statements = a.statements ++ b.statements.map (·.shift (first.length + 1)) ∧
      ba.2.code.statements = b.statements ++ a.statements.map (·.shift (second.length + 1)) := by
  intro a b ab ba
  obtain ⟨hab, hstatements, hnames⟩ := Checker.readProgram_append hfirst hsecond hind
  obtain ⟨hba, hstatements', hnames'⟩ := Checker.readProgram_append hsecond hfirst hind.symm
  refine ⟨hab, hba, ?_, hnames, hstatements, hstatements'⟩
  refine SymbolTable.ext_get? fun name => ?_
  have hcomm := hind.or_comm name
  simp only at hcomm
  rw [hnames, hnames', hcomm]

/-- Both programs assign the name that the table binds, one of them with another type, and the
comment at the end of the first is closed where the second stands behind it. -/
theorem readProgram_comm_rebound :
    let table := SymbolTable.ofList [("s", ⟨some "s", .str⟩)]
    let first := "a=1;s=2;//c".toList
    let second := "b='z'+(s); s=b;".toList
    let a := (Checker.withSymbols first table).readProgram
    let b := (Checker.withSymbols second table).readProgram
    let ab := (Checker.withSymbols (first ++ '\n' :: second) table).readProgram
    let ba := (Checker.withSymbols (second ++ '\n' :: first) table).readProgram
    a.1 = .ok true ∧ b.1 = .ok true ∧ Checker.Independent table a.2.code b.2.code ∧
      ab.1 = .ok true ∧ ba.1 = .ok true ∧ ab.2.code.symbols = ba.2.code.symbols := by
  intro table first second a b ab ba
  have ha : a.1 = .ok true := by decide +kernel
  have hb : b.1 = .ok true := by decide +kernel
  have hind : Checker.Independent table a.2.code b.2.code := by
    unfold Checker.Independent
    decide +kernel
  obtain ⟨hab, hba, hsymbols, -⟩ := readProgram_comm table ha hb hind
  exact ⟨ha, hb, hind, hab, hba, hsymbols⟩

end Bindcheck
