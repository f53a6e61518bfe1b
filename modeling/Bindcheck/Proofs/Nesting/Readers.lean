/-
Bindcheck.Proofs.Nesting.Readers — the readers of expressions and programs
count as many parentheses as are open.

Each lemma named `tracks_…` is about one reader with a counter and the
reader that it follows; the text of the definition says which rule of
`Tracks` comes next. A group is entered behind a parenthesis (`Behind`),
which leads to the next level, and its own parenthesis leads back. Where
the counter stands at the limit there is no next level, and then the
parenthesis is the first that is too deep.

`tracks_operand` is the induction, on how many more calls there may be.
`tracks_wholeExpr` and `counted_program` start it with nothing open.
-/
import Bindcheck.Proofs.Nesting.Counter

namespace Bindcheck

open Grammar

variable {α : Type} {source : Text} {count : Nat} {table : SymbolTable}

namespace Counting

/-- From one level to the same, the counting reader does what the reader does. -/
abbrev Stays {α : Type} (source : Text) (count : Nat) (p : Counting α) (r : Reader α) : Prop :=
  Tracks source count (Level source count) p r fun _ d => Level source count d

/-! ## Tokens -/

/-- A reader of one token stays on the level if the token does. -/
theorem tracks_optional {r : Reader (Option α)}
    (hsome : ∀ {c d a}, Level source count c → r.run c = .ok (some a) d → Level source count d)
    (hnone : ∀ {c d}, r.run c = .ok none d → d = c.pastLayout)
    (herror : ∀ c f d, r.run c = .error f d → f.cause ≠ .nestedTooDeeply) :
    Stays source count (liftM r : Counting (Option α)) r := by
  apply Tracks.lift
  · intro c found d hc hread
    cases found with
    | some a => exact hsome hc hread
    | none =>
      rw [hnone hread]
      exact hc.pastLayout
  · exact herror

theorem tracks_token {t : Token α} (htoken : ∀ {c d a}, Level source count c →
      (Reader.token t).run c = .ok (some a) d → Level source count d) :
    Stays source count (liftM (Reader.token t) : Counting (Option α)) (Reader.token t) := by
  apply tracks_optional htoken
  · intro c d hread
    exact (Reader.tokenAt_eq_none.mp hread).2
  · intro c f d hread
    exact absurd hread (Reader.tokenAt_ne_error t _ f d)

theorem tracks_name :
    Stays source count (liftM (Reader.token .name) : Counting (Option String))
      (Reader.token .name) :=
  tracks_token fun hc hread => hc.of_name hread

theorem tracks_quoted :
    Stays source count (liftM Reader.quoted : Counting (Option String)) Reader.quoted := by
  apply tracks_optional
  · intro c d text hc hread
    exact hc.of_quoted hread
  · intro c d hread
    exact (Reader.quoted_eq_none hread).1
  · intro c f d hread hcause
    have hkind := Reader.kind_of_quoted hread
    rw [hcause] at hkind
    cases hkind

theorem tracks_integer :
    Stays source count (liftM Reader.integer : Counting (Option Int64)) Reader.integer := by
  apply tracks_optional
  · intro c d value hc hread
    exact hc.of_integer hread
  · intro c d hread
    exact (Reader.integer_eq_none hread).1
  · intro c f d hread
    obtain ⟨digits, n, -, -, rfl⟩ := Reader.integer_eq_error hread
    simp

theorem tracks_named (name : String) (span : Span) :
    Stays source count (liftM (Reader.named table name span) : Counting Operand)
      (Reader.named table name span) := by
  unfold Reader.named
  cases table.get? name with
  | some entry => exact .lift_ok (Reader.run_pure _) fun _ hc => hc
  | none => exact .fail (by simp) span

/-! ## Rows -/

theorem tracks_after {β : Type} {t : Token α} {next : α → Counting β} {next' : α → Reader β}
    (htoken : ∀ {c d a}, Level source count c → (Reader.token t).run c = .ok (some a) d →
      Level source count d) (h : ∀ a, Stays source count (next a) (next' a)) :
    Stays source count (after t next) (Reader.after t next') := by
  apply (tracks_token htoken).bind
  intro found
  cases found with
  | none => exact .pure fun _ hd => hd
  | some a => exact (h a).bind fun b => .pure fun _ hd => hd

section Many

variable {item : Counting (Option α)} {item' : Reader (Option α)}

/-- With more steps than characters are left, all items are read. -/
theorem counted_manyUpTo (h : Stays source count item item') (consumes : item'.Consumes) {n : Nat}
    {g : Gauge} {c : Cursor} (hn : c.rest.length < n) (hg : g.depth = count) :
    Counted g (manyUpTo item n g c) ((Reader.many item' consumes).run c) ∧
      (Level source count c → g.Honest source → (manyUpTo item n g c).2.Honest source) := by
  induction n generalizing g c with
  | zero => exact absurd hn (Nat.not_lt_zero _)
  | succ n ih =>
    have hfirst := h.counted g c hg
    have hhonest := h.honest g c hg
    rw [Reader.run_many]
    unfold manyUpTo
    rcases hitem : item g c with ⟨o, g'⟩
    rw [hitem] at hfirst hhonest
    have hsame : o = item'.run c := hfirst.result_eq
    cases o with
    | error f d =>
      rw [run_bind_error hitem, ← hsame]
      exact ⟨⟨rfl, hfirst.depth_eq, hfirst.noted⟩, hhonest⟩
    | ok found d =>
      rw [run_bind_ok hitem, ← hsame]
      cases found with
      | none => exact ⟨⟨rfl, hfirst.depth_eq, hfirst.noted⟩, hhonest⟩
      | some a =>
        have hshorter : d.rest.length < n :=
          Nat.lt_of_lt_of_le (consumes hsame.symm) (Nat.le_of_lt_succ hn)
        obtain ⟨hlater, hlaterHonest⟩ := ih hshorter (hfirst.depth_eq.trans hg)
        have hnext := h.ok c (some a) d
        rcases hmany : manyUpTo item n g' d with ⟨o, g''⟩
        rw [hmany] at hlater hlaterHonest
        obtain ⟨hresult, hdepth, hnoted⟩ := hfirst.trans hlater
        have hlevel := fun hc hg' => hlaterHonest (hnext hc hsame.symm) (hhonest hc hg')
        simp only at hresult
        cases o with
        | error f e =>
          simp only [run_bind_error hmany, Outcome.ok_andThen, ← hresult]
          exact ⟨⟨rfl, hdepth, hnoted⟩, hlevel⟩
        | ok items e =>
          simp only [run_bind_ok hmany, Outcome.ok_andThen, ← hresult]
          exact ⟨⟨rfl, hdepth, hnoted⟩, hlevel⟩

/-- The places between the items are on the level. -/
theorem many_ends (h : Stays source count item item') (consumes : item'.Consumes) {c : Cursor}
    (hc : Level source count c) :
    (∀ items d, (Reader.many item' consumes).run c = .ok items d → Level source count d) ∧
      ∀ f d, (Reader.many item' consumes).run c = .error f d → f.Located source := by
  induction hn : c.rest.length using Nat.strongRecOn generalizing c with
  | _ n ih =>
    rw [Reader.run_many]
    cases hitem : item'.run c with
    | error f d =>
      rw [Outcome.error_andThen]
      refine ⟨nofun, ?_⟩
      rintro f' d' ⟨⟩
      exact h.error c f d hc hitem
    | ok found d =>
      have hd := h.ok c found d hc hitem
      rw [Outcome.ok_andThen]
      cases found with
      | none =>
        refine ⟨?_, nofun⟩
        rintro items d' ⟨⟩
        exact hd
      | some a =>
        have hshorter : d.rest.length < n := hn ▸ consumes hitem
        obtain ⟨hok, herror⟩ := ih d.rest.length hshorter hd rfl
        constructor
        · intro items e hread
          obtain ⟨later, e', hlater, hread⟩ := Outcome.andThen_eq_ok.mp hread
          cases hread
          exact hok later e hlater
        · intro f e hread
          rcases Outcome.andThen_eq_error.mp hread with hlater | ⟨later, e', -, hread⟩
          · exact herror f e hlater
          · cases hread

theorem tracks_many (h : Stays source count item item') (consumes : item'.Consumes) :
    Stays source count (many item) (Reader.many item' consumes) where
  counted _ _ hg := (counted_manyUpTo h consumes (Nat.lt_succ_self _) hg).1
  ok _ items d hc := (many_ends h consumes hc).1 items d
  error _ f d hc := (many_ends h consumes hc).2 f d
  honest _ _ hg := (counted_manyUpTo h consumes (Nat.lt_succ_self _) hg).2

end Many

/-! ## Expressions -/

section Expressions

variable {operand : Counting (Option Operand)} {operand' : Reader (Option Operand)}

theorem tracks_required (h : Stays source count operand operand') (op : Option Operator) :
    Stays source count (required operand op) (Reader.required operand' op) := by
  apply h.bind
  intro found
  cases found with
  | some x => exact .pure fun _ hd => hd
  | none => exact .failHere (by simp)

theorem tracks_link (h : Stays source count operand operand') (ty : Ty) :
    Stays source count (link operand ty) (Reader.link operand' ty) := by
  apply tracks_after fun hc => hc.of_operator
  intro op
  apply (tracks_required h (some op)).bind
  intro next
  split
  · exact .pure fun _ hd => hd
  · exact .fail (by simp) _

theorem tracks_expression (h : Stays source count operand operand') :
    Stays source count (expression operand) (Reader.expression operand') := by
  apply Tracks.skipLayout.bind
  intro _
  apply Tracks.offset.bind
  intro start
  apply ((tracks_required h none).weaken (fun _ hc => hc.1) fun _ _ hd => hd).bind
  intro first
  apply (tracks_many (tracks_link h first.ty) (Reader.consumes_link _ _)).bind
  intro links
  exact (Tracks.spanSince start).bind fun _ => .pure fun _ hd => hd

/-- A group that is closed leads back to the level in front of it. -/
theorem tracks_group (hlimit : count < nestingLimit)
    (h : Stays source (count + 1) operand operand') (opened : Nat) :
    Tracks source (count + 1) (Level source (count + 1)) (group operand opened)
      (Reader.group operand' opened) fun _ d => Level source count d := by
  apply Tracks.depth
  rw [if_neg (Nat.not_lt_of_le hlimit)]
  apply (tracks_expression h).bind
  intro inner
  apply (Tracks.accept (fun _ hc => hc) fun _ _ hc hread => hc.close hread).bind
  intro closed
  cases closed with
  | true => exact .pure fun _ hd => hd
  | false => exact .failHere (by simp)

end Expressions

/-! ## Operands -/

/-- A parenthesis was read at the offset, with so many open before it. -/
inductive Behind (source : Text) (count start : Nat) (d : Cursor) : Prop
  | intro (c : Cursor) (level : Level source count c) (bare : c.pastLayout = c)
    (start_eq : start = c.offset) (read : (Reader.accept '(').run c = .ok true d)

theorem Behind.level {start : Nat} {d : Cursor} (h : Behind source count start d)
    (hlimit : count < nestingLimit) : Level source (count + 1) d := by
  obtain ⟨c, hc, -, -, hread⟩ := h
  exact hc.open hlimit hread

theorem Behind.firstTooDeep {start : Nat} {d : Cursor} (h : Behind source nestingLimit start d) :
    FirstTooDeep source start := by
  obtain ⟨c, hc, hbare, rfl, hread⟩ := h
  obtain ⟨hnext, -⟩ := Reader.accept_eq_true hread
  apply hc.firstTooDeep
  rw [← hbare, hnext]
  rfl

/-- What is refused for its nesting is refused at the first parenthesis that is too deep. -/
theorem tracks_tooDeep (start : Nat) {post : α → Cursor → Prop} :
    Tracks source (nestingLimit + 1) (Behind source nestingLimit start)
      (liftM (Reader.fail .nestedTooDeeply (Span.single start) : Reader α) : Counting α)
      (Reader.fail .nestedTooDeeply (Span.single start)) post where
  counted _ _ _ := .refl _ _
  ok := by
    rintro c a d - ⟨⟩
  error := by
    rintro c f d hc ⟨⟩ -
    exact ⟨start, rfl, hc.firstTooDeep⟩
  honest _ _ _ _ hg := hg

/-- Wherever the reader begins, the place behind the layout is noted, and the counter. -/
def Notes (count : Nat) (p : Counting α) : Prop :=
  ∀ g c, g.depth = count → (c.pastLayout.offset, count) ∈ (p g c).2.seen

/-- Behind layout the place is noted, and what comes then begins there. -/
theorem tracks_marked {next : Nat → Counting α} {next' : Nat → Reader α}
    {post : α → Cursor → Prop}
    (h : ∀ start, Tracks source count
      (fun c => (Level source count c ∧ c.pastLayout = c) ∧ start = c.offset) (next start)
      (next' start) post) :
    Tracks source count (Level source count)
      (liftM Reader.skipLayout >>= fun _ => mark >>= next)
      (Reader.skipLayout >>= fun _ => Reader.offset >>= next') post ∧
      Notes count (liftM Reader.skipLayout >>= fun _ => mark >>= next) := by
  constructor
  · apply Tracks.skipLayout.bind
    intro _
    exact (Tracks.mark fun _ hc => hc.1).bind h
  · intro g c hg
    have hlater := (h c.pastLayout.offset).counted
      { g with seen := (c.pastLayout.offset, g.depth) :: g.seen } c.pastLayout hg
    rw [run_bind_ok (show (liftM Reader.skipLayout : Counting Unit) g c = _ from rfl),
      run_bind_ok (show mark g c.pastLayout = _ from rfl), ← hg]
    exact hlater.noted.subset List.mem_cons_self

/-- An operand is tracked if what comes behind a parenthesis is, with one more of them counted. -/
theorem tracks_operandWith {opened : Nat → Counting Operand} {opened' : Nat → Reader Operand}
    (h : ∀ start, Tracks source (count + 1) (Behind source count start) (opened start)
      (opened' start) fun _ d => Level source count d) :
    Stays source count (operandWith table opened) (Reader.operandWith table opened') ∧
      Notes count (operandWith table opened) := by
  apply tracks_marked
  intro start
  have hparen : ∀ c d, ((Level source count c ∧ c.pastLayout = c) ∧ start = c.offset) →
      (Reader.accept '(').run c = .ok true d → Behind source count start d := by
    intro c d hc hread
    exact ⟨c, hc.1.1, hc.1.2, hc.2, hread⟩
  apply (Tracks.accept (fun _ hc => hc.1.1) hparen).bind
  intro paren
  cases paren with
  | true => exact (h start).deeper.bind fun x => .pure fun _ hd => hd
  | false =>
    apply tracks_quoted.bind
    intro text
    cases text with
    | some text => exact (Tracks.spanSince start).bind fun _ => .pure fun _ hd => hd
    | none =>
      apply tracks_integer.bind
      intro value
      cases value with
      | some value => exact (Tracks.spanSince start).bind fun _ => .pure fun _ hd => hd
      | none =>
        apply tracks_name.bind
        intro name
        cases name with
        | none => exact .pure fun _ hd => hd
        | some name =>
          apply (Tracks.spanSince start).bind
          intro span
          exact (tracks_named name span).bind fun _ => .pure fun _ hd => hd

/-- As long as not too many parentheses are open, the counter shows how many at every operand. -/
theorem tracks_operand (table : SymbolTable) {n : Nat} (hcount : count ≤ nestingLimit)
    (hn : nestingLimit < count + n) :
    Stays source count (operand table n) (Reader.operand table (nestingLimit - count)) ∧
      Notes count (operand table n) := by
  induction n generalizing count with
  | zero => omega
  | succ n ih =>
    rcases Nat.lt_or_eq_of_le hcount with hlimit | rfl
    · have hleft : nestingLimit - count = nestingLimit - (count + 1) + 1 := by omega
      have hinner : Stays source (count + 1) (operand table n)
          (Reader.operand table (nestingLimit - (count + 1))) := (ih hlimit (by omega)).1
      rw [hleft]
      apply tracks_operandWith
      intro start
      exact (tracks_group hlimit hinner start).weaken (fun _ hd => hd.level hlimit) fun _ _ => id
    · rw [Nat.sub_self]
      apply tracks_operandWith
      intro start
      apply Tracks.depth
      rw [if_pos (Nat.lt_succ_self _)]
      exact tracks_tooDeep start

/-! ## Whole texts -/

theorem tracks_expr : Stays source 0 (expr table) (Reader.expr table) :=
  tracks_expression (tracks_operand table (Nat.zero_le _) (by omega)).1

theorem tracks_wholeExpr :
    Tracks source 0 (Level source 0) (wholeExpr table) (Reader.wholeExpr table)
      fun _ _ => True := by
  apply Tracks.offset.bind
  intro start
  apply tracks_expr.bind
  intro x
  have hend : Tracks source 0 (Level source 0) (liftM Reader.atEnd : Counting Bool) Reader.atEnd
      fun _ _ => True :=
    .lift_ok Reader.run_atEnd fun _ _ => trivial
  apply hend.bind
  intro ended
  cases ended with
  | true => exact (Tracks.spanSince start).bind fun _ => .pure fun _ _ => trivial
  | false => exact .lift_error (Reader.run_failRest .inputAfterExpression) (by simp)

theorem tracks_assignmentTo (start : Nat) (name : String) :
    Stays source 0 (assignmentTo table start name) (Reader.assignmentTo table start name) := by
  have hsign : ∀ ch : Char, Mode.ofCode .plain ch = .code .plain → ch ≠ '(' → ch ≠ ')' →
      Tracks source 0 (Level source 0) (liftM (Reader.accept ch) : Counting Bool)
        (Reader.accept ch) fun found d => if found then Level source 0 d else Level source 0 d :=
    fun ch hcode hopen hclose => Tracks.accept (fun _ => id) fun _ _ hc hread =>
      hc.of_accept hread hcode hopen hclose
  apply (hsign '=' rfl (by decide) (by decide)).bind
  intro sign
  cases sign with
  | false => exact .failHere (by simp)
  | true =>
    apply tracks_expr.bind
    intro x
    apply (hsign ';' rfl (by decide) (by decide)).bind
    intro ended
    cases ended with
    | false => exact .failHere (by simp)
    | true => exact (Tracks.spanSince start).bind fun _ => .pure fun _ => id

theorem tracks_assignment :
    Stays source 0 (assignment table) (Reader.assignment table) := by
  apply (Tracks.skipLayout.weaken (fun _ => id) fun _ _ hd => hd.1).bind
  intro _
  apply Tracks.offset.bind
  intro start
  exact tracks_after (fun hc hread => hc.of_name hread) (tracks_assignmentTo start)

/-- Each assignment leaves the counter at zero, so the next one is read with it. -/
theorem counted_programUpTo {n : Nat} {g : Gauge} {c : Cursor} (hn : c.rest.length < n)
    (hg : g.depth = 0) (hc : Level source 0 c) (hhonest : g.Honest source) :
    Counted g (programUpTo n table g c) (Progress.read table c) ∧
      (programUpTo n table g c).2.Honest source := by
  induction n generalizing table g c with
  | zero => exact absurd hn (Nat.not_lt_zero _)
  | succ n ih =>
    have htracks : Stays source 0 (assignment table) (Reader.assignment table) :=
      tracks_assignment
    have hfirst := htracks.counted g c hg
    have hnoted := htracks.honest g c hg hc hhonest
    rw [Progress.read_eq]
    unfold programUpTo
    rcases hassignment : assignment table g c with ⟨o, g'⟩
    rw [hassignment] at hfirst hnoted
    have hsame : o = (Reader.assignment table).run c := hfirst.result_eq
    rw [← hsame]
    cases o with
    | error f d => exact ⟨⟨rfl, hfirst.depth_eq, hfirst.noted⟩, hnoted⟩
    | ok found d =>
      cases found with
      | none => exact ⟨⟨rfl, hfirst.depth_eq, hfirst.noted⟩, hnoted⟩
      | some a =>
        have hshorter : d.rest.length < n :=
          Nat.lt_of_lt_of_le (Reader.consumes_assignment table hsame.symm) (Nat.le_of_lt_succ hn)
        have hlevel : Level source 0 d := htracks.ok c (some a) d hc hsame.symm
        have hlater : Counted g' (programUpTo n (table.bind a) g' d)
            (Progress.read (table.bind a) d) ∧ _ :=
          ih hshorter (hfirst.depth_eq.trans hg) hlevel hnoted
        rcases hprogram : programUpTo n (table.bind a) g' d with ⟨later, g''⟩
        rw [hprogram] at hlater
        obtain ⟨rfl, hdepth, hseen⟩ := hfirst.trans hlater.1
        simp only [hprogram]
        exact ⟨⟨rfl, hdepth, hseen⟩, hlater.2⟩

/-- A program is read with a counter at zero, and whatever is noted then is right. -/
theorem counted_program (source : Text) (table : SymbolTable) {g : Gauge} (hg : g.depth = 0)
    (hhonest : g.Honest source) :
    Counted g (program table g (Cursor.start source)) (Progress.read table (Cursor.start source)) ∧
      (program table g (Cursor.start source)).2.Honest source :=
  counted_programUpTo (Nat.lt_succ_self _) hg (level_start source) hhonest

end Counting

end Bindcheck
