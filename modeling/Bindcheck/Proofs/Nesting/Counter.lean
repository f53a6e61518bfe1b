/-
Bindcheck.Proofs.Nesting.Counter — readers that count the parentheses they
have open.

`Reader.operand` is told how many more parentheses may be opened, and an
operand after a group is told the same as the group was. The readers here
keep a counter instead, which all of them share: it goes up behind a
parenthesis, and down again when what stands behind it was read or
refused (`Counting.deeper`). Each time they look for an operand they note
the place and the counter.

`Tracks` says that such a reader does what another one does. From the
same cursor it comes to the same end, it leaves the counter as it found
it, and whatever it notes is how many parentheses are open there. A text
that it refuses for its nesting it refuses at the first parenthesis that
is too deep. The relation is closed under sequence, so the lemma for a
reader can follow the text of its definition.
-/
import Bindcheck.Proofs.Nesting.Open
import Bindcheck.Proofs.Refusal.Parts

namespace Bindcheck

open Grammar

/-! ## Counting readers -/

/-- A counter of parentheses, and the offsets at which operands were looked for, each with what the
counter was there. -/
structure Gauge where
  depth : Nat
  seen : List (Nat × Nat)
  deriving DecidableEq, Repr

/-- A reader with a counter. It has one after a failure, too. -/
def Counting (α : Type) : Type := Gauge → Cursor → Outcome α × Gauge

namespace Counting

variable {α β : Type}

protected def pure (a : α) : Counting α := fun g c => (.ok a c, g)

protected def bind (p : Counting α) (next : α → Counting β) : Counting β := fun g c =>
  match p g c with
  | (.ok a d, g') => next a g' d
  | (.error f d, g') => (.error f d, g')

instance : Monad Counting where
  pure := Counting.pure
  bind := Counting.bind

/-- Reads what counts no parentheses. -/
protected def lift (r : Reader α) : Counting α := fun g c => (r.run c, g)

instance : MonadLift Reader Counting where
  monadLift := Counting.lift

/-- The counter. -/
def depth : Counting Nat := fun g c => (.ok g.depth c, g)

/-- The offset at the cursor, where the counter is noted. -/
def mark : Counting Nat := fun g c =>
  (.ok c.offset c, { g with seen := (c.offset, g.depth) :: g.seen })

/-- Counts one parenthesis more while something is read, however that ends. -/
def deeper (p : Counting α) : Counting α := fun g c =>
  let (o, g') := p { g with depth := g.depth + 1 } c
  (o, { g' with depth := g'.depth - 1 })

/-- Reads items until there is none, so many at most. -/
def manyUpTo (item : Counting (Option α)) : Nat → Counting (List α)
  | 0 => return []
  | n + 1 => do
    match ← item with
    | none => return []
    | some a => return a :: (← manyUpTo item n)

/-- Reads items until there is none; there are no more than characters left. -/
def many (item : Counting (Option α)) : Counting (List α) := fun g c =>
  manyUpTo item (c.rest.length + 1) g c

/-- Reads a token and what has to follow it, if the token is there. -/
def after (t : Token α) (next : α → Counting β) : Counting (Option β) := do
  match ← Reader.token t with
  | none => return none
  | some a => return some (← next a)

def required (operand : Counting (Option Operand)) (after : Option Operator) :
    Counting Operand := do
  match ← operand with
  | some found => return found
  | none => Reader.failHere (.operandExpected after)

def link (operand : Counting (Option Operand)) (ty : Ty) :
    Counting (Option (Operator × Operand)) :=
  after .operator fun op => do
    let next ← required operand (some op)
    if next.ty = ty then
      return (op, next)
    else
      Reader.fail (.mismatchedTypes ty next.ty) next.span

def expression (operand : Counting (Option Operand)) : Counting Expr := do
  Reader.skipLayout
  let start ← Reader.offset
  let first ← required operand none
  let links ← many (link operand first.ty)
  return .mk first (.ofList links) (← Reader.spanSince start)

/-- Reads the rest of an operand in parentheses, unless too many are open. -/
def group (operand : Counting (Option Operand)) (opened : Nat) : Counting Operand := do
  if nestingLimit < (← depth) then
    Reader.fail .nestedTooDeeply (Span.single opened)
  else
    let inner ← expression operand
    if ← Reader.accept ')' then
      return .group inner
    else
      Reader.failHere (.unclosedGroup opened)

def operandWith (scope : SymbolTable) (opened : Nat → Counting Operand) :
    Counting (Option Operand) := do
  Reader.skipLayout
  let start ← mark
  if ← Reader.accept '(' then
    return some (← deeper (opened start))
  else
    match ← Reader.quoted with
    | some text => return some (.literal (.str text) (← Reader.spanSince start))
    | none =>
      match ← Reader.integer with
      | some value => return some (.literal (.int value) (← Reader.spanSince start))
      | none =>
        match ← Reader.token .name with
        | some name => return some (← Reader.named scope name (← Reader.spanSince start))
        | none => return none

/-- Reads an operand, calling itself so many times at most. -/
def operand (scope : SymbolTable) : Nat → Counting (Option Operand)
  | 0 => return none
  | n + 1 => operandWith scope (group (operand scope n))

/-- Reads an expression. Behind so many calls the counter is at its limit. -/
def expr (scope : SymbolTable) : Counting Expr :=
  expression (operand scope (nestingLimit + 1))

def wholeExpr (scope : SymbolTable) : Counting Statement := do
  let start ← Reader.offset
  let expr ← expr scope
  if ← Reader.atEnd then
    return .expression expr (← Reader.spanSince start)
  else
    Reader.failRest .inputAfterExpression

def assignmentTo (scope : SymbolTable) (start : Nat) (name : String) : Counting Assignment := do
  if ← Reader.accept '=' then
    let expr ← expr scope
    if ← Reader.accept ';' then
      return ⟨name, expr, ← Reader.spanSince start⟩
    else
      Reader.failHere .semicolonExpected
  else
    Reader.failHere (.equalsExpected name)

def assignment (scope : SymbolTable) : Counting (Option Assignment) := do
  Reader.skipLayout
  let start ← Reader.offset
  after .name (assignmentTo scope start)

/-- Reads assignments from a cursor on, so many at most. -/
def programUpTo : Nat → SymbolTable → Gauge → Cursor → Progress × Gauge
  | 0, symbols, g, c => (⟨[], symbols, c, none⟩, g)
  | n + 1, symbols, g, c =>
    match assignment symbols g c with
    | (.error f d, g') => (⟨[], symbols, d, some f⟩, g')
    | (.ok none d, g') => (⟨[], symbols, d, none⟩, g')
    | (.ok (some a) d, g') =>
      let (later, g'') := programUpTo n (symbols.bind a) g' d
      ({ later with statements := a :: later.statements }, g'')

/-- Reads a program; it has no more assignments than characters are left. -/
def program (symbols : SymbolTable) (g : Gauge) (c : Cursor) : Progress × Gauge :=
  programUpTo (c.rest.length + 1) symbols g c

end Counting

/-! ## What a counting reader keeps -/

/-- Each count that was noted is how many parentheses are open there. -/
def Gauge.Honest (source : Text) (g : Gauge) : Prop :=
  ∀ entry ∈ g.seen, openBefore source entry.1 = entry.2

/-- If the nesting is to blame, it is for the first parenthesis that is too deep. -/
def Failure.Located (source : Text) (f : Failure) : Prop :=
  f.cause = .nestedTooDeeply → ∃ p, f.span = Span.single p ∧ FirstTooDeep source p

/-- A reading with a counter has the result that it has without one. The counter comes back to where
it was, and what was noted stays noted. -/
structure Counted {σ : Type} (g : Gauge) (reading : σ × Gauge) (result : σ) : Prop where
  result_eq : reading.1 = result
  depth_eq : reading.2.depth = g.depth
  noted : g.seen <:+ reading.2.seen

theorem Counted.refl {σ : Type} (g : Gauge) (result : σ) : Counted g (result, g) result :=
  ⟨rfl, rfl, List.suffix_refl g.seen⟩

/-- One reading goes on with the counter that another one left. -/
theorem Counted.trans {σ τ : Type} {g : Gauge} {first : σ × Gauge} {reading : τ × Gauge}
    {a : σ} {b : τ} (h : Counted g first a) (hlater : Counted first.2 reading b) :
    Counted g reading b where
  result_eq := hlater.result_eq
  depth_eq := hlater.depth_eq.trans h.depth_eq
  noted := h.noted.trans hlater.noted

/-- With a counter that shows `count`, the counting reader does what the reader does. From where
`pre` holds it ends where `post` does, and notes nothing that is wrong. -/
structure Tracks {α : Type} (source : Text) (count : Nat) (pre : Cursor → Prop) (p : Counting α)
    (r : Reader α) (post : α → Cursor → Prop) : Prop where
  counted : ∀ g c, g.depth = count → Counted g (p g c) (r.run c)
  ok : ∀ c a d, pre c → r.run c = .ok a d → post a d
  error : ∀ c f d, pre c → r.run c = .error f d → f.Located source
  honest : ∀ g c, g.depth = count → pre c → g.Honest source → (p g c).2.Honest source

theorem Counting.run_bind_ok {α β : Type} {p : Counting α} {next : α → Counting β}
    {g g' : Gauge} {c d : Cursor} {a : α} (h : p g c = (.ok a d, g')) :
    (p >>= next) g c = next a g' d := by
  show Counting.bind p next g c = next a g' d
  rw [Counting.bind, h]

theorem Counting.run_bind_error {α β : Type} {p : Counting α} {next : α → Counting β}
    {g g' : Gauge} {c d : Cursor} {f : Failure} (h : p g c = (.error f d, g')) :
    (p >>= next) g c = (.error f d, g') := by
  show Counting.bind p next g c = (.error f d, g')
  rw [Counting.bind, h]

namespace Tracks

variable {α β : Type} {source : Text} {count : Nat} {pre : Cursor → Prop} {p : Counting α}
  {r : Reader α} {mid post : α → Cursor → Prop}

theorem pure {a : α} {post : α → Cursor → Prop} (h : ∀ c, pre c → post a c) :
    Tracks source count pre (Pure.pure a : Counting α) (Pure.pure a : Reader α) post where
  counted _ _ _ := .refl _ _
  ok := by
    rintro c a' d hc ⟨rfl, rfl⟩
    exact h c hc
  error := by
    rintro c f d - ⟨⟩
  honest _ _ _ _ hg := hg

/-- One thing is tracked after another, from where that one ended. -/
theorem bind {next : α → Counting β} {next' : α → Reader β} {post : β → Cursor → Prop}
    (h : Tracks source count pre p r mid)
    (hnext : ∀ a, Tracks source count (mid a) (next a) (next' a) post) :
    Tracks source count pre (p >>= next) (r >>= next') post := by
  constructor
  case counted =>
    intro g c hg
    have hfirst := h.counted g c hg
    rcases hp : p g c with ⟨_ | _, g'⟩ <;> rw [hp] at hfirst
    · rw [Counting.run_bind_ok hp, Reader.run_bind, ← hfirst.result_eq]
      exact hfirst.trans ((hnext _).counted g' _ (hfirst.depth_eq.trans hg))
    · rw [Counting.run_bind_error hp, Reader.run_bind, ← hfirst.result_eq]
      exact ⟨rfl, hfirst.depth_eq, hfirst.noted⟩
  case ok =>
    intro c b d hc hread
    obtain ⟨a, e, hfirst, hread⟩ := Outcome.andThen_eq_ok.mp hread
    exact (hnext a).ok e b d (h.ok c a e hc hfirst) hread
  case error =>
    intro c f d hc hread
    rcases Outcome.andThen_eq_error.mp hread with hfirst | ⟨a, e, hfirst, hread⟩
    · exact h.error c f d hc hfirst
    · exact (hnext a).error e f d (h.ok c a e hc hfirst) hread
  case honest =>
    intro g c hg hc hhonest
    have hfirst := h.counted g c hg
    have hlater := h.honest g c hg hc hhonest
    rcases hp : p g c with ⟨_ | _, g'⟩ <;> rw [hp] at hfirst hlater
    · have hmid := h.ok c _ _ hc hfirst.result_eq.symm
      rw [Counting.run_bind_ok hp]
      exact (hnext _).honest g' _ (hfirst.depth_eq.trans hg) hmid hlater
    · rw [Counting.run_bind_error hp]
      exact hlater

theorem weaken {pre' : Cursor → Prop} {post' : α → Cursor → Prop}
    (h : Tracks source count pre p r post) (hpre : ∀ c, pre' c → pre c)
    (hpost : ∀ a d, post a d → post' a d) : Tracks source count pre' p r post' where
  counted := h.counted
  ok c a d hc hread := hpost a d (h.ok c a d (hpre c hc) hread)
  error c f d hc hread := h.error c f d (hpre c hc) hread
  honest g c hg hc hhonest := h.honest g c hg (hpre c hc) hhonest

/-- What counts no parentheses is tracked by itself. -/
theorem lift {r : Reader α} {post : α → Cursor → Prop}
    (hok : ∀ c a d, pre c → r.run c = .ok a d → post a d)
    (herror : ∀ c f d, r.run c = .error f d → f.cause ≠ .nestedTooDeeply) :
    Tracks source count pre (liftM r : Counting α) r post where
  counted _ _ _ := .refl _ _
  ok := hok
  error c f d _ hread hcause := absurd hcause (herror c f d hread)
  honest _ _ _ _ hg := hg

/-- A reader that refuses nothing is tracked to where it always ends. -/
theorem lift_ok {r : Reader α} {post : α → Cursor → Prop} {value : Cursor → α}
    {last : Cursor → Cursor} (hrun : ∀ c, r.run c = .ok (value c) (last c))
    (hpost : ∀ c, pre c → post (value c) (last c)) :
    Tracks source count pre (liftM r : Counting α) r post := by
  apply lift
  · intro c a d hc hread
    rw [hrun] at hread
    cases hread
    exact hpost c hc
  · intro c f d hread
    rw [hrun] at hread
    cases hread

/-- A reader that refuses everything for another cause is tracked anywhere. -/
theorem lift_error {r : Reader α} {failure : Cursor → Failure} {last : Cursor → Cursor}
    (hrun : ∀ c, r.run c = .error (failure c) (last c))
    (hcause : ∀ c, (failure c).cause ≠ .nestedTooDeeply) :
    Tracks source count pre (liftM r : Counting α) r post := by
  apply lift
  · intro c a d _ hread
    rw [hrun] at hread
    cases hread
  · intro c f d hread
    rw [hrun] at hread
    cases hread
    exact hcause c

theorem fail {cause : Cause} (h : cause ≠ .nestedTooDeeply) (span : Span) :
    Tracks source count pre (liftM (Reader.fail cause span : Reader α) : Counting α)
      (Reader.fail cause span) post :=
  lift_error (Reader.run_fail cause span) fun _ => h

theorem failHere {cause : Cause} (h : cause ≠ .nestedTooDeeply) :
    Tracks source count pre (liftM (Reader.failHere cause : Reader α) : Counting α)
      (Reader.failHere cause) post :=
  lift_error (Reader.run_failHere cause) fun _ => h

theorem skipLayout : Tracks source count (Level source count)
    (liftM Reader.skipLayout : Counting Unit) Reader.skipLayout
    fun _ d => Level source count d ∧ d.pastLayout = d :=
  lift_ok Reader.run_skipLayout fun c hc => ⟨hc.pastLayout, c.pastLayout_pastLayout⟩

theorem offset : Tracks source count pre (liftM Reader.offset : Counting Nat) Reader.offset
    fun _ d => pre d :=
  lift_ok Reader.run_offset fun _ hc => hc

theorem spanSince (start : Nat) : Tracks source count pre
    (liftM (Reader.spanSince start) : Counting Span) (Reader.spanSince start) fun _ d => pre d :=
  lift_ok (Reader.run_spanSince start) fun _ hc => hc

/-- A character that is looked for is there, or the reader rests behind the layout. -/
theorem accept {ch : Char} {post : Cursor → Prop} (hpre : ∀ c, pre c → Level source count c)
    (h : ∀ c d, pre c → (Reader.accept ch).run c = .ok true d → post d) :
    Tracks source count pre (liftM (Reader.accept ch) : Counting Bool) (Reader.accept ch)
      fun found d => if found then post d else Level source count d := by
  apply lift
  · intro c found d hc hread
    cases found with
    | true => exact h c d hc hread
    | false =>
      obtain ⟨-, rfl⟩ := Reader.accept_eq_false hread
      exact (hpre c hc).pastLayout
  · intro c f d hread
    exact absurd hread Reader.accept_ne_error

/-- The count at the cursor is noted where that many parentheses are open. -/
theorem mark (hpre : ∀ c, pre c → Level source count c) :
    Tracks source count pre Counting.mark Reader.offset
      fun start d => pre d ∧ start = d.offset where
  counted g c _ := ⟨rfl, rfl, List.suffix_cons (c.offset, g.depth) g.seen⟩
  ok := by
    rintro c a d hc ⟨⟩
    exact ⟨hc, rfl⟩
  error := by
    rintro c f d - ⟨⟩
  honest g c hg hc hhonest := by
    have hhere : openBefore source c.offset = g.depth := by
      rw [hg]
      exact (hpre c hc).openBefore_eq
    exact List.forall_mem_cons.mpr ⟨hhere, hhonest⟩

theorem depth {next : Nat → Counting α} (h : Tracks source count pre (next count) r post) :
    Tracks source count pre (Counting.depth >>= next) r post := by
  have hrun : ∀ g c, g.depth = count → (Counting.depth >>= next) g c = next count g c := by
    rintro g c rfl
    rfl
  constructor
  case counted =>
    intro g c hg
    rw [hrun g c hg]
    exact h.counted g c hg
  case ok => exact h.ok
  case error => exact h.error
  case honest =>
    intro g c hg
    rw [hrun g c hg]
    exact h.honest g c hg

/-- The counter comes back to where it was, whatever happens below. -/
theorem deeper (h : Tracks source (count + 1) pre p r post) :
    Tracks source count pre (Counting.deeper p) r post where
  counted := by
    rintro g c rfl
    obtain ⟨hresult, hdepth, hnoted⟩ := h.counted { g with depth := g.depth + 1 } c rfl
    refine ⟨hresult, ?_, hnoted⟩
    show (p _ c).2.depth - 1 = g.depth
    rw [hdepth, Nat.add_sub_cancel]
  ok := h.ok
  error := h.error
  honest := by
    rintro g c rfl hc hhonest
    exact h.honest _ c rfl hc hhonest

end Tracks

end Bindcheck
