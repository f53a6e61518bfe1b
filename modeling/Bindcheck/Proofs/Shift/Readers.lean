/-
Bindcheck.Proofs.Shift.Readers — reading the same text further along.

`Follows n g r r'` relates two readers. At a place that is `n` characters
further along, with the same text to read, `r'` does what `r` does: it
gives the result under `g`, or the failure moved by `n`, and rests `n`
characters further along. The second reader is one of its own because
readers keep offsets: the offset at which a group was opened, or that
from which a span is measured.

The relation is closed under sequence and repetition, so for each reader
its lemma follows the text of its definition. `Progress.read_shift` is
the result for whole programs. A failure that is moved along begins at or
behind the place where reading began: `Follows.le_start_of_error`.
-/
import Bindcheck.Proofs.Grammar.Lexeme
import Bindcheck.Proofs.Shift.Code

namespace Bindcheck

variable {α β γ δ : Type} {n : Nat}

/-- The same place in a text that has `distance` more characters in front. -/
def Cursor.shift (c : Cursor) (distance : Nat) : Cursor := ⟨c.offset + distance, c.rest⟩

/-- The outcome with its result under a function, and its places `distance` further along. -/
def Outcome.shift (distance : Nat) (g : α → β) : Outcome α → Outcome β
  | .ok a c => .ok (g a) (c.shift distance)
  | .error f c => .error (f.shift distance) (c.shift distance)

namespace Cursor

/-- Moving on and moving along commute. -/
theorem advance_shift (c : Cursor) (count distance : Nat) :
    (c.shift distance).advance count = (c.advance count).shift distance := by
  simp only [shift, advance, Cursor.mk.injEq, and_true]
  omega

theorem pastLayout_shift (c : Cursor) (distance : Nat) :
    (c.shift distance).pastLayout = c.pastLayout.shift distance :=
  advance_shift c _ distance

theorem spanSince_shift (c : Cursor) (start distance : Nat) :
    (c.shift distance).spanSince (start + distance) = (c.spanSince start).shift distance := by
  simp only [spanSince, shift, Span.shift, Span.mk.injEq, true_and]
  omega

theorem restSpan_shift (c : Cursor) (distance : Nat) :
    (c.shift distance).restSpan = c.restSpan.shift distance := by
  simp only [restSpan, finish, shift, Span.shift, Span.mk.injEq, true_and]
  omega

end Cursor

namespace Reader

/-- At a place that is `n` characters further along the second reader does what the first does. -/
def Follows (n : Nat) (g : α → β) (r : Reader α) (r' : Reader β) : Prop :=
  ∀ c : Cursor, r'.run (c.shift n) = (r.run c).shift n g

namespace Follows

variable {g : α → β} {h : γ → δ}

/-! ## Sequence and repetition -/

/-- Readers that read nothing follow each other. -/
protected theorem pure (g : α → β) (a : α) : Follows n g (pure a) (pure (g a)) :=
  fun _ => rfl

/-- One thing after another follows if both parts do. -/
protected theorem bind {p : Reader α} {p' : Reader β} {next : α → Reader γ}
    {next' : β → Reader δ} (hp : Follows n g p p')
    (hnext : ∀ a, Follows n h (next a) (next' (g a))) :
    Follows n h (p >>= next) (p' >>= next') := by
  intro c
  rw [run_bind, run_bind, hp c]
  cases p.run c with
  | ok a d =>
    show (next' (g a)).run (d.shift n) = ((next a).run d).shift n h
    exact hnext a d
  | error f d => rfl

/-- Readers that are refused for the same cause follow each other. -/
protected theorem fail (g : α → β) (cause : Cause) (span : Span) :
    Follows n g (fail cause span) (fail (cause.shift n) (span.shift n)) :=
  fun _ => rfl

/-- Repetition follows if the item does. -/
protected theorem many {item : Reader (Option α)} {item' : Reader (Option β)}
    (hitem : Follows n (Option.map g) item item') (consumes : item.Consumes)
    (consumes' : item'.Consumes) :
    Follows n (List.map g) (many item consumes) (many item' consumes') := by
  intro c
  induction hn : c.rest.length using Nat.strongRecOn generalizing c with
  | _ size ih =>
    rw [run_many, run_many, hitem c]
    cases hread : item.run c with
    | error f d => rfl
    | ok found d =>
      cases found with
      | none => rfl
      | some a =>
        have hshorter : d.rest.length < size := hn ▸ consumes hread
        have hlater := ih d.rest.length hshorter d rfl
        simp only [Outcome.shift, Outcome.ok_andThen, Option.map_some]
        rw [hlater]
        cases (Reader.many item consumes).run d with
        | ok items e => rfl
        | error f e => rfl

/-- A reader that follows itself blames no text before the place where it begins. -/
theorem le_start_of_error {r : Reader α} {g : Nat → α → α} (h : ∀ n, Follows n (g n) r r)
    {c d : Cursor} {f : Failure} (hread : r.run c = .error f d) : c.offset ≤ f.span.start := by
  -- what is read at `c` is read at the front, and then moved along
  have hfront : c = (⟨0, c.rest⟩ : Cursor).shift c.offset := by simp [Cursor.shift]
  rw [hfront, h] at hread
  cases hzero : r.run ⟨0, c.rest⟩ with
  | ok a e =>
    rw [hzero] at hread
    cases hread
  | error f₀ e =>
    rw [hzero] at hread
    cases hread
    exact Nat.le_add_left _ _

end Follows

/-! ## Places and tokens

What is read of a text does not depend on where the text stands.
-/

theorem follows_offset : Follows n (· + n) offset offset := fun _ => rfl

theorem follows_spanSince (start : Nat) :
    Follows n (·.shift n) (spanSince start) (spanSince (start + n)) := by
  intro c
  rw [run_spanSince, run_spanSince, Cursor.spanSince_shift]
  rfl

theorem follows_skipLayout : Follows n id skipLayout skipLayout := by
  intro c
  rw [run_skipLayout, run_skipLayout, Cursor.pastLayout_shift]
  rfl

/-- What is refused at the next character is refused there. -/
theorem follows_failHere (g : α → β) (cause : Cause) :
    Follows n g (failHere cause) (failHere (cause.shift n)) := by
  refine follows_skipLayout.bind ?_
  intro _
  refine follows_offset.bind ?_
  intro start
  rw [Span.single_shift]
  exact .fail g cause _

/-- A token is the same wherever it stands. -/
theorem follows_token (t : Token α) : Follows n id (token t) (token t) := by
  intro c
  rw [run_token, run_token, Cursor.pastLayout_shift]
  simp only [tokenAt, Cursor.shift]
  split
  · simp only [Outcome.shift, id_eq, ← Cursor.advance_shift]
    rfl
  · rfl

theorem follows_accept (ch : Char) : Follows n id (accept ch) (accept ch) :=
  (follows_token _).bind fun _ => .pure id _

/-- What comes after a token follows if it does after every token of the class. -/
theorem follows_after {t : Token α} {next : α → Reader β} {next' : α → Reader γ} {g : β → γ}
    (hnext : ∀ a, Follows n g (next a) (next' a)) :
    Follows n (Option.map g) (after t next) (after t next') := by
  refine (follows_token t).bind ?_
  intro found
  cases found with
  | none => exact .pure (Option.map g) none
  | some a => exact (hnext a).bind fun b => .pure (Option.map g) (some b)

/-! ## Strings and integers -/

/-- A bad escape takes its backslash and the character behind it. -/
theorem two_le_of_badEscape {form : Quoted.Form} {text : Text} {escaped : Char} {length : Nat}
    (h : Quoted.body form text = .badEscape escaped length) : 2 ≤ length := by
  obtain ⟨w, -, -, -, -, -, -, rfl⟩ := Grammar.spelling_of_badEscape h
  exact Nat.le_add_left 2 w.length

/-- The body of a string is the same wherever it stands. -/
theorem follows_quotedBody (form : Quoted.Form) (start : Nat) :
    Follows n id (quotedBody form start) (quotedBody form (start + n)) := by
  intro c
  have hrest : (c.shift n).rest = c.rest := rfl
  simp only [run_quotedBody, quotedBodyAt, hrest]
  cases hbody : Quoted.body form c.rest with
  | closed contents length =>
    simp only [Cursor.advance_shift]
    rfl
  | badEscape escaped length =>
    have hlength := two_le_of_badEscape hbody
    have hstart : c.offset + length + n - 2 = c.offset + length - 2 + n := by omega
    simp only [Cursor.advance_shift]
    simp only [Outcome.shift, Cursor.shift, Failure.shift, Cause.shift, Span.shift,
      Cursor.offset_advance, hstart]
  | unterminated =>
    simp only [Cursor.advance_shift, Cursor.spanSince_shift]
    rfl

theorem follows_quoted : Follows n id quoted quoted := by
  refine follows_skipLayout.bind ?_
  intro _
  refine follows_offset.bind ?_
  intro start
  refine (follows_accept _).bind ?_
  intro marked
  cases marked with
  | false =>
    refine (follows_accept _).bind ?_
    intro opened
    cases opened with
    | false => exact .pure id none
    | true => exact (follows_quotedBody .plain start).bind fun s => .pure id (some s)
  | true =>
    refine (follows_accept _).bind ?_
    intro opened
    cases opened with
    | false => exact (follows_spanSince start).bind fun span => .fail id .rawQuoteExpected span
    | true => exact (follows_quotedBody .raw start).bind fun s => .pure id (some s)

theorem follows_integer : Follows n id integer integer := by
  refine follows_skipLayout.bind ?_
  intro _
  refine follows_offset.bind ?_
  intro start
  refine (follows_token _).bind ?_
  intro found
  cases found with
  | none => exact .pure id none
  | some digits =>
    simp only [id_eq]
    split
    · exact .pure id _
    · exact (follows_spanSince start).bind fun span => .fail id (.integerOutOfRange _) span

/-! ## Expressions -/

section Expressions

variable {operand operand' : Reader (Option Operand)}

theorem follows_required (h : Follows n (Option.map (Operand.shift n)) operand operand')
    (op : Option Operator) :
    Follows n (Operand.shift n) (required operand op) (required operand' op) := by
  refine h.bind ?_
  intro found
  cases found with
  | none => exact follows_failHere _ (.operandExpected op)
  | some x => exact .pure _ x

/-- A link with its operand moved. -/
def shiftLink (n : Nat) (link : Operator × Operand) : Operator × Operand :=
  (link.1, link.2.shift n)

theorem follows_link (h : Follows n (Option.map (Operand.shift n)) operand operand') (ty : Ty) :
    Follows n (Option.map (shiftLink n)) (link operand ty) (link operand' ty) := by
  refine follows_after ?_
  intro op
  refine (follows_required h (some op)).bind ?_
  intro x
  simp only [Operand.ty_shift, Operand.span_shift]
  split
  · exact .pure (shiftLink n) (op, x)
  · exact .fail _ (.mismatchedTypes ty x.ty) x.span

theorem follows_expression (h : Follows n (Option.map (Operand.shift n)) operand operand') :
    Follows n (Expr.shift n) (expression operand) (expression operand') := by
  refine follows_skipLayout.bind ?_
  intro _
  refine follows_offset.bind ?_
  intro start
  refine (follows_required h none).bind ?_
  intro first
  simp only [Operand.ty_shift]
  refine ((follows_link h first.ty).many _ _).bind ?_
  intro links
  refine (follows_spanSince start).bind ?_
  intro span
  have hlinks : Chain.ofList (links.map (shiftLink n)) = (Chain.ofList links).shift n :=
    (Chain.shift_ofList links).symm
  rw [hlinks]
  exact .pure (Expr.shift n) (.mk first (.ofList links) span)

theorem follows_group (h : Follows n (Option.map (Operand.shift n)) operand operand')
    (opened : Nat) :
    Follows n (Operand.shift n) (group operand opened) (group operand' (opened + n)) := by
  refine (follows_expression h).bind ?_
  intro inner
  refine (follows_accept _).bind ?_
  intro closed
  cases closed with
  | false => exact follows_failHere _ (.unclosedGroup opened)
  | true => exact .pure (Operand.shift n) (.group inner)

end Expressions

theorem follows_named (table : SymbolTable) (name : String) (span : Span) :
    Follows n (Operand.shift n) (named table name span) (named table name (span.shift n)) := by
  simp only [named]
  split
  · exact .pure (Operand.shift n) _
  · exact .fail _ (.undefinedVariable name) span

/-- An operand follows if what comes after a parenthesis does. -/
theorem follows_operandWith (table : SymbolTable) {opened opened' : Nat → Reader Operand}
    (h : ∀ o, Follows n (Operand.shift n) (opened o) (opened' (o + n))) :
    Follows n (Option.map (Operand.shift n)) (operandWith table opened)
      (operandWith table opened') := by
  refine follows_skipLayout.bind ?_
  intro _
  refine follows_offset.bind ?_
  intro start
  refine (follows_accept _).bind ?_
  intro paren
  cases paren with
  | true => exact (h start).bind fun x => .pure (Option.map (Operand.shift n)) (some x)
  | false =>
    refine follows_quoted.bind ?_
    intro text
    cases text with
    | some text =>
      exact (follows_spanSince start).bind fun span =>
        .pure (Option.map (Operand.shift n)) (some (.literal (.str text) span))
    | none =>
      refine follows_integer.bind ?_
      intro value
      cases value with
      | some value =>
        exact (follows_spanSince start).bind fun span =>
          .pure (Option.map (Operand.shift n)) (some (.literal (.int value) span))
      | none =>
        refine (follows_token _).bind ?_
        intro name
        cases name with
        | some name =>
          exact (follows_spanSince start).bind fun span =>
            (follows_named table name span).bind fun x =>
              .pure (Option.map (Operand.shift n)) (some x)
        | none => exact .pure (Option.map (Operand.shift n)) none

/-- An operand is the same wherever it stands, with so many groups open at most. -/
theorem follows_operand (table : SymbolTable) (depth : Nat) :
    Follows n (Option.map (Operand.shift n)) (operand table depth) (operand table depth) := by
  induction depth with
  | zero =>
    refine follows_operandWith table ?_
    intro o
    rw [Span.single_shift]
    exact .fail _ .nestedTooDeeply _
  | succ depth ih => exact follows_operandWith table fun o => follows_group ih o

/-! ## Assignments -/

theorem follows_assignmentTo (table : SymbolTable) (start : Nat) (name : String) :
    Follows n (·.shift n) (assignmentTo table start name)
      (assignmentTo table (start + n) name) := by
  refine (follows_accept _).bind ?_
  intro signed
  cases signed with
  | false => exact follows_failHere _ (.equalsExpected name)
  | true =>
    refine (follows_expression (follows_operand table nestingLimit)).bind ?_
    intro x
    refine (follows_accept _).bind ?_
    intro ended
    cases ended with
    | false => exact follows_failHere _ .semicolonExpected
    | true =>
      exact (follows_spanSince start).bind fun span =>
        .pure (Assignment.shift · n) ⟨name, x, span⟩

/-- An assignment is the same wherever it stands. -/
theorem follows_assignment (table : SymbolTable) :
    Follows n (Option.map (·.shift n)) (assignment table) (assignment table) :=
  follows_skipLayout.bind fun _ => follows_offset.bind fun start =>
    follows_after fun name => follows_assignmentTo table start name

end Reader

/-! ## Programs -/

namespace Progress

/-- What was read of a program, in a text that has `distance` more characters in front. -/
def shift (p : Progress) (distance : Nat) : Progress where
  statements := p.statements.map (·.shift distance)
  symbols := p.symbols
  cursor := p.cursor.shift distance
  failure := p.failure.map (·.shift distance)

/-- A program is read the same wherever it stands. -/
theorem read_shift (table : SymbolTable) (c : Cursor) (distance : Nat) :
    read table (c.shift distance) = (read table c).shift distance := by
  induction hn : c.rest.length using Nat.strongRecOn generalizing table c with
  | _ size ih =>
    rw [read_eq, read_eq, Reader.follows_assignment table c]
    cases hread : (Reader.assignment table).run c with
    | error f d => rfl
    | ok found d =>
      cases found with
      | none => rfl
      | some a =>
        have hshorter : d.rest.length < size := hn ▸ Reader.consumes_assignment table hread
        have hlater := ih d.rest.length hshorter (table.bind a) d rfl
        simp only [Outcome.shift, Option.map_some, SymbolTable.bind_shift, hlater]
        rfl

end Progress

end Bindcheck
