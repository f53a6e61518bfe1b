/-
Bindcheck.Proofs.Ration.Rationed — readers whose loops have a ration of
turns.

The readers of the library repeat themselves as long as the text goes on,
and that they come to an end is part of how they are defined. The readers
here are defined without that. Each loop, also one over the characters of
blanks, of a name or of a string, is a recursion on the turns that it may
still take, and groups are opened by a recursion of the same kind. A
loop that needs one turn more has no outcome, neither a result nor a
failure.

A rationed reading also notes its turns: for each turn after which a loop
goes on, from where to where it led, and for each group that is entered
the place and how many are open there (`Note`). `Note.Sound` says what
has to be true of a note.
-/
import Bindcheck.Proofs.Ration.Loops

namespace Bindcheck

open Quoted

/-! ## Notes -/

/-- The loops of the readers: over characters, over comments in layout, over the operators and
operands of an expression, and over the assignments of a program. -/
inductive Loop where
  | characters
  | comments
  | links
  | assignments
  deriving DecidableEq, Repr

/-- How many characters each turn takes at least after which a loop goes on. -/
def Loop.least : Loop → Nat
  | characters => 1
  | comments => 2
  | links => 2
  | assignments => 4

/-- What is noted of a reading: a turn after which a loop goes on, with the offsets between which
it was taken, and a group that is entered at an offset, with where its parenthesis is and how many
groups are open. -/
inductive Note where
  | turn (loop : Loop) (start stop : Nat)
  | group (opened inside depth : Nat)
  deriving DecidableEq, Repr

/-- A turn takes what it has to take, within the source. A group is entered behind its parenthesis,
and no more groups are open then than may be. -/
def Note.Sound (source : Text) : Note → Prop
  | turn loop start stop => start + loop.least ≤ stop ∧ stop ≤ source.length
  | group opened inside depth =>
    source[opened]? = some '(' ∧ inside = opened + 1 ∧ depth ≤ nestingLimit

/-! ## Rationed readers -/

/-- A reader whose loops may run out of turns: the outcome, if there is one, and the notes. -/
def Rationed (α : Type) : Type := Cursor → Option (Outcome α) × List Note

namespace Rationed

variable {α β : Type}

protected def pure (a : α) : Rationed α := fun c => (some (.ok a c), [])

protected def bind (p : Rationed α) (next : α → Rationed β) : Rationed β := fun c =>
  match p c with
  | (some (.ok a d), notes) =>
    let (o, later) := next a d
    (o, notes ++ later)
  | (some (.error f d), notes) => (some (.error f d), notes)
  | (none, notes) => (none, notes)

instance : Monad Rationed where
  pure := Rationed.pure
  bind := Rationed.bind

/-- Reads what is read without a loop. -/
protected def lift (r : Reader α) : Rationed α := fun c => (some (r.run c), [])

instance : MonadLift Reader Rationed where
  monadLift := Rationed.lift

/-- No turn is left. -/
def exhausted : Rationed α := fun _ => (none, [])

/-- Notes that a group is entered. -/
def enter (opened depth : Nat) : Rationed Unit := fun c =>
  (some (.ok () c), [.group opened c.offset depth])

/-- Notes the turn in which an item is found. -/
def turn (loop : Loop) (item : Rationed (Option α)) : Rationed (Option α) := fun c =>
  match item c with
  | (some (.ok (some a) d), notes) =>
    (some (.ok (some a) d), notes ++ [.turn loop c.offset d.offset])
  | reading => reading

/-- Reads items until there is none, in so many turns. -/
def repeated (loop : Loop) (item : Rationed (Option α)) : Nat → Rationed (List α)
  | 0 => exhausted
  | turns + 1 => do
    match ← turn loop item with
    | none => return []
    | some a => return a :: (← repeated loop item turns)

/-! ## Tokens -/

section Tokens

variable (ration : Nat)

/-- Reads a character of one kind and those of another kind behind it, if it comes next. -/
def word (first following : Char → Bool) : Rationed (Option Text) := do
  match ← Reader.next first with
  | none => return none
  | some x => return some (x :: (← repeated .characters (Reader.next following) ration))

/-- Reads some blanks and the comment behind them, if one begins there. -/
def comment : Rationed (Option Unit) := do
  let _ ← repeated .characters (Reader.next isBlank) ration
  if ← Reader.ahead ['/', '/'] then
    let _ ← repeated .characters (Reader.next Reader.inComment) ration
    return some ()
  else
    return none

def skipLayout : Rationed Unit := do
  let _ ← repeated .comments (comment ration) ration
  return ()

def atEnd : Rationed Bool := do
  skipLayout ration
  Reader.ended

def failHere (cause : Cause) : Rationed α := do
  skipLayout ration
  Reader.fail cause (Span.single (← Reader.offset))

/-- Reads a token that is recognised without a loop. -/
def token (t : Token α) : Rationed (Option α) := do
  skipLayout ration
  Reader.front t

def accept (c : Char) : Rationed Bool := do
  return (← token ration (.char c)).isSome

/-- Reads a run of characters after the layout, if it is there. -/
def tokenRun (first following : Char → Bool) : Rationed (Option Text) := do
  skipLayout ration
  word ration first following

def name : Rationed (Option String) := do
  return (← tokenRun ration Token.isNameStart Token.isNamePart).map String.ofList

def integer : Rationed (Option Int64) := do
  skipLayout ration
  let start ← Reader.offset
  match ← tokenRun ration Char.isDigit Char.isDigit with
  | none => return none
  | some digits =>
    if Numeral.value digits ≤ Numeral.maxInteger then
      return some (Int64.ofNat (Numeral.value digits))
    else
      Reader.fail (.integerOutOfRange (String.ofList digits)) (← Reader.spanSince start)

def quotedBody (form : Form) (start : Nat) : Rationed String := do
  return String.ofList (← repeated .characters (Reader.letter form start) ration)

def quoted : Rationed (Option String) := do
  skipLayout ration
  let start ← Reader.offset
  if ← accept ration rawMark then
    if ← accept ration quote then
      return some (← quotedBody ration .raw start)
    else
      Reader.fail .rawQuoteExpected (← Reader.spanSince start)
  else if ← accept ration quote then
    return some (← quotedBody ration .plain start)
  else
    return none

end Tokens

/-- Reads a token and what has to follow it, if the token is there. -/
def after (t : Rationed (Option α)) (next : α → Rationed β) : Rationed (Option β) := do
  match ← t with
  | none => return none
  | some a => return some (← next a)

/-! ## Expressions and programs -/

section Expressions

variable (ration : Nat)

def required (operand : Rationed (Option Operand)) (after : Option Operator) :
    Rationed Operand := do
  match ← operand with
  | some found => return found
  | none => failHere ration (.operandExpected after)

def link (operand : Rationed (Option Operand)) (ty : Ty) :
    Rationed (Option (Operator × Operand)) :=
  after (token ration .operator) fun op => do
    let next ← required ration operand (some op)
    if next.ty = ty then
      return (op, next)
    else
      Reader.fail (.mismatchedTypes ty next.ty) next.span

def expression (operand : Rationed (Option Operand)) : Rationed Expr := do
  skipLayout ration
  let start ← Reader.offset
  let first ← required ration operand none
  let links ← repeated .links (link ration operand first.ty) ration
  return .mk first (.ofList links) (← Reader.spanSince start)

/-- Reads the rest of an operand in parentheses, with so many open, unless these are too many. -/
def group (operand : Rationed (Option Operand)) (depth opened : Nat) : Rationed Operand := do
  if nestingLimit < depth then
    Reader.fail .nestedTooDeeply (Span.single opened)
  else
    enter opened depth
    let inner ← expression ration operand
    if ← accept ration ')' then
      return .group inner
    else
      failHere ration (.unclosedGroup opened)

def operandWith (scope : SymbolTable) (opened : Nat → Rationed Operand) :
    Rationed (Option Operand) := do
  skipLayout ration
  let start ← Reader.offset
  if ← accept ration '(' then
    return some (← opened start)
  else
    match ← quoted ration with
    | some text => return some (.literal (.str text) (← Reader.spanSince start))
    | none =>
      match ← integer ration with
      | some value => return some (.literal (.int value) (← Reader.spanSince start))
      | none =>
        match ← name ration with
        | some name => return some (← Reader.named scope name (← Reader.spanSince start))
        | none => return none

/-- Reads an operand with so many parentheses open, calling itself in so many turns. -/
def operand (scope : SymbolTable) : Nat → Nat → Rationed (Option Operand)
  | 0, _ => exhausted
  | turns + 1, depth =>
    operandWith ration scope (group ration (operand scope turns (depth + 1)) (depth + 1))

def expr (scope : SymbolTable) : Rationed Expr := expression ration (operand ration scope ration 0)

def wholeExpr (scope : SymbolTable) : Rationed Statement := do
  let start ← Reader.offset
  let expr ← expr ration scope
  if ← atEnd ration then
    return .expression expr (← Reader.spanSince start)
  else
    Reader.failRest .inputAfterExpression

def assignmentTo (scope : SymbolTable) (start : Nat) (name : String) : Rationed Assignment := do
  if ← accept ration '=' then
    let expr ← expr ration scope
    if ← accept ration ';' then
      return ⟨name, expr, ← Reader.spanSince start⟩
    else
      failHere ration .semicolonExpected
  else
    failHere ration (.equalsExpected name)

def assignment (scope : SymbolTable) : Rationed (Option Assignment) := do
  skipLayout ration
  let start ← Reader.offset
  after (name ration) (assignmentTo ration scope start)

/-- Reads assignments from a cursor on, in so many turns. -/
def programIn : Nat → SymbolTable → Cursor → Option Progress × List Note
  | 0, _, _ => (none, [])
  | turns + 1, symbols, c =>
    match turn .assignments (assignment ration symbols) c with
    | (none, notes) => (none, notes)
    | (some (.error f d), notes) => (some ⟨[], symbols, d, some f⟩, notes)
    | (some (.ok none d), notes) => (some ⟨[], symbols, d, none⟩, notes)
    | (some (.ok (some a) d), notes) =>
      let (later, more) := programIn turns (symbols.bind a) d
      (later.map fun p => { p with statements := a :: p.statements }, notes ++ more)

def program (symbols : SymbolTable) (c : Cursor) : Option Progress × List Note :=
  programIn ration ration symbols c

end Expressions

end Rationed

end Bindcheck
