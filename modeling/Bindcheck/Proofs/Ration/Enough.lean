/-
Bindcheck.Proofs.Ration.Enough — a ration of one turn more than characters
is enough.

Each rationed reader agrees with the reader that it belongs to, if its
loops have as many turns as the bound asks. A group is opened behind its
parenthesis, so fewer characters are left there, and the recursion may
have one turn less; and as long as not too many groups are open, the same
groups may be opened as the readers allow (`agrees_operand`). For a
program the recursion is the same as that of reading
(`gives_programIn`).

`reading_ends` puts this together with what the readers take: however
many turns the loops of a reading have, its turns go on by what they have
to, it has no other result than the reading without a ration, and with
more turns than characters it has this one. So no more statements and
operands are read than the text has room for.
-/
import Bindcheck.Checker
import Bindcheck.Proofs.Ration.Agreement

namespace Bindcheck

open Quoted

namespace Rationed

variable {α β : Type} {source : Text} {bound ration : Nat} {table : SymbolTable}

/-! ## Tokens -/

section Tokens

theorem agrees_characters (hb : bound ≤ ration) (p : Char → Bool) :
    Agrees source bound (repeated .characters (liftM (Reader.next p)) ration)
      (Reader.many (Reader.next p) (Reader.consumes_next p)) :=
  (Agrees.lift (Reader.next p)).repeated .characters (Reader.takes_next p) _ hb

theorem agrees_word (hb : bound ≤ ration) (first following : Char → Bool) :
    Agrees source bound (word ration first following) (Reader.word first following) := by
  apply (Agrees.lift (Reader.next first)).bind
  intro found
  cases found with
  | none => exact .pure none
  | some x => exact (agrees_characters hb following).bind fun letters => .pure (some (x :: letters))

theorem agrees_comment (hb : bound ≤ ration) :
    Agrees source bound (comment ration) Reader.comment := by
  apply (agrees_characters hb isBlank).bind
  intro _
  apply (Agrees.lift (Reader.ahead ['/', '/'])).bind
  intro begins
  cases begins with
  | true => exact (agrees_characters hb Reader.inComment).bind fun _ => .pure (some ())
  | false => exact .pure none

theorem agrees_skipLayout (hb : bound ≤ ration) :
    Agrees source bound (skipLayout ration) Reader.skipLayout := by
  have hloop : Agrees source bound (repeated .comments (comment ration) ration)
      (Reader.many Reader.comment Reader.consumes_comment) :=
    (agrees_comment hb).repeated .comments Reader.takes_comment _ hb
  refine (hloop.bind fun _ => .pure ()).congr ?_
  intro c
  obtain ⟨comments, hread⟩ := Reader.run_many_comment c
  simp only [Reader.run_bind, hread, Outcome.ok_andThen, Reader.run_pure, Reader.run_skipLayout]

theorem agrees_atEnd (hb : bound ≤ ration) :
    Agrees source bound (atEnd ration) Reader.atEnd :=
  ((agrees_skipLayout hb).bind fun _ => .lift Reader.ended).congr fun _ => rfl

theorem agrees_failHere (hb : bound ≤ ration) (cause : Cause) :
    Agrees source bound (failHere ration cause : Rationed α) (Reader.failHere cause) := by
  apply (agrees_skipLayout hb).bind
  intro _
  apply (Agrees.lift Reader.offset).bind
  intro start
  exact .lift (Reader.fail cause (Span.single start))

theorem agrees_token (hb : bound ≤ ration) (t : Token α) :
    Agrees source bound (token ration t) (Reader.token t) :=
  ((agrees_skipLayout hb).bind fun _ => .lift (Reader.front t)).congr fun _ => rfl

theorem agrees_accept (hb : bound ≤ ration) (x : Char) :
    Agrees source bound (accept ration x) (Reader.accept x) :=
  (agrees_token hb (.char x)).bind fun found => .pure found.isSome

theorem agrees_tokenRun (hb : bound ≤ ration) (first following : Char → Bool) :
    Agrees source bound (tokenRun ration first following)
      (Reader.token (Token.run first following)) :=
  ((agrees_skipLayout hb).bind fun _ => agrees_word hb first following).congr
    fun c => Reader.run_word first following c.pastLayout

theorem agrees_name (hb : bound ≤ ration) :
    Agrees source bound (name ration) (Reader.token .name) := by
  refine ((agrees_tokenRun hb _ _).bind fun found => .pure (found.map String.ofList)).congr ?_
  intro c
  simp only [Reader.run_bind, Reader.run_token, Reader.tokenAt, Token.name, Token.map]
  cases (Token.run Token.isNameStart Token.isNamePart).read c.pastLayout.rest <;> rfl

theorem agrees_integer (hb : bound ≤ ration) :
    Agrees source bound (integer ration) Reader.integer := by
  apply (agrees_skipLayout hb).bind
  intro _
  apply (Agrees.lift Reader.offset).bind
  intro start
  apply (agrees_tokenRun hb Char.isDigit Char.isDigit).bind
  intro found
  cases found with
  | none => exact .pure none
  | some digits =>
    simp only
    split
    · exact .pure _
    · exact (Agrees.lift (Reader.spanSince start)).bind fun span => .lift _

theorem agrees_quotedBody (hb : bound ≤ ration) (form : Form) (start : Nat) :
    Agrees source bound (quotedBody ration form start) (Reader.quotedBody form start) := by
  have hletters : Agrees source bound
      (repeated .characters (liftM (Reader.letter form start)) ration)
      (Reader.many (Reader.letter form start) (Reader.consumes_letter form start)) :=
    (Agrees.lift _).repeated .characters (Reader.takes_letter form start) _ hb
  refine (hletters.bind fun text => .pure (String.ofList text)).congr ?_
  intro c
  rw [Reader.run_quotedBody, Reader.quotedBodyAt_eq, ← Reader.run_many_letter]
  rfl

theorem agrees_quoted (hb : bound ≤ ration) :
    Agrees source bound (quoted ration) Reader.quoted := by
  apply (agrees_skipLayout hb).bind
  intro _
  apply (Agrees.lift Reader.offset).bind
  intro start
  apply (agrees_accept hb rawMark).bind
  intro marked
  cases marked with
  | true =>
    apply (agrees_accept hb quote).bind
    intro opened
    cases opened with
    | true => exact (agrees_quotedBody hb .raw start).bind fun text => .pure (some text)
    | false => exact (Agrees.lift (Reader.spanSince start)).bind fun span => .lift _
  | false =>
    apply (agrees_accept hb quote).bind
    intro opened
    cases opened with
    | true => exact (agrees_quotedBody hb .plain start).bind fun text => .pure (some text)
    | false => exact .pure none

theorem agrees_after {t : Rationed (Option α)} {t' : Token α} {next : α → Rationed β}
    {next' : α → Reader β} (h : Agrees source bound t (Reader.token t'))
    (hnext : ∀ a, Agrees source bound (next a) (next' a)) :
    Agrees source bound (after t next) (Reader.after t' next') := by
  apply h.bind
  intro found
  cases found with
  | none => exact .pure none
  | some a => exact (hnext a).bind fun b => .pure (some b)

end Tokens

/-! ## Expressions -/

section Expressions

variable {operand : Rationed (Option Operand)} {operand' : Reader (Option Operand)}

theorem agrees_required (hb : bound ≤ ration) (h : Agrees source bound operand operand')
    (op : Option Operator) :
    Agrees source bound (required ration operand op) (Reader.required operand' op) := by
  apply h.bind
  intro found
  cases found with
  | some x => exact .pure x
  | none => exact agrees_failHere hb _

theorem agrees_link (hb : bound ≤ ration) (h : Agrees source bound operand operand') (ty : Ty) :
    Agrees source bound (link ration operand ty) (Reader.link operand' ty) := by
  apply agrees_after (agrees_token hb .operator)
  intro op
  apply (agrees_required hb h (some op)).bind
  intro x
  split
  · exact .pure (op, x)
  · exact .lift _

theorem agrees_expression (hb : bound ≤ ration) (h : Agrees source bound operand operand')
    (hroom : operand'.Roomy) :
    Agrees source bound (expression ration operand) (Reader.expression operand') := by
  apply (agrees_skipLayout hb).bind
  intro _
  apply (Agrees.lift Reader.offset).bind
  intro start
  apply (agrees_required hb h none).bind
  intro first
  apply ((agrees_link hb h first.ty).repeated .links (hroom.takes_link first.ty) _ hb).bind
  intro links
  exact (Agrees.lift (Reader.spanSince start)).bind fun span => .pure _

/-- Behind its parenthesis a group is entered, if not too many are open. -/
theorem gives_group (hb : bound ≤ ration) (h : Agrees source bound operand operand')
    (hroom : operand'.Roomy) {depth opened : Nat} (hdepth : depth ≤ nestingLimit) {c : Cursor}
    (hc : (Cursor.start source).Reaches c) (hparen : source[opened]? = some '(')
    (hopened : c.offset = opened + 1) :
    Gives source (c.rest.length < bound) (group ration operand depth opened c)
      ((Reader.group operand' opened).run c) := by
  have hinner : Agrees source bound
      (expression ration operand >>= fun inner => accept ration ')' >>= fun closed =>
        if closed then pure (.group inner) else failHere ration (.unclosedGroup opened))
      (Reader.group operand' opened) := by
    apply (agrees_expression hb h hroom).bind
    intro inner
    apply (agrees_accept hb ')').bind
    intro closed
    cases closed with
    | true => exact .pure _
    | false => exact agrees_failHere hb _
  unfold group
  rw [if_neg (Nat.not_lt_of_le hdepth)]
  exact (hinner c hc).enter ⟨hparen, hopened, hdepth⟩

/-- An operand is read as the reader reads it, if a group is from behind its parenthesis on. -/
theorem gives_operandWith (hb : bound ≤ ration) {opened : Nat → Rationed Operand}
    {opened' : Nat → Reader Operand} {c : Cursor} (hc : (Cursor.start source).Reaches c)
    (h : ∀ start d, (Cursor.start source).Reaches d → source[start]? = some '(' →
      d.offset = start + 1 → d.rest.length < c.rest.length →
      Gives source (c.rest.length < bound) (opened start d) ((opened' start).run d)) :
    Gives source (c.rest.length < bound) (operandWith ration table opened c)
      ((Reader.operandWith table opened').run c) := by
  have hskip : (Cursor.start source).Reaches c.pastLayout := hc.trans c.reaches_pastLayout
  have hlength := c.reaches_pastLayout.length_le
  apply (agrees_skipLayout hb c hc).bind
  rintro ⟨⟩ d ⟨⟩
  apply ((Agrees.lift Reader.offset).at_place hskip hlength).bind
  rintro start d ⟨⟩
  apply ((agrees_accept hb '(').at_place hskip hlength).bind
  intro paren d hparen
  cases paren with
  | true =>
    obtain ⟨hnext, hoffset⟩ := Reader.accept_eq_true hparen
    rw [Cursor.pastLayout_pastLayout] at hnext hoffset
    have hreach := Reader.reaches_of_ok hparen
    have hsource : source[c.pastLayout.offset]? = some '(' := by
      rw [← hskip.head?_rest, hnext]
      rfl
    have hshorter : d.rest.length < c.rest.length := by
      rw [hnext, List.length_cons] at hlength
      exact hlength
    exact (h _ d (hskip.trans hreach) hsource hoffset hshorter).bind fun _ _ _ => .once _
  | false =>
    obtain ⟨-, rfl⟩ := Reader.accept_eq_false hparen
    rw [Cursor.pastLayout_pastLayout]
    refine Agrees.at_place ?_ hskip hlength
    apply (agrees_quoted hb).bind
    intro text
    cases text with
    | some text => exact (Agrees.lift (Reader.spanSince _)).bind fun _ => .pure _
    | none =>
      apply (agrees_integer hb).bind
      intro value
      cases value with
      | some value => exact (Agrees.lift (Reader.spanSince _)).bind fun _ => .pure _
      | none =>
        apply (agrees_name hb).bind
        intro name
        cases name with
        | none => exact .pure none
        | some name =>
          apply (Agrees.lift (Reader.spanSince _)).bind
          intro span
          exact (Agrees.lift (Reader.named table name span)).bind fun _ => .pure _

end Expressions

/-- With as many turns as the bound asks operands are read, and so are those in groups, where one
more is open, one turn less is left and one character less at least. -/
theorem agrees_operand (table : SymbolTable) {turns depth : Nat} (hturns : bound ≤ turns)
    (hb : bound ≤ ration) (hdepth : depth ≤ nestingLimit) :
    Agrees source bound (operand ration table turns depth)
      (Reader.operand table (nestingLimit - depth)) := by
  induction turns generalizing bound depth with
  | zero =>
    intro c _
    exact .exhausted (by omega)
  | succ turns ih =>
    intro c hc
    rcases Nat.lt_or_eq_of_le hdepth with hlimit | rfl
    · have hleft : nestingLimit - depth = nestingLimit - (depth + 1) + 1 := by omega
      rw [hleft]
      apply gives_operandWith hb hc
      intro start d hd hparen hopened hshorter
      have hinner : Agrees source (bound - 1) (operand ration table turns (depth + 1))
          (Reader.operand table (nestingLimit - (depth + 1))) :=
        ih (by omega) (by omega) hlimit
      have hgroup := gives_group (Nat.le_trans (Nat.sub_le bound 1) hb) hinner
        (Reader.roomy_operand table _) hlimit hd hparen hopened
      exact hgroup.mono (by omega)
    · rw [Nat.sub_self]
      apply gives_operandWith hb hc
      intro start d _ _ _ _
      unfold group
      rw [if_pos (Nat.lt_succ_self _)]
      exact .once _

theorem agrees_expr (hb : bound ≤ ration) (table : SymbolTable) :
    Agrees source bound (expr ration table) (Reader.expr table) :=
  agrees_expression hb (agrees_operand table hb hb (Nat.zero_le _))
    (Reader.roomy_operand table nestingLimit)

/-! ## Whole texts -/

theorem agrees_wholeExpr (hb : bound ≤ ration) (table : SymbolTable) :
    Agrees source bound (wholeExpr ration table) (Reader.wholeExpr table) := by
  apply (Agrees.lift Reader.offset).bind
  intro start
  apply (agrees_expr hb table).bind
  intro x
  apply (agrees_atEnd hb).bind
  intro ended
  cases ended with
  | true => exact (Agrees.lift (Reader.spanSince start)).bind fun _ => .pure _
  | false => exact .lift (Reader.failRest .inputAfterExpression)

theorem agrees_assignmentTo (hb : bound ≤ ration) (table : SymbolTable) (start : Nat)
    (name : String) :
    Agrees source bound (assignmentTo ration table start name)
      (Reader.assignmentTo table start name) := by
  apply (agrees_accept hb '=').bind
  intro sign
  cases sign with
  | false => exact agrees_failHere hb _
  | true =>
    apply (agrees_expr hb table).bind
    intro x
    apply (agrees_accept hb ';').bind
    intro ended
    cases ended with
    | false => exact agrees_failHere hb _
    | true => exact (Agrees.lift (Reader.spanSince start)).bind fun _ => .pure _

theorem agrees_assignment (hb : bound ≤ ration) (table : SymbolTable) :
    Agrees source bound (assignment ration table) (Reader.assignment table) := by
  apply (agrees_skipLayout hb).bind
  intro _
  apply (Agrees.lift Reader.offset).bind
  intro start
  exact agrees_after (agrees_name hb) (agrees_assignmentTo hb table start)

/-- The assignments are read one after another, over the table that those before have left. -/
theorem gives_programIn {turns : Nat} (hturns : bound ≤ turns) (hb : bound ≤ ration)
    (table : SymbolTable) {c : Cursor} (hc : (Cursor.start source).Reaches c) :
    Gives source (c.rest.length < bound) (programIn ration turns table c)
      (Progress.read table c) := by
  induction turns generalizing bound table c with
  | zero => exact .exhausted (by omega)
  | succ turns ih =>
    have htakes : (Reader.assignment table).Takes Loop.assignments.least :=
      Reader.takes_assignment table
    have hfirst := (agrees_assignment hb table).turn htakes c hc
    rw [Progress.read_eq]
    unfold programIn
    rcases hread : turn .assignments (assignment ration table) c with ⟨_ | _ | _, notes⟩
    · rw [hread] at hfirst
      exact ⟨nofun, hfirst.ends, hfirst.sound⟩
    · rename_i found d
      rw [hread] at hfirst
      have hrun : (Reader.assignment table).run c = .ok found d := hfirst.result_eq
      rw [hrun]
      cases found with
      | none => exact .of_some hfirst.sound
      | some a =>
        have hshorter := Reader.consumes_assignment table hrun
        have hreach := Reader.reaches_of_ok hrun
        have hlater : Gives source (d.rest.length < bound - 1)
            (programIn ration turns (table.bind a) d) (Progress.read (table.bind a) d) :=
          ih (by omega) (by omega) (table.bind a) (hc.trans hreach)
        exact ((hlater.map _).behind hfirst.sound).mono (by omega)
    · rename_i f d
      rw [hread] at hfirst
      have hrun : (Reader.assignment table).run c = .error f d := hfirst.result_eq
      rw [hrun]
      exact .of_some hfirst.sound

/-! ## Checkers -/

/-- Reads the source of a checker as a program, in loops of so many turns. -/
def readProgram (ration : Nat) (checker : Checker) :
    Option (Except Failure Bool × Checker) × List Note :=
  let (found, notes) := program ration checker.code.symbols (Cursor.start checker.source)
  (found.map fun p =>
    (match p.failure with
      | some failure => .error failure
      | none => .ok p.cursor.atEnd,
      ⟨checker.source, p.cursor, p.code⟩), notes)

/-- Reads the source of a checker as one expression, in loops of so many turns. -/
def readExpression (ration : Nat) (checker : Checker) :
    Option (Except Failure Unit × Checker) × List Note :=
  let (found, notes) := wholeExpr ration checker.code.symbols (Cursor.start checker.source)
  (found.map fun
    | .ok statement c => (.ok (), ⟨checker.source, c, ⟨[statement], checker.code.symbols⟩⟩)
    | .error failure c =>
      (.error failure, ⟨checker.source, c, ⟨[], checker.code.symbols⟩⟩), notes)

theorem gives_readProgram (ration : Nat) (checker : Checker) :
    Gives checker.source (checker.source.length < ration) (readProgram ration checker)
      checker.readProgram :=
  (gives_programIn (Nat.le_refl ration) (Nat.le_refl ration) checker.code.symbols (.refl _)).map _

theorem gives_readExpression (ration : Nat) (checker : Checker) :
    Gives checker.source (checker.source.length < ration) (readExpression ration checker)
      checker.readExpression := by
  have hexpr : Agrees checker.source ration (wholeExpr ration checker.code.symbols)
      (Reader.wholeExpr checker.code.symbols) :=
    agrees_wholeExpr (Nat.le_refl ration) checker.code.symbols
  exact (hexpr (Cursor.start checker.source) (.refl _)).map _

end Rationed

namespace Checker

/-- What the statements of a program take leaves room for no more of them, and of operands. -/
theorem extent_readProgram (checker : Checker) :
    2 * checker.readProgram.2.code.operandCount
      + 2 * checker.readProgram.2.code.statements.length ≤ checker.source.length := by
  have hextent := Progress.extent_read checker.code.symbols (Cursor.start checker.source)
  have hend := (Progress.reaches_read checker.code.symbols
    (Cursor.start checker.source)).offset_add_length
  simp only [readProgram, Progress.code, List.length_map] at hextent ⊢
  omega

theorem extent_readExpression (checker : Checker) :
    2 * checker.readExpression.2.code.operandCount ≤ checker.source.length + 1 := by
  unfold readExpression
  split
  · rename_i statement d hread
    have hextent := Reader.extent_wholeExpr hread
    have hend := (Reader.reaches_of_ok hread).offset_add_length
    simp only [Code.operandCount, List.foldr_cons, List.foldr_nil]
    omega
  · exact Nat.zero_le _

end Checker

/-- Reading ends, whatever the source is and whatever the table binds: with more turns for each
loop than there are characters no loop runs out of them, and however many there are, nothing else
is read than without a ration. Every turn takes what it has to, every group is entered behind its
parenthesis and within the limit, and there are no more statements and operands than fit. -/
theorem reading_ends (checker : Checker) :
    Reader.comment.Takes 2 ∧
    (∀ table : SymbolTable, (Reader.assignment table).Takes 4 ∧
      ∀ depth ty, (Reader.link (Reader.operand table depth) ty).Takes 2) ∧
    (∀ ration,
      Rationed.Gives checker.source (checker.source.length < ration)
        (Rationed.readProgram ration checker) checker.readProgram ∧
      Rationed.Gives checker.source (checker.source.length < ration)
        (Rationed.readExpression ration checker) checker.readExpression) ∧
    checker.readProgram.2.code.statements.length ≤ checker.source.length / 4 ∧
    checker.readProgram.2.code.operandCount ≤ (checker.source.length + 1) / 2 ∧
    checker.readExpression.2.code.operandCount ≤ (checker.source.length + 1) / 2 := by
  have hprogram := checker.extent_readProgram
  have hexpression := checker.extent_readExpression
  have hcount := checker.readProgram.2.code.length_le_operandCount
  refine ⟨Reader.takes_comment, ?_, ?_, by omega, by omega, by omega⟩
  · intro table
    exact ⟨Reader.takes_assignment table,
      fun depth => (Reader.roomy_operand table depth).takes_link⟩
  · intro ration
    exact ⟨Rationed.gives_readProgram ration checker,
      Rationed.gives_readExpression ration checker⟩

/-- Eighteen turns are enough for seventeen characters, and three are not for the comment, which
has three. It opens a parenthesis behind the group, but that one is not entered. -/
theorem reading_ends_behind_comment :
    let checker := Checker.ofSource "a=(1)//(\n;b=a+a;".toList
    let reading := Rationed.readProgram 18 checker
    reading.1 = some checker.readProgram ∧ (Rationed.readProgram 3 checker).1.isNone = true ∧
      (∀ note ∈ [.group 2 3 1, .turn .comments 5 8, .turn .links 13 15,
          .turn .assignments 0 10],
        note ∈ reading.2 ∧ note.Sound checker.source) ∧
      checker.readProgram.2.code.statements.length = 2 ∧ 2 ≤ checker.source.length / 4 ∧
      checker.readProgram.2.code.operandCount = 4 ∧ 4 ≤ (checker.source.length + 1) / 2 := by
  intro checker reading
  obtain ⟨-, -, hrationed, hstatements, hoperands, -⟩ := reading_ends checker
  have hstatementCount : checker.readProgram.2.code.statements.length = 2 := by decide +kernel
  have hoperandCount : checker.readProgram.2.code.operandCount = 4 := by decide +kernel
  have hgives := (hrationed 18).1
  refine ⟨hgives.eq_some (by decide), by decide +kernel, ?_, hstatementCount,
    hstatementCount ▸ hstatements, hoperandCount, hoperandCount ▸ hoperands⟩
  intro note hnote
  have hmem : note ∈ reading.2 := by
    revert note
    decide +kernel
  exact ⟨hmem, hgives.sound note hmem⟩

end Bindcheck
