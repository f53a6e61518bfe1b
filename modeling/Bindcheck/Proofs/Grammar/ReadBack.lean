/-
Bindcheck.Proofs.Grammar.ReadBack — the readers read every tree back.

Put the text of a tree in front of any text that does not continue it,
and the reader of its kind gives the code of the tree and rests behind
it: `OperandTree.run_operand`, `ExprTree.run_expression`,
`ChainTree.run_many`, `AssignmentTree.run_assignment` and, for a list of
assignments, `read_append`.

The side condition on the text behind is the grammar's, not the proof's.
An operand has to end where the text behind it begins (`Boundary`). An
expression goes on as long as operators come, so behind it there must be
none, also past the layout (`Stops`). An assignment ends with its own
last character, so nothing is asked there.
-/
import Bindcheck.Proofs.Grammar.Lookahead
import Bindcheck.Proofs.Grammar.Scope

namespace Bindcheck

namespace Grammar

/-- No operator comes next, past the layout, and no part of a name before it. -/
structure Stops (rest : Text) : Prop where
  boundary : Boundary rest
  noOperator : Token.operator.read (rest.drop (layoutLength rest)) = none

/-- The characters behind an expression inside a program. -/
def Closes (c : Char) : Prop := c = ')' ∨ c = ';'

theorem Closes.bare {c : Char} (h : Closes c) (rest : Text) : Bare (c :: rest) := by
  rcases h with rfl | rfl <;> exact bare_cons (by decide) (by decide)

/-- A parenthesis or a semicolon behind some layout stops an expression. -/
theorem Closes.stops {b : Text} {c : Char} (hc : Closes c) (h : Layout b) (rest : Text) :
    Stops (b ++ c :: rest) := by
  refine ⟨h.boundary (boundary_cons (by rcases hc with rfl | rfl <;> decide)), ?_⟩
  rw [h.layoutLength_of_bare (hc.bare rest), List.drop_left]
  rcases hc with rfl | rfl <;> rfl

/-- The end of the text behind some layout stops an expression. -/
theorem FinalLayout.stops {b : Text} (h : FinalLayout b) : Stops b := by
  refine ⟨?_, ?_⟩
  · cases h with
    | closed hb => simpa using hb.boundary boundary_nil
    | comment hb _ => exact hb.boundary (boundary_cons (by decide))
  · rw [h.layoutLength_eq, List.drop_length]
    rfl

end Grammar

namespace Reader

open Grammar Quoted

variable {α β : Type} {c d : Cursor} {o : Nat} {rest : Text} {table : SymbolTable}

/-! ## Sequences -/

/-- Without the token nothing after it is read. -/
theorem run_after_none {t : Token α} {next : α → Reader β}
    (h : (token t).run c = .ok none d) : (after t next).run c = .ok none d := by
  simp only [after, run_bind, h, Outcome.ok_andThen, run_pure]

/-- Behind the token the reader goes on. -/
theorem run_after_some {t : Token α} {next : α → Reader β} {a : α}
    (h : (token t).run c = .ok (some a) d) :
    (after t next).run c = ((next a).run d).andThen fun b e => .ok (some b) e := by
  simp only [after, run_bind, h, Outcome.ok_andThen, run_pure]

theorem run_required {operand : Reader (Option Operand)} {x : Operand} (op : Option Operator)
    (h : operand.run c = .ok (some x) d) : (required operand op).run c = .ok x d := by
  simp only [required, run_bind, h, Outcome.ok_andThen, run_pure]

/-! ## Single operands -/

variable {opened : Nat → Reader Operand}

theorem run_operandWith_pastLayout (c : Cursor) :
    (operandWith table opened).run c.pastLayout = (operandWith table opened).run c := by
  simp [operandWith]

/-- An operand that begins with a parenthesis is a group. -/
theorem run_operandWith_group (h : c.pastLayout = ⟨o, '(' :: rest⟩) :
    (operandWith table opened).run c
      = ((opened o).run ⟨o + 1, rest⟩).andThen fun x e => .ok (some x) e := by
  have hpast : c.pastLayout.pastLayout = ⟨o, '(' :: rest⟩ := by
    rw [Cursor.pastLayout_pastLayout, h]
  have ho : c.pastLayout.offset = o := by rw [h]
  simp [operandWith, run_accept_cons hpast, ho]

theorem run_accept_pastLayout {ch : Char} (h : c.pastLayout.rest.head? ≠ some ch) :
    (accept ch).run c.pastLayout = .ok false c.pastLayout := by
  rw [run_accept_of_ne (by rwa [Cursor.pastLayout_pastLayout]), Cursor.pastLayout_pastLayout]

theorem run_operandWith_string {literal v : Text} (h : c.pastLayout = ⟨o, literal ++ rest⟩)
    (hl : StringLiteral literal v) :
    (operandWith table opened).run c
      = .ok (some (.literal (.str (String.ofList v)) ⟨o, o + literal.length⟩))
          ⟨o + literal.length, rest⟩ := by
  have hpast : c.pastLayout.pastLayout = ⟨o, literal ++ rest⟩ := by
    rw [Cursor.pastLayout_pastLayout, h]
  have ho : c.pastLayout.offset = o := by rw [h]
  have hparen : (accept '(').run c.pastLayout = .ok false c.pastLayout := by
    refine run_accept_pastLayout ?_
    obtain ⟨x, t, rfl, hx⟩ := hl.head
    rw [h]
    rcases hx with rfl | rfl <;> simp [quote, rawMark]
  simp [operandWith, hparen, run_quoted hpast hl, ho, Cursor.spanSince]

/-- What begins as a name or a numeral does is neither a group nor a string. -/
theorem run_of_isNamePart {x : Char} (h : c.pastLayout.rest.head? = some x)
    (hx : Token.isNamePart x = true) :
    (accept '(').run c.pastLayout = .ok false c.pastLayout ∧
      quoted.run c.pastLayout = .ok none c.pastLayout := by
  have hne : ∀ ch : Char, Token.isNamePart ch = false → c.pastLayout.rest.head? ≠ some ch := by
    intro ch hch heq
    obtain rfl := Option.some.inj (h.symm.trans heq)
    rw [hx] at hch
    cases hch
  refine ⟨run_accept_pastLayout (hne '(' (by decide)), ?_⟩
  rw [run_quoted_none, Cursor.pastLayout_pastLayout]
  · rw [Cursor.pastLayout_pastLayout]
    exact hne _ (by decide)
  · rw [Cursor.pastLayout_pastLayout]
    exact hne _ (by decide)

theorem run_operandWith_integer {digits : Text} (h : c.pastLayout = ⟨o, digits ++ rest⟩)
    (hd : IsNumeral digits) (hv : Numeral.value digits ≤ Numeral.maxInteger)
    (hr : Boundary rest) :
    (operandWith table opened).run c
      = .ok (some (.literal (.int (integerValue digits)) ⟨o, o + digits.length⟩))
          ⟨o + digits.length, rest⟩ := by
  have hpast : c.pastLayout.pastLayout = ⟨o, digits ++ rest⟩ := by
    rw [Cursor.pastLayout_pastLayout, h]
  have ho : c.pastLayout.offset = o := by rw [h]
  obtain ⟨hparen, hquoted⟩ : (accept '(').run c.pastLayout = .ok false c.pastLayout ∧
      quoted.run c.pastLayout = .ok none c.pastLayout := by
    obtain ⟨x, t, rfl, hx, -⟩ := hd
    exact run_of_isNamePart (by rw [h]; rfl) (isNamePart_of_isDigit hx)
  simp [operandWith, hparen, hquoted, run_integer hpast hd hv hr, ho, Cursor.spanSince]

theorem run_operandWith_name {letters : Text} {ty : Ty}
    (h : c.pastLayout = ⟨o, letters ++ rest⟩) (hl : IsName letters) (hr : Boundary rest)
    (ht : table.scope (String.ofList letters) = some ty) :
    (operandWith table opened).run c
      = .ok (some (.var (String.ofList letters) ty ⟨o, o + letters.length⟩))
          ⟨o + letters.length, rest⟩ := by
  have hpast : c.pastLayout.pastLayout = ⟨o, letters ++ rest⟩ := by
    rw [Cursor.pastLayout_pastLayout, h]
  have ho : c.pastLayout.offset = o := by rw [h]
  obtain ⟨x, hhead, hx⟩ :
      ∃ x, c.pastLayout.rest.head? = some x ∧ Token.isNameStart x = true := by
    obtain ⟨x, t, rfl, hx, -⟩ := hl
    exact ⟨x, by rw [h]; rfl, hx⟩
  obtain ⟨hparen, hquoted⟩ := run_of_isNamePart hhead (isNamePart_of_isNameStart hx)
  have hinteger : integer.run c.pastLayout = .ok none c.pastLayout := by
    rw [run_integer_none, Cursor.pastLayout_pastLayout]
    rw [Cursor.pastLayout_pastLayout]
    intro y hy
    obtain rfl := Option.some.inj (hhead.symm.trans hy)
    refine Bool.eq_false_iff.mpr ?_
    intro hd
    rw [isNameStart_of_isDigit hd] at hx
    cases hx
  obtain ⟨entry, hentry, rfl⟩ := Option.map_eq_some_iff.mp ht
  simp [operandWith, hparen, hquoted, hinteger, run_name hpast hl hr, ho, Cursor.spanSince,
    named, hentry, -run_token]

/-! ## Operands, expressions and chains -/

/-- However many groups may be open, an operand is looked for in the same way. -/
theorem operand_eq (table : SymbolTable) (depth : Nat) :
    ∃ opened, operand table depth = operandWith table opened := by
  cases depth with
  | zero => exact ⟨_, rfl⟩
  | succ depth => exact ⟨_, rfl⟩

theorem run_operand_append {b : Text} (h : Layout b) (depth : Nat) :
    (operand table depth).run ⟨o, b ++ rest⟩ = (operand table depth).run ⟨o + b.length, rest⟩ := by
  obtain ⟨opened, hopened⟩ := operand_eq table depth
  rw [hopened, ← run_operandWith_pastLayout, Cursor.pastLayout_append h,
    run_operandWith_pastLayout]

theorem run_link {operand : Reader (Option Operand)} {op : Operator} {x : Operand} {e : Cursor}
    (hop : (token .operator).run c = .ok (some op) d) (hx : operand.run d = .ok (some x) e) :
    (link operand x.ty).run c = .ok (some (op, x)) e := by
  unfold link
  rw [run_after_some hop]
  simp [run_required (some op) hx]

theorem run_expression {operand : Reader (Option Operand)} {first : Operand}
    {links : List (Operator × Operand)} {e : Cursor}
    (hf : operand.run c.pastLayout = .ok (some first) d)
    (hl : (many (link operand first.ty) (consumes_link operand first.ty)).run d
      = .ok links e) :
    (expression operand).run c
      = .ok (.mk first (.ofList links) (e.spanSince c.pastLayout.offset)) e := by
  simp [expression, run_required none hf, hl]

end Reader

open Reader

namespace Grammar

variable {table : SymbolTable}

mutual

/-- The text of an operand is read back if the operand ends where the text behind it begins. -/
theorem OperandTree.run_operand (t : OperandTree) {depth : Nat} {ty : Ty} {rest : Text}
    (hw : t.Written) (hn : t.nesting ≤ depth) (ht : t.HasType table.scope ty)
    (hr : Boundary rest) (o : Nat) :
    (operand table depth).run ⟨o, t.text ++ rest⟩
      = .ok (some (t.elaborate table.scope o)) ⟨o + t.text.length, rest⟩ := by
  have hpast : (⟨o, t.text ++ rest⟩ : Cursor).pastLayout = ⟨o, t.text ++ rest⟩ :=
    Cursor.pastLayout_of_bare (OperandTree.bare hw rest)
  match t with
  | .string literal contents =>
    obtain ⟨opened, hopened⟩ := operand_eq table depth
    rw [hopened, run_operandWith_string hpast hw]
    rfl
  | .integer digits =>
    obtain ⟨opened, hopened⟩ := operand_eq table depth
    rw [hopened, run_operandWith_integer hpast hw.1 hw.2 hr]
    rfl
  | .name letters =>
    obtain ⟨opened, hopened⟩ := operand_eq table depth
    have hty : table.scope (String.ofList letters) = some ty := ht
    rw [hopened, run_operandWith_name hpast hw hr hty]
    simp only [OperandTree.elaborate, hty, Option.getD_some, OperandTree.text]
  | .group opening inner closing =>
    obtain ⟨hopening, hinner, hclosing⟩ := hw
    obtain ⟨depth, rfl⟩ : ∃ k, depth = k + 1 := ⟨depth - 1, by
      simp only [OperandTree.nesting] at hn
      omega⟩
    have hstart : (⟨o, (OperandTree.group opening inner closing).text ++ rest⟩ : Cursor).pastLayout
        = ⟨o, '(' :: (opening ++ (inner.text ++ (closing ++ ')' :: rest)))⟩ := by
      rw [hpast]
      simp [OperandTree.text]
    have hinto : inner.nesting ≤ depth := Nat.le_of_succ_le_succ hn
    have hparen : Closes ')' := .inl rfl
    have hread := ExprTree.run_expression inner hinner hinto ht hopening
      (hparen.stops hclosing rest) (o + 1)
    rw [Cursor.pastLayout_append_of_bare hclosing (hparen.bare rest),
      hclosing.layoutLength_of_bare (hparen.bare rest)] at hread
    rw [operand, run_operandWith_group hstart, group]
    simp only [run_bind, hread, Outcome.ok_andThen,
      run_accept_cons (Cursor.pastLayout_of_bare (hparen.bare rest)), if_true, run_pure]
    simp only [OperandTree.elaborate, OperandTree.text, List.length_cons, List.length_append,
      List.length_nil, Outcome.ok.injEq, Cursor.mk.injEq, true_and, and_true]
    omega

/-- The text of an expression is read back if no operator follows. -/
theorem ExprTree.run_expression (t : ExprTree) {depth : Nat} {ty : Ty} {b rest : Text}
    (hw : t.Written) (hn : t.nesting ≤ depth) (ht : t.HasType table.scope ty) (hb : Layout b)
    (hr : Stops rest) (o : Nat) :
    (expression (operand table depth)).run ⟨o, b ++ (t.text ++ rest)⟩
      = .ok (t.elaborate table.scope (o + b.length) (layoutLength rest))
          (⟨o + b.length + t.text.length, rest⟩ : Cursor).pastLayout := by
  match t with
  | .mk first links =>
    obtain ⟨hfirst, hlinks⟩ := hw
    have hnest : first.nesting ≤ depth ∧ links.nesting ≤ depth := Nat.max_le.mp hn
    have hpast : (⟨o, b ++ ((ExprTree.mk first links).text ++ rest)⟩ : Cursor).pastLayout
        = ⟨o + b.length, first.text ++ (links.text ++ rest)⟩ := by
      rw [ExprTree.text, List.append_assoc]
      exact Cursor.pastLayout_append_of_bare hb (OperandTree.bare hfirst _) o
    have hop := OperandTree.run_operand first hfirst hnest.1 ht.1
      (ChainTree.boundary hlinks hr.boundary) (o + b.length)
    have hty : (first.elaborate table.scope (o + b.length)).ty = ty :=
      OperandTree.ty_elaborate first ht.1 _
    have hmany := ChainTree.run_many links hlinks hnest.2 ht.2 hr
      (o + b.length + first.text.length)
    rw [← hpast] at hop
    rw [← hty] at hmany
    rw [Reader.run_expression hop hmany, Chain.ofList_toList, hpast]
    simp only [ExprTree.elaborate, ExprTree.text, Cursor.pastLayout, Cursor.spanSince,
      Cursor.offset_advance, List.length_append, Nat.add_assoc]
    congr
    omega

/-- The text of a chain is read back if no operator follows. -/
theorem ChainTree.run_many (t : ChainTree) {depth : Nat} {ty : Ty} {rest : Text}
    (hw : t.Written) (hn : t.nesting ≤ depth) (ht : t.HasType table.scope ty) (hr : Stops rest)
    (o : Nat) :
    (many (link (operand table depth) ty) (consumes_link (operand table depth) ty)).run
        ⟨o, t.text ++ rest⟩
      = .ok (t.elaborate table.scope o).toList
          (⟨o + t.text.length, rest⟩ : Cursor).pastLayout := by
  match t with
  | .nil =>
    have hop : (token .operator).run ⟨o, rest⟩ = .ok none (⟨o, rest⟩ : Cursor).pastLayout :=
      tokenAt_eq_none.mpr ⟨hr.noOperator, rfl⟩
    have hlink : (link (operand table depth) ty).run ⟨o, rest⟩
        = .ok none (⟨o, rest⟩ : Cursor).pastLayout := run_after_none hop
    rw [Reader.run_many, ChainTree.text, List.nil_append, hlink]
    rfl
  | .cons before op after next links =>
    have hsymbol := ChainTree.bare hw (links.text ++ rest)
    obtain ⟨hbefore, hmem, -, hafter, hnext, hlinks⟩ := hw
    have hnest : next.nesting ≤ depth ∧ links.nesting ≤ depth := Nat.max_le.mp hn
    have hpast : (⟨o, (ChainTree.cons before op after next links).text ++ rest⟩ :
          Cursor).pastLayout
        = ⟨o + before.length,
            op.symbol.toList ++ (after ++ (next.text ++ (links.text ++ rest)))⟩ := by
      simp only [ChainTree.text, List.append_assoc]
      exact Cursor.pastLayout_append_of_bare hbefore hsymbol o
    have hop := run_operator hpast hmem (OperandTree.not_extendsOperator hnext hafter _)
    have hread := OperandTree.run_operand next hnext hnest.1 ht.1
      (ChainTree.boundary hlinks hr.boundary)
      (o + before.length + op.symbol.toList.length + after.length)
    rw [← run_operand_append hafter] at hread
    have hty := OperandTree.ty_elaborate next ht.1
      (o + before.length + op.symbol.toList.length + after.length)
    have hlink := run_link hop hread
    have hmany := ChainTree.run_many links hlinks hnest.2 ht.2 hr
      (o + before.length + op.symbol.toList.length + after.length + next.text.length)
    rw [hty] at hlink
    rw [Reader.run_many, hlink]
    simp only [Outcome.ok_andThen, hmany, ChainTree.elaborate, Chain.toList]
    simp only [ChainTree.text, List.length_append, Nat.add_assoc]

end

/-- An expression that stands alone is read back, with the layout behind it. -/
theorem ExprTree.run_wholeExpr {t : ExprTree} {ty : Ty} {trailing : Text} (hw : t.Written)
    (hn : t.nesting ≤ nestingLimit) (ht : t.HasType table.scope ty) (hb : FinalLayout trailing) :
    (wholeExpr table).run (Cursor.start (t.text ++ trailing))
      = .ok (.expression (t.elaborate table.scope 0 trailing.length)
          ⟨0, (t.text ++ trailing).length⟩) ⟨(t.text ++ trailing).length, []⟩ := by
  have hread := ExprTree.run_expression t hw hn ht .nil hb.stops 0
  rw [Cursor.pastLayout_of_final hb, hb.layoutLength_eq] at hread
  simp only [List.nil_append, List.length_nil, Nat.add_zero, Nat.zero_add] at hread
  have hend : (⟨t.text.length + trailing.length, []⟩ : Cursor).pastLayout
      = ⟨t.text.length + trailing.length, []⟩ := Cursor.pastLayout_of_bare bare_nil
  simp [wholeExpr, expr, Cursor.start, hread, hend, Cursor.spanSince]

/-! ## Assignments -/

namespace AssignmentTree

variable {t : AssignmentTree} {ty : Ty}

/-- What follows the name of an assignment is read back, whatever follows it. -/
theorem run_assignmentTo (hw : t.Written) (ht : t.expr.HasType table.scope ty)
    (name : String) (start p : Nat) (hp : start ≤ p) (rest : Text) :
    (assignmentTo table start name).run ⟨p, t.tail ++ rest⟩
      = .ok ⟨name,
          t.expr.elaborate table.scope (p + t.beforeSign.length + 1 + t.afterSign.length)
            t.beforeEnd.length,
          ⟨start, p + t.tail.length⟩⟩ ⟨p + t.tail.length, rest⟩ := by
  have hsemicolon : Closes ';' := .inr rfl
  have hsign : Bare ('=' :: (t.afterSign ++ (t.expr.text ++ (t.beforeEnd ++ ';' :: rest)))) :=
    bare_cons (by decide) (by decide)
  have hequals := run_accept_cons (Cursor.pastLayout_append_of_bare hw.beforeSign hsign p)
  have hexpr := ExprTree.run_expression t.expr hw.expr hw.nesting ht hw.afterSign
    (hsemicolon.stops hw.beforeEnd rest) (p + t.beforeSign.length + 1)
  rw [Cursor.pastLayout_append_of_bare hw.beforeEnd (hsemicolon.bare rest),
    hw.beforeEnd.layoutLength_of_bare (hsemicolon.bare rest)] at hexpr
  have htext : t.tail ++ rest
      = t.beforeSign ++ '=' :: (t.afterSign ++ (t.expr.text ++ (t.beforeEnd ++ ';' :: rest))) := by
    simp [tail]
  have hlength : p + t.tail.length = p + t.beforeSign.length + 1 + t.afterSign.length
      + t.expr.text.length + t.beforeEnd.length + 1 := by
    simp only [tail, List.length_append, List.length_cons, List.length_nil]
    omega
  rw [htext, hlength]
  simp only [assignmentTo, Reader.expr, run_bind, hequals, Outcome.ok_andThen, if_true, hexpr,
    run_accept_cons (Cursor.pastLayout_of_bare (hsemicolon.bare rest)), run_spanSince, run_pure]
  simp only [Cursor.spanSince, Outcome.ok.injEq, Assignment.mk.injEq, Span.mk.injEq, true_and,
    and_true]
  omega

/-- The text of an assignment is read back, whatever follows. -/
theorem run_assignment (hw : t.Written) (ht : t.expr.HasType table.scope ty) (o : Nat)
    (rest : Text) :
    (assignment table).run ⟨o, t.text ++ rest⟩
      = .ok (some (t.elaborate table.scope o)) ⟨o + t.text.length, rest⟩ := by
  have hpast : (⟨o, t.text ++ rest⟩ : Cursor).pastLayout
      = ⟨o + t.before.length, t.name ++ (t.tail ++ rest)⟩ := by
    have htext : t.text ++ rest = t.before ++ (t.name ++ (t.tail ++ rest)) := by
      simp [text]
    rw [htext]
    exact Cursor.pastLayout_append_of_bare hw.before (hw.name.bare _) o
  have hname := run_name (c := (⟨o, t.text ++ rest⟩ : Cursor).pastLayout)
    (by rw [Cursor.pastLayout_pastLayout, hpast]) hw.name
    (boundary_tail hw rest)
  have hrest := run_assignmentTo hw ht t.target (o + t.before.length)
    (o + t.before.length + t.name.length) (Nat.le_add_right _ _) rest
  have ho : (⟨o, t.text ++ rest⟩ : Cursor).pastLayout.offset = o + t.before.length := by
    rw [hpast]
  simp only [assignment, run_bind, run_skipLayout, Outcome.ok_andThen, run_offset]
  rw [run_after_some hname, ho, ← target, hrest]
  simp only [Outcome.ok_andThen, elaborate, exprStart, text, List.length_append, Nat.add_assoc]

end AssignmentTree

end Grammar

/-! ## Programs -/

open Grammar

variable {table : SymbolTable}

theorem Reader.run_assignment_none {c : Cursor} (h : c.pastLayout.rest = []) :
    (assignment table).run c = .ok none c.pastLayout := by
  have hname : (token .name).run c.pastLayout = .ok none c.pastLayout := by
    refine tokenAt_eq_none.mpr ⟨?_, by rw [Cursor.pastLayout_pastLayout]⟩
    rw [Cursor.pastLayout_pastLayout, h]
    rfl
  simp only [assignment, run_bind, run_skipLayout, Outcome.ok_andThen, run_offset]
  exact run_after_none hname

namespace Progress

theorem read_pastLayout (table : SymbolTable) (c : Cursor) :
    read table c.pastLayout = read table c := by
  have h : (Reader.assignment table).run c.pastLayout = (Reader.assignment table).run c := by
    simp [Reader.assignment]
  rw [read_eq, h, ← read_eq]

/-- Reading a program ends where only layout is left. -/
theorem read_of_pastLayout {c : Cursor} (h : c.pastLayout.rest = []) :
    read table c = ⟨[], table, c.pastLayout, none⟩ := by
  rw [read_eq, Reader.run_assignment_none h]

/-- The text of some assignments is read back, and then the program behind it. -/
theorem read_append {trees : List AssignmentTree} (hw : ∀ t ∈ trees, t.Written)
    (ht : WellTyped table.scope trees) (o : Nat) (rest : Text) :
    read table ⟨o, trees.flatMap AssignmentTree.text ++ rest⟩
      = let found := elaborateAll table.scope o trees
        let later := read (table.bindAll found)
          ⟨o + (trees.flatMap AssignmentTree.text).length, rest⟩
        { later with statements := found ++ later.statements } := by
  induction trees generalizing table o with
  | nil => rfl
  | cons t trees ih =>
    obtain ⟨ty, htype, hlater⟩ := ht
    have hread := AssignmentTree.run_assignment (hw t List.mem_cons_self) htype o
      (trees.flatMap AssignmentTree.text ++ rest)
    rw [← SymbolTable.scope_bind_elaborate htype o] at hlater
    have hrest := ih (fun u hu => hw u (List.mem_cons_of_mem t hu)) hlater (o + t.text.length)
    rw [read_eq, List.flatMap_cons, List.append_assoc, hread]
    simp only [hrest, elaborateAll, SymbolTable.bindAll, List.foldl_cons,
      SymbolTable.scope_bind, List.length_append, Nat.add_assoc, List.cons_append]

end Progress

namespace Grammar

/-- A source with a derivation is a program, and its code is what the derivation stands for. -/
theorem Derivation.ofProgram_eq {source : Text} (d : Derivation source) :
    Code.ofProgram source
      = .ok ⟨d.statements,
          SymbolTable.empty.bindAll (elaborateAll (fun _ => none) 0 d.assignments)⟩ := by
  have htyped : WellTyped SymbolTable.empty.scope d.assignments := by
    rw [SymbolTable.scope_empty]
    exact d.typed
  have hend : ∀ o, (⟨o, d.trailing⟩ : Cursor).pastLayout.rest = [] := by
    intro o
    rw [Cursor.pastLayout_of_final d.trailing_layout]
  have hread := Progress.read_append d.written htyped 0 d.trailing
  simp only [d.text_eq, SymbolTable.scope_empty, Progress.read_of_pastLayout (hend _),
    List.append_nil] at hread
  simp [Code.ofProgram, Cursor.start, hread, Progress.code, Derivation.statements, Cursor.atEnd,
    hend]

end Grammar

end Bindcheck
