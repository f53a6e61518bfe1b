/-
Bindcheck.Proofs.Grammar.Derivation — the grammar of programs, without any
reader.

  program    := B (assignment B)*
  assignment := name B '=' B expr B ';'
  expr       := operand (B op B operand)*
  operand    := '(' B expr B ')' | string | digits | name

A derivation is a tree that holds every piece of the text, the layout
`B` between the tokens included, so `text` writes the source out again.
What a tree has to satisfy is said in three parts:

* `Written` — every piece is spelled as its place demands.
* `nesting` — how many groups are open at the deepest place.
* `HasType` — every name has a type in the scope, and all operands of an
  expression have the type of the first.

`elaborate` is the code that a tree stands for, with the spans that follow
from the lengths of the pieces. A `Derivation` of a source is a list of
assignments, each typed over the names that those before it assign.

The layout that follows an assignment is kept with the next one, and the
layout behind the last with the derivation: the same texts, cut at the
places where only the last piece may be an unclosed comment.
-/
import Bindcheck.Proofs.Grammar.Lexeme
import Bindcheck.Syntax.Source

namespace Bindcheck

namespace Grammar

/-! ## Trees -/

mutual

/-- A derivation of an operand. -/
inductive OperandTree where
  | group (opening : Text) (inner : ExprTree) (closing : Text)
  | string (literal contents : Text)
  | integer (digits : Text)
  | name (letters : Text)

/-- A derivation of an expression. -/
inductive ExprTree where
  | mk (first : OperandTree) (links : ChainTree)

/-- A derivation of the operators and operands behind the first operand. -/
inductive ChainTree where
  | nil
  | cons (before : Text) (op : Operator) (after : Text) (operand : OperandTree)
    (links : ChainTree)

end

mutual

/-- The text of an operand. -/
def OperandTree.text : OperandTree → Text
  | .group opening inner closing => '(' :: (opening ++ (inner.text ++ (closing ++ [')'])))
  | .string literal _ => literal
  | .integer digits => digits
  | .name letters => letters

/-- The text of an expression, without the layout behind it. -/
def ExprTree.text : ExprTree → Text
  | .mk first links => first.text ++ links.text

def ChainTree.text : ChainTree → Text
  | .nil => []
  | .cons before op after operand links =>
    before ++ (op.symbol.toList ++ (after ++ (operand.text ++ links.text)))

end

/-! ## What a tree has to satisfy -/

mutual

/-- Every piece of an operand is spelled as its place demands. -/
def OperandTree.Written : OperandTree → Prop
  | .group opening inner closing => Layout opening ∧ inner.Written ∧ Layout closing
  | .string literal contents => StringLiteral literal contents
  | .integer digits => IsNumeral digits ∧ Numeral.value digits ≤ Numeral.maxInteger
  | .name letters => IsName letters

def ExprTree.Written : ExprTree → Prop
  | .mk first links => first.Written ∧ links.Written

/-- Every piece of a chain is spelled as its place demands; two slashes would be a comment. -/
def ChainTree.Written : ChainTree → Prop
  | .nil => True
  | .cons before op after operand links =>
    Layout before ∧ op ∈ Operator.binary ∧
      (op = .divide → (after ++ operand.text).head? ≠ some '/') ∧ Layout after ∧
      operand.Written ∧ links.Written

end

mutual

/-- How many groups are open at the deepest place of an operand. -/
def OperandTree.nesting : OperandTree → Nat
  | .group _ inner _ => inner.nesting + 1
  | .string _ _ => 0
  | .integer _ => 0
  | .name _ => 0

def ExprTree.nesting : ExprTree → Nat
  | .mk first links => max first.nesting links.nesting

def ChainTree.nesting : ChainTree → Nat
  | .nil => 0
  | .cons _ _ _ operand links => max operand.nesting links.nesting

end

/-- The types of the names that are assigned. -/
abbrev Scope := String → Option Ty

/-- The scope after an assignment: a name that has a type keeps it. -/
def Scope.bind (scope : Scope) (name : String) (ty : Ty) : Scope :=
  fun x => (scope x).or (if x = name then some ty else none)

mutual

/-- The operand has a type in a scope. -/
def OperandTree.HasType (scope : Scope) : OperandTree → Ty → Prop
  | .group _ inner _, ty => inner.HasType scope ty
  | .string _ _, ty => ty = .str
  | .integer _, ty => ty = .int
  | .name letters, ty => scope (String.ofList letters) = some ty

/-- The expression has a type in a scope: all of its operands have it. -/
def ExprTree.HasType (scope : Scope) : ExprTree → Ty → Prop
  | .mk first links, ty => first.HasType scope ty ∧ links.HasType scope ty

def ChainTree.HasType (scope : Scope) : ChainTree → Ty → Prop
  | .nil, _ => True
  | .cons _ _ _ operand links, ty => operand.HasType scope ty ∧ links.HasType scope ty

end

/-! ## The code of a tree -/

mutual

/-- The operand that a tree stands for, its text beginning at an offset. -/
def OperandTree.elaborate (scope : Scope) (start : Nat) : OperandTree → Operand
  | .group opening inner closing =>
    .group (inner.elaborate scope (start + 1 + opening.length) closing.length)
  | .string literal contents =>
    .literal (.str (String.ofList contents)) ⟨start, start + literal.length⟩
  | .integer digits =>
    .literal (.int (integerValue digits)) ⟨start, start + digits.length⟩
  | .name letters =>
    .var (String.ofList letters) ((scope (String.ofList letters)).getD .undefined)
      ⟨start, start + letters.length⟩

/-- The expression that a tree stands for, with so much layout behind its text. -/
def ExprTree.elaborate (scope : Scope) (start trailing : Nat) : ExprTree → Expr
  | .mk first links =>
    .mk (first.elaborate scope start) (links.elaborate scope (start + first.text.length))
      ⟨start, start + (first.text.length + links.text.length) + trailing⟩

def ChainTree.elaborate (scope : Scope) (start : Nat) : ChainTree → Chain
  | .nil => .nil
  | .cons before op after operand links =>
    let opened := start + before.length + op.symbol.toList.length + after.length
    .cons op (operand.elaborate scope opened)
      (links.elaborate scope (opened + operand.text.length))

end

mutual

/-- The code of an operand has the type of its tree. -/
theorem OperandTree.ty_elaborate {scope : Scope} {ty : Ty} (t : OperandTree)
    (h : t.HasType scope ty) (start : Nat) : (t.elaborate scope start).ty = ty := by
  match t with
  | .group opening inner closing => exact ExprTree.ty_elaborate inner h _ _
  | .string literal contents =>
    show Ty.str = ty
    exact h.symm
  | .integer digits =>
    show Ty.int = ty
    exact h.symm
  | .name letters =>
    have hty : scope (String.ofList letters) = some ty := h
    simp only [OperandTree.elaborate, hty, Option.getD_some, Operand.ty]

theorem ExprTree.ty_elaborate {scope : Scope} {ty : Ty} (t : ExprTree)
    (h : t.HasType scope ty) (start trailing : Nat) :
    (t.elaborate scope start trailing).ty = ty := by
  match t with
  | .mk first links => exact OperandTree.ty_elaborate first h.1 start

end

/-! ## Assignments and programs -/

/-- A derivation of an assignment, with the layout in front of it. -/
structure AssignmentTree where
  before : Text
  name : Text
  beforeSign : Text
  afterSign : Text
  expr : ExprTree
  beforeEnd : Text

namespace AssignmentTree

def target (t : AssignmentTree) : String := String.ofList t.name

/-- The text of an assignment behind its name. -/
def tail (t : AssignmentTree) : Text :=
  t.beforeSign ++ '=' :: (t.afterSign ++ (t.expr.text ++ (t.beforeEnd ++ [';'])))

def text (t : AssignmentTree) : Text := t.before ++ (t.name ++ t.tail)

/-- Every piece of an assignment is spelled as its place demands. -/
structure Written (t : AssignmentTree) : Prop where
  before : Layout t.before
  name : IsName t.name
  beforeSign : Layout t.beforeSign
  afterSign : Layout t.afterSign
  expr : t.expr.Written
  nesting : t.expr.nesting ≤ nestingLimit
  beforeEnd : Layout t.beforeEnd

/-- Where the expression of an assignment begins, its own text beginning at an offset. -/
def exprStart (t : AssignmentTree) (start : Nat) : Nat :=
  start + t.before.length + t.name.length + t.beforeSign.length + 1 + t.afterSign.length

/-- The assignment that a tree stands for, its text beginning at an offset. -/
def elaborate (scope : Scope) (start : Nat) (t : AssignmentTree) : Assignment where
  name := t.target
  expr := t.expr.elaborate scope (t.exprStart start) t.beforeEnd.length
  span := ⟨start + t.before.length, start + t.text.length⟩

end AssignmentTree

/-- Each assignment has a type over the names that a scope and those before it give. -/
def WellTyped (scope : Scope) : List AssignmentTree → Prop
  | [] => True
  | t :: trees => ∃ ty, t.expr.HasType scope ty ∧ WellTyped (scope.bind t.target ty) trees

/-- The assignments that some trees stand for, their text beginning at an offset. -/
def elaborateAll (scope : Scope) (start : Nat) : List AssignmentTree → List Assignment
  | [] => []
  | t :: trees =>
    let a := t.elaborate scope start
    a :: elaborateAll (scope.bind a.name a.expr.ty) (start + t.text.length) trees

/-- A derivation of a source as a program in which no name is bound at first. -/
structure Derivation (source : Text) where
  assignments : List AssignmentTree
  trailing : Text
  text_eq : assignments.flatMap AssignmentTree.text ++ trailing = source
  written : ∀ t ∈ assignments, t.Written
  trailing_layout : FinalLayout trailing
  typed : WellTyped (fun _ => none) assignments

/-- The statements that a derivation stands for. -/
def Derivation.statements {source : Text} (d : Derivation source) : List Statement :=
  (elaborateAll (fun _ => none) 0 d.assignments).map .assignment

/-! ## How trees begin -/

/-- The characters that an operand may begin with. -/
def StartsOperand (c : Char) : Prop :=
  c = '(' ∨ c = Quoted.quote ∨ c = Quoted.rawMark ∨ Token.isNamePart c = true

/-- An operand begins with no blank, no slash and nothing that makes an operator longer. -/
theorem StartsOperand.not_special {c : Char} (h : StartsOperand c) :
    isBlank c = false ∧ c ≠ '/' ∧ ¬ ExtendsOperator c := by
  rcases h with rfl | rfl | rfl | h
  · decide
  · decide
  · decide
  · refine ⟨Bool.eq_false_iff.mpr ?_, ?_, ?_⟩
    · intro hc
      simp only [isBlank, Bool.or_eq_true, decide_eq_true_eq] at hc
      rcases hc with ((rfl | rfl) | rfl) | rfl <;> exact absurd h (by decide)
    · rintro rfl
      exact absurd h (by decide)
    · rintro (rfl | rfl | rfl) <;> exact absurd h (by decide)

/-- The text of an operand begins with a character that an operand may begin with. -/
theorem OperandTree.head {t : OperandTree} (h : t.Written) :
    ∃ c rest, t.text = c :: rest ∧ StartsOperand c := by
  cases t with
  | group opening inner closing => exact ⟨_, _, rfl, .inl rfl⟩
  | string literal contents =>
    obtain ⟨c, rest, hl, hc⟩ := StringLiteral.head h
    exact ⟨c, rest, hl, hc.elim (fun hc => .inr (.inl hc)) fun hc => .inr (.inr (.inl hc))⟩
  | integer digits =>
    obtain ⟨⟨c, rest, hd, hc, -⟩, -⟩ := h
    exact ⟨c, rest, hd, .inr (.inr (.inr (isNamePart_of_isDigit hc)))⟩
  | name letters =>
    obtain ⟨c, rest, hl, hc, -⟩ := h
    exact ⟨c, rest, hl, .inr (.inr (.inr (isNamePart_of_isNameStart hc)))⟩

theorem ExprTree.head {t : ExprTree} (h : t.Written) :
    ∃ c rest, t.text = c :: rest ∧ StartsOperand c := by
  cases t with
  | mk first links =>
    obtain ⟨c, rest, ht, hc⟩ := OperandTree.head h.1
    exact ⟨c, rest ++ links.text, by simp [ExprTree.text, ht], hc⟩

/-- No layout stands before an operand. -/
theorem OperandTree.bare {t : OperandTree} (h : t.Written) (rest : Text) :
    Bare (t.text ++ rest) := by
  obtain ⟨c, tail, ht, hc⟩ := OperandTree.head h
  rw [ht]
  exact bare_cons hc.not_special.1 hc.not_special.2.1

theorem ExprTree.bare {t : ExprTree} (h : t.Written) (rest : Text) : Bare (t.text ++ rest) := by
  obtain ⟨c, tail, ht, hc⟩ := ExprTree.head h
  rw [ht]
  exact bare_cons hc.not_special.1 hc.not_special.2.1

/-- Some character comes first where an operand stands behind layout, whatever follows. -/
theorem OperandTree.head?_append {t : OperandTree} (h : t.Written) (after rest : Text) :
    (after ++ (t.text ++ rest)).head? = (after ++ t.text).head? := by
  obtain ⟨c, tail, ht, -⟩ := OperandTree.head h
  cases after <;> simp [ht]

/-- What stands behind an operator does not make its symbol longer. -/
theorem OperandTree.not_extendsOperator {t : OperandTree} (h : t.Written) {after : Text}
    (ha : Layout after) (rest : Text) :
    ∀ c ∈ (after ++ (t.text ++ rest)).head?, ¬ ExtendsOperator c := by
  intro c hc
  cases after with
  | nil =>
    obtain ⟨d, tail, ht, hd⟩ := OperandTree.head h
    obtain rfl : d = c := by simpa [ht] using hc
    exact hd.not_special.2.2
  | cons d after =>
    obtain rfl : d = c := by simpa using hc
    rcases ha.head with hd | rfl
    · rintro (rfl | rfl | rfl) <;> exact absurd hd (by decide)
    · decide

/-- The symbol of a binary operator begins with no blank and no part of a name; the only one that
begins with a slash is the slash. -/
theorem symbol_head {op : Operator} (h : op ∈ Operator.binary) :
    ∃ c t, op.symbol.toList = c :: t ∧ isBlank c = false ∧ Token.isNamePart c = false ∧
      (c = '/' → op = .divide) := by
  cases op
  case unaryPlus | unaryMinus | not | and | or => exact absurd h (by decide)
  all_goals exact ⟨_, _, rfl, by decide, by decide, by decide⟩

/-- No layout stands before an operator, unless a slash follows a slash. -/
theorem bare_symbol {op : Operator} (hop : op ∈ Operator.binary) {rest : Text}
    (hs : op = .divide → rest.head? ≠ some '/') : Bare (op.symbol.toList ++ rest) := by
  by_cases hd : op = .divide
  · have hsymbol : op.symbol.toList = ['/'] := by subst hd; rfl
    rw [hsymbol]
    exact bare_slash (hs hd)
  · obtain ⟨c, t, ht, hblank, -, hslash⟩ := symbol_head hop
    rw [ht]
    exact bare_cons hblank fun hc => hd (hslash hc)

theorem ChainTree.bare {before after : Text} {op : Operator} {operand : OperandTree}
    {links : ChainTree} (h : (ChainTree.cons before op after operand links).Written)
    (rest : Text) : Bare (op.symbol.toList ++ (after ++ (operand.text ++ rest))) := by
  obtain ⟨-, hop, hslash, -, hoperand, -⟩ := h
  apply bare_symbol hop
  intro hd
  rw [OperandTree.head?_append hoperand]
  exact hslash hd

/-- A name or numeral ends before a chain. -/
theorem ChainTree.boundary {t : ChainTree} (h : t.Written) {rest : Text} (hr : Boundary rest) :
    Boundary (t.text ++ rest) := by
  cases t with
  | nil => exact hr
  | cons before op after operand links =>
    obtain ⟨hbefore, hop, -⟩ := h
    obtain ⟨c, s, hs, -, hpart, -⟩ := symbol_head hop
    rw [ChainTree.text, List.append_assoc, hs]
    exact hbefore.boundary (boundary_cons hpart)

theorem IsName.bare {letters : Text} (h : IsName letters) (rest : Text) :
    Bare (letters ++ rest) := OperandTree.bare (t := .name letters) h rest

/-- A name ends in front of what follows it in an assignment. -/
theorem AssignmentTree.boundary_tail {t : AssignmentTree} (h : t.Written) (rest : Text) :
    Boundary (t.tail ++ rest) := by
  unfold AssignmentTree.tail
  rw [List.append_assoc]
  exact h.beforeSign.boundary (boundary_cons (by decide))

end Grammar

end Bindcheck
