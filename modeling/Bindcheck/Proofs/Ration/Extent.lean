/-
Bindcheck.Proofs.Ration.Extent — how much of the text the readers take.

Whatever is read takes its room. An operator, a sign or a literal takes
one character at least, and a group two more than the expression in it.
So an expression with `operandCount` operands, the groups and the
operands in them all counted, takes twice as many characters less one
(`Roomy.expression`), and this is an invariant of the readers of operands
(`roomy_operand`, an induction on the parentheses that may be opened).

What the loops need is a consequence: with every item a link takes two
characters at least (`takes_link`), and an assignment four
(`takes_assignment`). What a whole program takes is added up along the
recursion that reads it (`Progress.extent_read`).
-/
import Bindcheck.Proofs.Concatenation

namespace Bindcheck

open Reader Grammar

/-! ## Counting operands -/

mutual

/-- How many operands there are in an operand, itself and those in a group included. -/
def Operand.operandCount : Operand → Nat
  | .literal _ _ => 1
  | .var _ _ _ => 1
  | .group inner => inner.operandCount + 1

def Expr.operandCount : Expr → Nat
  | .mk first rest _ => first.operandCount + rest.operandCount

def Chain.operandCount : Chain → Nat
  | .nil => 0
  | .cons _ operand rest => operand.operandCount + rest.operandCount

end

/-- How many operands there are in all the statements. -/
def Code.operandCount (code : Code) : Nat :=
  code.statements.foldr (fun s n => s.expr.operandCount + n) 0

theorem Operand.operandCount_pos (x : Operand) : 0 < x.operandCount := by
  cases x <;> simp [Operand.operandCount]

theorem Expr.operandCount_pos (x : Expr) : 0 < x.operandCount := by
  cases x with
  | mk first rest span =>
    have := first.operandCount_pos
    simp only [Expr.operandCount]
    omega

namespace Reader

variable {α : Type} {c d : Cursor} {table : SymbolTable}

/-- What is read well ends further on, or where it began. -/
theorem reaches_of_ok {r : Reader α} {a : α} (h : r.run c = .ok a d) : c.Reaches d := by
  simpa [h] using r.advances c

/-! ## Tokens -/

theorem offset_lt_of_token {t : Token α} {a : α}
    (pos : ∀ {text a n}, t.read text = some (a, n) → 0 < n)
    (h : (token t).run c = .ok (some a) d) : c.offset < d.offset := by
  obtain ⟨n, hread, rfl⟩ := tokenAt_eq_some.mp h
  have hn := pos hread
  have hskip := c.reaches_pastLayout.offset_le
  rw [Cursor.offset_advance]
  omega

theorem offset_lt_of_accept {ch : Char} (h : (accept ch).run c = .ok true d) :
    c.offset < d.offset := by
  obtain ⟨-, hd⟩ := accept_eq_true h
  have hskip := c.reaches_pastLayout.offset_le
  omega

theorem offset_lt_of_quoted {s : String} (h : quoted.run c = .ok (some s) d) :
    c.offset < d.offset := by
  obtain ⟨literal, v, hliteral, -, -, hd⟩ := quoted_eq_some h
  obtain ⟨x, t, rfl, -⟩ := hliteral.head
  have hskip := c.reaches_pastLayout.offset_le
  rw [List.length_cons] at hd
  omega

theorem offset_lt_of_integer {n : Int64} (h : integer.run c = .ok (some n) d) :
    c.offset < d.offset := by
  obtain ⟨digits, hdigits, -, -, -, hd⟩ := integer_eq_some h
  have hlength := List.length_pos_iff.mpr (Run.ne_nil hdigits)
  have hskip := c.reaches_pastLayout.offset_le
  omega

/-! ## Items -/

/-- With every item the reader takes so many characters at least. -/
def Takes (item : Reader (Option α)) (n : Nat) : Prop :=
  ∀ ⦃c a d⦄, item.run c = .ok (some a) d → c.offset + n ≤ d.offset

/-- Who takes characters moves on. -/
theorem Takes.consumes {item : Reader (Option α)} {n : Nat} (h : item.Takes n) (hn : 0 < n) :
    item.Consumes := by
  intro c a d hread
  have hend := (reaches_of_ok hread).finish_eq
  have htaken := h hread
  unfold Cursor.finish at hend
  omega

/-! ## Operands and expressions -/

/-- An operand takes two characters, less one, for each of the operands in it. -/
def Roomy (operand : Reader (Option Operand)) : Prop :=
  ∀ ⦃c x d⦄, operand.run c = .ok (some x) d → c.offset + 2 * x.operandCount ≤ d.offset + 1

variable {operand : Reader (Option Operand)}

/-- An operator stands in front of each operand of a chain and makes up for the one less. -/
theorem Roomy.link (h : Roomy operand) {ty : Ty} {op : Operator} {x : Operand}
    (hread : (link operand ty).run c = .ok (some (op, x)) d) :
    c.offset + 2 * x.operandCount ≤ d.offset := by
  obtain ⟨e, hop, hx, -⟩ := link_eq_some hread
  have hsymbol := offset_lt_of_token Token.operator_pos hop
  have hroom := h hx
  omega

theorem Roomy.takes_link (h : Roomy operand) (ty : Ty) : (Reader.link operand ty).Takes 2 := by
  rintro c ⟨op, x⟩ d hread
  have hroom := h.link hread
  have hcount := x.operandCount_pos
  omega

theorem Roomy.many (h : Roomy operand) {ty : Ty} {links : List (Operator × Operand)}
    (hread : (many (Reader.link operand ty) (consumes_link operand ty)).run c = .ok links d) :
    c.offset + 2 * (Chain.ofList links).operandCount ≤ d.offset := by
  induction hn : c.rest.length using Nat.strongRecOn generalizing c links with
  | _ n ih =>
    rw [run_many] at hread
    obtain ⟨found, e, hlink, hread⟩ := Outcome.andThen_eq_ok.mp hread
    cases found with
    | none =>
      cases hread
      simpa [Chain.ofList, Chain.operandCount] using (reaches_of_ok hlink).offset_le
    | some found =>
      obtain ⟨op, x⟩ := found
      obtain ⟨later, e', hlater, hread⟩ := Outcome.andThen_eq_ok.mp hread
      cases hread
      have hshorter : e.rest.length < n := hn ▸ consumes_link operand ty hlink
      have hfirst := h.link hlink
      have hrest := ih e.rest.length hshorter hlater rfl
      simp only [Chain.ofList, Chain.operandCount]
      omega

theorem Roomy.expression (h : Roomy operand) {x : Expr}
    (hread : (expression operand).run c = .ok x d) :
    c.offset + 2 * x.operandCount ≤ d.offset + 1 := by
  obtain ⟨first, links, e, hfirst, hlinks, rfl⟩ := expression_eq_ok hread
  have hroom := h hfirst
  have hrest := h.many hlinks
  have hskip := c.reaches_pastLayout.offset_le
  simp only [Expr.operandCount]
  omega

/-- Its two parentheses make a group longer by what one operand more may ask. -/
theorem roomy_operandWith {opened : Nat → Reader Operand}
    (h : ∀ start c x d, (opened start).run c = .ok x d →
      c.offset + 2 * x.operandCount ≤ d.offset + 2) : Roomy (operandWith table opened) := by
  intro c x d hread
  have hskip := c.reaches_pastLayout.offset_le
  rcases operandWith_eq_some hread with ⟨e, hparen, hopened⟩ | ⟨s, hstring, rfl⟩ |
    ⟨n, hinteger, rfl⟩ | ⟨name, ty, hname, -, rfl⟩
  · have hfirst := offset_lt_of_accept hparen
    have hroom := h _ _ _ _ hopened
    omega
  · have := offset_lt_of_quoted hstring
    simp only [Operand.operandCount]
    omega
  · have := offset_lt_of_integer hinteger
    simp only [Operand.operandCount]
    omega
  · have := offset_lt_of_token Token.name_pos hname
    simp only [Operand.operandCount]
    omega

theorem roomy_operand (table : SymbolTable) (depth : Nat) : Roomy (Reader.operand table depth) := by
  induction depth with
  | zero =>
    apply roomy_operandWith
    rintro start c x d ⟨⟩
  | succ depth ih =>
    apply roomy_operandWith
    intro start c x d hread
    obtain ⟨inner, e, hinner, hclose, rfl⟩ := group_eq_ok hread
    have hroom := ih.expression hinner
    have hlast := offset_lt_of_accept hclose
    simp only [Operand.operandCount]
    omega

/-- The layout behind an expression that stands alone takes no room away. -/
theorem extent_wholeExpr {s : Statement} (h : (wholeExpr table).run c = .ok s d) :
    c.offset + 2 * s.expr.operandCount ≤ d.offset + 1 := by
  simp only [wholeExpr, run_bind, run_offset, Outcome.ok_andThen] at h
  obtain ⟨x, e, hexpr, h⟩ := Outcome.andThen_eq_ok.mp h
  simp only [run_atEnd, Outcome.ok_andThen] at h
  split at h
  · cases h
    have hroom := (roomy_operand table nestingLimit).expression hexpr
    have hskip := e.reaches_pastLayout.offset_le
    show c.offset + 2 * x.operandCount ≤ e.pastLayout.offset + 1
    omega
  · cases h

/-! ## Assignments -/

/-- The name and the two signs of an assignment make up for the one less, and for two more. -/
theorem extent_assignment {a : Assignment} (h : (assignment table).run c = .ok (some a) d) :
    c.offset + 2 * a.expr.operandCount + 2 ≤ d.offset := by
  have hafter : (after .name (assignmentTo table c.pastLayout.offset)).run c.pastLayout =
    .ok (some a) d := h
  obtain ⟨name, e, hname, hrest⟩ := after_eq_some hafter
  obtain ⟨f, x, g, hsign, hexpr, hend, rfl⟩ := assignmentTo_eq_ok hrest
  have hskip := c.reaches_pastLayout.offset_le
  have hletters := offset_lt_of_token Token.name_pos hname
  have hequals := offset_lt_of_accept hsign
  have hroom := (roomy_operand table nestingLimit).expression hexpr
  have hsemicolon := offset_lt_of_accept hend
  show c.offset + 2 * x.operandCount + 2 ≤ d.offset
  omega

theorem takes_assignment (table : SymbolTable) : (assignment table).Takes 4 := by
  intro c a d h
  have hextent := extent_assignment h
  have hcount := a.expr.operandCount_pos
  omega

end Reader

/-! ## Whole sources -/

theorem Code.length_le_operandCount (code : Code) :
    code.statements.length ≤ code.operandCount := by
  unfold Code.operandCount
  induction code.statements with
  | nil => simp
  | cons s statements ih =>
    have hcount := s.expr.operandCount_pos
    simp only [List.length_cons, List.foldr_cons]
    omega

namespace Progress

/-- The statements that are read take what each of them takes, also if a later one is refused. -/
theorem extent_read (table : SymbolTable) (c : Cursor) :
    c.offset + 2 * (read table c).code.operandCount + 2 * (read table c).statements.length
      ≤ (read table c).cursor.offset := by
  induction hn : c.rest.length using Nat.strongRecOn generalizing table c with
  | _ n ih =>
    have hreach := (assignment table).advances c
    rw [read_eq]
    cases hread : (assignment table).run c with
    | error f d =>
      rw [hread] at hreach
      simpa [Progress.code, Code.operandCount] using hreach.offset_le
    | ok found d =>
      rw [hread] at hreach
      cases found with
      | none => simpa [Progress.code, Code.operandCount] using hreach.offset_le
      | some a =>
        have hshorter : d.rest.length < n := hn ▸ consumes_assignment table hread
        have hfirst := extent_assignment hread
        have hlater := ih d.rest.length hshorter (table.bind a) d rfl
        simp only [Progress.code, Code.operandCount, List.map_cons, List.foldr_cons,
          List.length_cons, Statement.expr] at hlater ⊢
        omega

end Progress

end Bindcheck
