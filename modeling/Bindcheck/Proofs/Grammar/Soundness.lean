/-
Bindcheck.Proofs.Grammar.Soundness — what the readers take is the text of
a tree.

The converse of reading back: whenever a reader gives a result, the text
between the place where it began and the place where it rests is the text
of a tree, and the result is the code of that tree.

* `Finds scope depth operand` is the invariant. It says this of a reader
  of operands with at most `depth` groups open.
* `Finds.expression` and `finds_operandWith` carry it from the operands
  to expressions and back, so `finds_operand` is an induction on `depth`.
* `exists_split` cuts any text into the assignments that are read and a
  rest at which there is none; `exists_derivation` is the case in which
  that rest is layout.
-/
import Bindcheck.Proofs.Grammar.ReadBack

namespace Bindcheck

open Reader Quoted

/-! ## Results taken apart

Each lemma says what the parts of a reader gave where the whole gave a result.
-/

namespace Reader

variable {α β : Type} {c d : Cursor}

theorem after_eq_none {t : Token α} {next : α → Reader β}
    (h : (after t next).run c = .ok none d) : d = c.pastLayout := by
  obtain ⟨found, e, hread, h⟩ := Outcome.andThen_eq_ok.mp h
  obtain _ | a := found
  · obtain ⟨-, rfl⟩ := tokenAt_eq_none.mp hread
    cases h
    rfl
  · obtain ⟨b, e', -, h⟩ := Outcome.andThen_eq_ok.mp h
    cases h

/-- What is read behind a token is read from where the token ends. -/
theorem after_eq_some {t : Token α} {next : α → Reader β} {b : β}
    (h : (after t next).run c = .ok (some b) d) :
    ∃ a e, (token t).run c = .ok (some a) e ∧ (next a).run e = .ok b d := by
  obtain ⟨found, e, hread, h⟩ := Outcome.andThen_eq_ok.mp h
  obtain _ | a := found
  · cases h
  · obtain ⟨b', e', hnext, h⟩ := Outcome.andThen_eq_ok.mp h
    cases h
    exact ⟨a, e, hread, hnext⟩

theorem required_eq_ok {operand : Reader (Option Operand)} {op : Option Operator} {x : Operand}
    (h : (required operand op).run c = .ok x d) : operand.run c = .ok (some x) d := by
  obtain ⟨found, e, hread, h⟩ := Outcome.andThen_eq_ok.mp h
  obtain _ | y := found
  · cases h
  · cases h
    exact hread

theorem link_eq_some {operand : Reader (Option Operand)} {ty : Ty} {op : Operator} {x : Operand}
    (h : (link operand ty).run c = .ok (some (op, x)) d) :
    ∃ e, (token .operator).run c = .ok (some op) e ∧ operand.run e = .ok (some x) d ∧
      x.ty = ty := by
  obtain ⟨op', e, hop, h⟩ := after_eq_some h
  obtain ⟨y, e', hread, h⟩ := Outcome.andThen_eq_ok.mp h
  simp only at h
  split at h
  · rename_i hty
    cases h
    exact ⟨e, hop, required_eq_ok hread, hty⟩
  · cases h

theorem expression_eq_ok {operand : Reader (Option Operand)} {x : Expr}
    (h : (expression operand).run c = .ok x d) :
    ∃ first links e, operand.run c.pastLayout = .ok (some first) e ∧
      (many (link operand first.ty) (consumes_link operand first.ty)).run e = .ok links d ∧
      x = .mk first (.ofList links) (d.spanSince c.pastLayout.offset) := by
  simp only [expression, run_bind, run_skipLayout, run_offset, Outcome.ok_andThen] at h
  obtain ⟨first, e, hfirst, h⟩ := Outcome.andThen_eq_ok.mp h
  obtain ⟨links, e', hlinks, h⟩ := Outcome.andThen_eq_ok.mp h
  cases h
  exact ⟨first, links, e, required_eq_ok hfirst, hlinks, rfl⟩

theorem group_eq_ok {operand : Reader (Option Operand)} {opened : Nat} {x : Operand}
    (h : (group operand opened).run c = .ok x d) :
    ∃ inner e, (expression operand).run c = .ok inner e ∧ (accept ')').run e = .ok true d ∧
      x = .group inner := by
  obtain ⟨inner, e, hinner, h⟩ := Outcome.andThen_eq_ok.mp h
  obtain ⟨closed, e', hclose, h⟩ := Outcome.andThen_eq_ok.mp h
  cases closed
  · cases h
  · cases h
    exact ⟨inner, e, hinner, hclose, rfl⟩

theorem assignmentTo_eq_ok {table : SymbolTable} {start : Nat} {name : String} {a : Assignment}
    (h : (assignmentTo table start name).run c = .ok a d) :
    ∃ e x f, (accept '=').run c = .ok true e ∧ (expr table).run e = .ok x f ∧
      (accept ';').run f = .ok true d ∧ a = ⟨name, x, d.spanSince start⟩ := by
  obtain ⟨signed, e, hsign, h⟩ := Outcome.andThen_eq_ok.mp h
  cases signed
  · cases h
  · obtain ⟨x, f, hexpr, h⟩ := Outcome.andThen_eq_ok.mp h
    obtain ⟨ended, f', hend, h⟩ := Outcome.andThen_eq_ok.mp h
    cases ended
    · cases h
    · cases h
      exact ⟨e, x, f, hsign, hexpr, hend, rfl⟩

/-- Where no string is found neither mark comes next. -/
theorem quoted_eq_none (h : quoted.run c = .ok none d) :
    d = c.pastLayout ∧ c.pastLayout.rest.head? ≠ some quote ∧
      c.pastLayout.rest.head? ≠ some rawMark := by
  simp only [quoted, run_bind, run_skipLayout, run_offset, Outcome.ok_andThen] at h
  obtain ⟨marked, e, hread, h⟩ := Outcome.andThen_eq_ok.mp h
  cases marked
  · obtain ⟨hmark, rfl⟩ := accept_eq_false hread
    obtain ⟨opened, e', hread, h⟩ := Outcome.andThen_eq_ok.mp h
    cases opened
    · obtain ⟨hquote, rfl⟩ := accept_eq_false hread
      cases h
      simp only [Cursor.pastLayout_pastLayout] at hmark hquote ⊢
      exact ⟨trivial, hquote, hmark⟩
    · obtain ⟨s, e, -, h⟩ := Outcome.andThen_eq_ok.mp h
      cases h
  · obtain ⟨opened, e', -, h⟩ := Outcome.andThen_eq_ok.mp h
    cases opened
    · cases h
    · obtain ⟨s, e, -, h⟩ := Outcome.andThen_eq_ok.mp h
      cases h

/-- Where no integer is found no digit comes next. -/
theorem integer_eq_none (h : integer.run c = .ok none d) :
    d = c.pastLayout ∧ ∀ x ∈ c.pastLayout.rest.head?, x.isDigit = false := by
  simp only [integer, run_bind, run_skipLayout, run_offset, Outcome.ok_andThen, run_token,
    Cursor.pastLayout_pastLayout] at h
  obtain ⟨found, e, hread, h⟩ := Outcome.andThen_eq_ok.mp h
  obtain _ | digits := found
  · obtain ⟨hnone, rfl⟩ := tokenAt_eq_none.mp hread
    cases h
    exact ⟨rfl, Grammar.read_run_eq_none.mp hnone⟩
  · simp only at h
    split at h <;> cases h

theorem named_eq_ok {table : SymbolTable} {name : String} {span : Span} {x : Operand}
    {e : Cursor} (h : (named table name span).run e = .ok x d) :
    ∃ ty, table.scope name = some ty ∧ x = .var name ty span ∧ e = d := by
  simp only [named] at h
  split at h
  · rename_i entry hentry
    cases h
    refine ⟨entry.ty, ?_, rfl, rfl⟩
    unfold SymbolTable.scope
    rw [hentry]
    rfl
  · cases h

/-- An operand is a group, a string, an integer or a name, and is read as such. -/
theorem operandWith_eq_some {table : SymbolTable} {opened : Nat → Reader Operand} {x : Operand}
    (h : (operandWith table opened).run c = .ok (some x) d) :
    (∃ e, (accept '(').run c.pastLayout = .ok true e ∧
      (opened c.pastLayout.offset).run e = .ok x d) ∨
    (∃ s, quoted.run c.pastLayout = .ok (some s) d ∧
      x = .literal (.str s) (d.spanSince c.pastLayout.offset)) ∨
    (∃ n, integer.run c.pastLayout = .ok (some n) d ∧
      x = .literal (.int n) (d.spanSince c.pastLayout.offset)) ∨
    ∃ name ty, (token .name).run c.pastLayout = .ok (some name) d ∧
      table.scope name = some ty ∧ x = .var name ty (d.spanSince c.pastLayout.offset) := by
  simp only [operandWith, run_bind, run_skipLayout, run_offset, Outcome.ok_andThen] at h
  obtain ⟨paren, e, hparen, h⟩ := Outcome.andThen_eq_ok.mp h
  cases paren
  · obtain ⟨-, rfl⟩ := accept_eq_false hparen
    obtain ⟨s?, e, hquoted, h⟩ := Outcome.andThen_eq_ok.mp h
    rw [Cursor.pastLayout_pastLayout] at hquoted
    obtain _ | s := s?
    · obtain ⟨rfl, -⟩ := quoted_eq_none hquoted
      obtain ⟨n?, e, hinteger, h⟩ := Outcome.andThen_eq_ok.mp h
      simp only [Cursor.pastLayout_pastLayout] at hinteger
      obtain _ | n := n?
      · obtain ⟨rfl, -⟩ := integer_eq_none hinteger
        obtain ⟨name?, e, hname, h⟩ := Outcome.andThen_eq_ok.mp h
        simp only [Cursor.pastLayout_pastLayout] at hname
        obtain _ | name := name?
        · cases h
        · obtain ⟨y, e', hnamed, h⟩ := Outcome.andThen_eq_ok.mp h
          cases h
          obtain ⟨ty, hty, rfl, rfl⟩ := named_eq_ok hnamed
          exact .inr (.inr (.inr ⟨name, ty, hname, hty, rfl⟩))
      · cases h
        exact .inr (.inr (.inl ⟨n, hinteger, rfl⟩))
    · cases h
      exact .inr (.inl ⟨s, hquoted, rfl⟩)
  · obtain ⟨y, e', hopened, h⟩ := Outcome.andThen_eq_ok.mp h
    cases h
    exact .inl ⟨e, hparen, hopened⟩

end Reader

namespace Grammar

/-- The operand `x`, read from `c` to `d`, is the code of a tree written there. -/
structure OperandTree.Found (scope : Scope) (depth : Nat) (c d : Cursor) (x : Operand)
    (t : OperandTree) : Prop where
  rest_eq : c.pastLayout.rest = t.text ++ d.rest
  offset_eq : d.offset = c.pastLayout.offset + t.text.length
  written : t.Written
  nesting : t.nesting ≤ depth
  typed : ∃ ty, t.HasType scope ty
  eq_elaborate : x = t.elaborate scope c.pastLayout.offset

/-- The expression `e`, read from `c` to `d`, is the code of a tree with layout behind it. -/
structure ExprTree.Found (scope : Scope) (depth : Nat) (c d : Cursor) (e : Expr)
    (t : ExprTree) (trailing : Text) : Prop where
  rest_eq : c.pastLayout.rest = t.text ++ (trailing ++ d.rest)
  offset_eq : d.offset = c.pastLayout.offset + t.text.length + trailing.length
  trailing_final : FinalLayout trailing
  trailing_layout : d.rest ≠ [] → Layout trailing
  bare : Bare d.rest
  written : t.Written
  nesting : t.nesting ≤ depth
  typed : ∃ ty, t.HasType scope ty
  eq_elaborate : e = t.elaborate scope c.pastLayout.offset trailing.length

/-- The links, read from `c` to `d`, are the code of a tree with layout behind it. -/
structure ChainTree.Found (scope : Scope) (depth : Nat) (ty : Ty) (c d : Cursor)
    (links : List (Operator × Operand)) (t : ChainTree) (trailing : Text) : Prop where
  rest_eq : c.rest = t.text ++ (trailing ++ d.rest)
  offset_eq : d.offset = c.offset + t.text.length + trailing.length
  trailing_final : FinalLayout trailing
  trailing_layout : d.rest ≠ [] → Layout trailing
  bare : Bare d.rest
  written : t.Written
  nesting : t.nesting ≤ depth
  typed : t.HasType scope ty
  eq_elaborate : links = (t.elaborate scope c.offset).toList

/-- Every operand that a reader takes is the code of a tree. -/
def Finds (scope : Scope) (depth : Nat) (operand : Reader (Option Operand)) : Prop :=
  ∀ ⦃c d x⦄, operand.run c = .ok (some x) d → ∃ t, OperandTree.Found scope depth c d x t

/-! ## From operands to expressions -/

variable {scope : Scope} {depth : Nat} {operand : Reader (Option Operand)} {c d : Cursor}

/-- Behind a slash that is not layout there is no second slash. -/
theorem head?_of_bare_slash {text : Text} (h : Bare ('/' :: text)) : text.head? ≠ some '/' := by
  intro hhead
  obtain ⟨rest, rfl⟩ := List.head?_eq_some_iff.mp hhead
  unfold Bare at h
  rw [layoutLength_slashes] at h
  omega

/-- Where the links end there is a chain without links, and layout. -/
theorem ChainTree.found_nil (scope : Scope) (depth : Nat) (ty : Ty) (c : Cursor) :
    ∃ trailing, ChainTree.Found scope depth ty c c.pastLayout [] .nil trailing := by
  obtain ⟨b, hfinal, hlayout, hrest, hoffset⟩ := c.exists_layout
  exact ⟨b, hrest, by simpa [ChainTree.text] using hoffset, hfinal, hlayout, c.bare_pastLayout,
    trivial, Nat.zero_le _, trivial, rfl⟩

/-- An operator that is taken stands behind layout, and no slash follows a slash. -/
theorem exists_layout_of_operator {op : Operator}
    (h : (token .operator).run c = .ok (some op) d) :
    op ∈ Operator.binary ∧ (op = .divide → d.rest.head? ≠ some '/') ∧
      ∃ b, Layout b ∧ c.rest = b ++ (op.symbol.toList ++ d.rest) ∧
        d.offset = c.offset + b.length + op.symbol.toList.length := by
  obtain ⟨hop, hsymbol, hoffset⟩ := operator_eq_some h
  obtain ⟨x, part, hx, -⟩ := symbol_head hop
  have hnext : c.pastLayout.rest = x :: (part ++ d.rest) := by
    rw [hsymbol, hx]
    rfl
  obtain ⟨b, hb, hrest, hstart⟩ := Cursor.exists_layout_of_cons hnext
  refine ⟨hop, ?_, b, hb, ?_, ?_⟩
  · rintro rfl
    have hbare : Bare ('/' :: d.rest) := by
      have := c.bare_pastLayout
      rwa [hsymbol] at this
    exact head?_of_bare_slash hbare
  · rw [hrest, hx]
    rfl
  · omega

/-- In front of an operand that is found there is layout. -/
theorem OperandTree.Found.exists_layout {x : Operand} {t : OperandTree}
    (h : OperandTree.Found scope depth c d x t) :
    ∃ b, Layout b ∧ c.rest = b ++ (t.text ++ d.rest) ∧
      c.pastLayout.offset = c.offset + b.length := by
  obtain ⟨first, letters, htext, -⟩ := OperandTree.head h.written
  have hrest := h.rest_eq
  rw [htext] at hrest ⊢
  exact Cursor.exists_layout_of_cons hrest

/-- An operator and an operand in front of a chain make a longer chain. -/
theorem ChainTree.found_cons {ty : Ty} {op : Operator} {x : Operand} {next : OperandTree}
    {e f : Cursor} {links : List (Operator × Operand)} {t : ChainTree} {trailing : Text}
    (hop : (token .operator).run c = .ok (some op) e)
    (hx : OperandTree.Found scope depth e f x next) (hty : x.ty = ty)
    (ht : ChainTree.Found scope depth ty f d links t trailing) :
    ∃ before after,
      ChainTree.Found scope depth ty c d ((op, x) :: links) (.cons before op after next t)
        trailing := by
  obtain ⟨hmem, hslash, before, hbefore, hc, he⟩ := exists_layout_of_operator hop
  obtain ⟨after, hafter, hrest, hnext⟩ := hx.exists_layout
  obtain ⟨typeOf, hnextType⟩ := hx.typed
  have htyped : next.HasType scope ty := by
    have hsame := OperandTree.ty_elaborate next hnextType e.pastLayout.offset
    rw [← hx.eq_elaborate, hty] at hsame
    rwa [hsame]
  rw [hrest, OperandTree.head?_append hx.written] at hslash
  have hf := hx.offset_eq
  have hstart : e.pastLayout.offset
      = c.offset + before.length + op.symbol.toList.length + after.length := by omega
  refine ⟨before, after, ?_, ?_, ht.trailing_final, ht.trailing_layout, ht.bare,
    ⟨hbefore, hmem, hslash, hafter, hx.written, ht.written⟩,
    Nat.max_le.mpr ⟨hx.nesting, ht.nesting⟩, ⟨htyped, ht.typed⟩, ?_⟩
  · rw [hc, hrest, ht.rest_eq]
    simp [ChainTree.text]
  · have hend := ht.offset_eq
    simp only [ChainTree.text, List.length_append]
    omega
  · simp only [ChainTree.elaborate, Chain.toList, ← hstart, ← hf, ← hx.eq_elaborate,
      ← ht.eq_elaborate]

/-- A reader of operands makes one that finds chains. -/
theorem Finds.many (h : Finds scope depth operand) (ty : Ty) {links : List (Operator × Operand)}
    (hread : (many (link operand ty) (consumes_link operand ty)).run c = .ok links d) :
    ∃ t trailing, ChainTree.Found scope depth ty c d links t trailing := by
  induction hn : c.rest.length using Nat.strongRecOn generalizing c links with
  | _ n ih =>
    rw [run_many] at hread
    obtain ⟨found, f, hlink, hread⟩ := Outcome.andThen_eq_ok.mp hread
    obtain _ | ⟨op, x⟩ := found
    · cases hread
      obtain rfl := after_eq_none hlink
      exact ⟨.nil, ChainTree.found_nil scope depth ty c⟩
    · obtain ⟨later, g, hlater, hread⟩ := Outcome.andThen_eq_ok.mp hread
      cases hread
      have hshorter : f.rest.length < n := by
        rw [← hn]
        exact consumes_link operand ty hlink
      obtain ⟨t, trailing, ht⟩ := ih f.rest.length hshorter hlater rfl
      obtain ⟨e, hop, hoperand, hty⟩ := link_eq_some hlink
      obtain ⟨next, hnext⟩ := h hoperand
      obtain ⟨before, after, hcons⟩ := ChainTree.found_cons hop hnext hty ht
      exact ⟨.cons before op after next t, trailing, hcons⟩

/-- A reader of operands makes one that finds expressions. -/
theorem Finds.expression (h : Finds scope depth operand) {x : Expr}
    (hread : (expression operand).run c = .ok x d) :
    ∃ t trailing, ExprTree.Found scope depth c d x t trailing := by
  obtain ⟨first, links, e, hfirst, hlinks, rfl⟩ := expression_eq_ok hread
  obtain ⟨t, ht⟩ := h hfirst
  obtain ⟨ty, htype⟩ := ht.typed
  obtain ⟨chain, trailing, hchain⟩ := h.many _ hlinks
  have hstart : c.pastLayout.pastLayout = c.pastLayout := c.pastLayout_pastLayout
  have hrest := ht.rest_eq
  have hoffset := ht.offset_eq
  have heq := ht.eq_elaborate
  rw [hstart] at hrest hoffset heq
  have hty : first.ty = ty := by
    rw [heq]
    exact OperandTree.ty_elaborate t htype _
  have hend := hchain.offset_eq
  have hchainType := hchain.typed
  rw [hty] at hchainType
  refine ⟨.mk t chain, trailing, ?_, ?_, hchain.trailing_final, hchain.trailing_layout,
    hchain.bare, ⟨ht.written, hchain.written⟩, Nat.max_le.mpr ⟨ht.nesting, hchain.nesting⟩,
    ⟨ty, htype, hchainType⟩, ?_⟩
  · rw [hrest, hchain.rest_eq]
    simp [ExprTree.text]
  · simp only [ExprTree.text, List.length_append]
    omega
  · have hspan : d.spanSince c.pastLayout.offset = ⟨c.pastLayout.offset,
        c.pastLayout.offset + (t.text.length + chain.text.length) + trailing.length⟩ := by
      simp only [Cursor.spanSince, Span.mk.injEq, true_and]
      omega
    rw [ExprTree.elaborate, hspan, ← heq, hchain.eq_elaborate, Chain.ofList_toList, hoffset]

/-! ## From expressions to operands -/

variable {table : SymbolTable}

/-- The span from the place after the layout covers what was read there. -/
theorem spanSince_pastLayout {text : Text}
    (h : d.offset = c.pastLayout.offset + text.length) :
    d.spanSince c.pastLayout.offset
      = ⟨c.pastLayout.offset, c.pastLayout.offset + text.length⟩ := by
  simp only [Cursor.spanSince, Span.mk.injEq, true_and]
  omega

/-- A reader of operands finds them if what it reads behind a parenthesis is found. -/
theorem finds_operandWith {opened : Nat → Reader Operand}
    (h : ∀ ⦃c e d x⦄, (accept '(').run c.pastLayout = .ok true e →
      (opened c.pastLayout.offset).run e = .ok x d →
      ∃ t, OperandTree.Found table.scope depth c d x t) :
    Finds table.scope depth (operandWith table opened) := by
  intro c d x hread
  rcases operandWith_eq_some hread with ⟨e, hparen, hopened⟩ | ⟨s, hquoted, rfl⟩ |
    ⟨n, hinteger, rfl⟩ | ⟨name, ty, hname, hty, rfl⟩
  · exact h hparen hopened
  · obtain ⟨literal, v, hliteral, rfl, hrest, hoffset⟩ := quoted_eq_some hquoted
    rw [Cursor.pastLayout_pastLayout] at hrest hoffset
    refine ⟨.string literal v, hrest, hoffset, hliteral, Nat.zero_le _, ⟨.str, rfl⟩, ?_⟩
    rw [OperandTree.elaborate, spanSince_pastLayout hoffset]
  · obtain ⟨digits, hdigits, hvalue, rfl, hrest, hoffset⟩ := integer_eq_some hinteger
    rw [Cursor.pastLayout_pastLayout] at hrest hoffset
    refine ⟨.integer digits, hrest, hoffset, ⟨hdigits, hvalue⟩, Nat.zero_le _, ⟨.int, rfl⟩, ?_⟩
    rw [OperandTree.elaborate, spanSince_pastLayout hoffset]
  · obtain ⟨letters, hletters, rfl, hrest, hoffset⟩ := name_eq_some hname
    rw [Cursor.pastLayout_pastLayout] at hrest hoffset
    refine ⟨.name letters, hrest, hoffset, hletters, Nat.zero_le _, ⟨ty, hty⟩, ?_⟩
    rw [OperandTree.elaborate, spanSince_pastLayout hoffset, hty, Option.getD_some]

/-- In front of an expression that is found there is layout. -/
theorem ExprTree.Found.exists_layout {x : Expr} {t : ExprTree} {trailing : Text}
    (h : ExprTree.Found scope depth c d x t trailing) :
    ∃ b, Layout b ∧ c.rest = b ++ (t.text ++ (trailing ++ d.rest)) ∧
      c.pastLayout.offset = c.offset + b.length := by
  obtain ⟨first, letters, htext, -⟩ := ExprTree.head h.written
  have hrest := h.rest_eq
  rw [htext] at hrest ⊢
  exact Cursor.exists_layout_of_cons hrest

/-- A character that closes an expression stands right behind its layout. -/
theorem ExprTree.Found.closed {x : Expr} {t : ExprTree} {trailing : Text} {ch : Char} {e : Cursor}
    (h : ExprTree.Found scope depth c d x t trailing) (hread : (accept ch).run d = .ok true e) :
    Layout trailing ∧ d.rest = ch :: e.rest ∧ e.offset = d.offset + 1 := by
  obtain ⟨hend, hoffset⟩ := accept_eq_true hread
  rw [Cursor.pastLayout_of_bare h.bare] at hend hoffset
  have hrest : d.rest = ch :: e.rest := by rw [hend]
  refine ⟨?_, hrest, hoffset⟩
  apply h.trailing_layout
  intro hnil
  rw [hrest] at hnil
  cases hnil

/-- Operands one level further down make the operands in parentheses. -/
theorem Finds.group (h : Finds scope depth operand) {e : Cursor} {x : Operand}
    (hparen : (accept '(').run c.pastLayout = .ok true e)
    (hread : (group operand c.pastLayout.offset).run e = .ok x d) :
    ∃ t, OperandTree.Found scope (depth + 1) c d x t := by
  obtain ⟨inner, f, hinner, hclose, rfl⟩ := group_eq_ok hread
  obtain ⟨t, closing, ht⟩ := h.expression hinner
  obtain ⟨opening, hopening, he, hstart⟩ := ht.exists_layout
  obtain ⟨hclosing, hf, hend⟩ := ht.closed hclose
  obtain ⟨hopen, hopenOffset⟩ := accept_eq_true hparen
  rw [Cursor.pastLayout_pastLayout] at hopen hopenOffset
  have hc : c.pastLayout.rest = '(' :: e.rest := by rw [hopen]
  have hoffset := ht.offset_eq
  refine ⟨.group opening t closing, ?_, ?_, ⟨hopening, ht.written, hclosing⟩,
    Nat.succ_le_succ ht.nesting, ht.typed, ?_⟩
  · rw [hc, he, hf]
    simp [OperandTree.text]
  · simp only [OperandTree.text, List.length_cons, List.length_append, List.length_nil]
    omega
  · rw [OperandTree.elaborate, ← hopenOffset, ← hstart, ← ht.eq_elaborate]

/-- Whatever operand is taken, with so many groups open at most, is the code of a tree. -/
theorem finds_operand (table : SymbolTable) (depth : Nat) :
    Finds table.scope depth (Reader.operand table depth) := by
  induction depth with
  | zero =>
    refine finds_operandWith ?_
    intro c e d x _ hread
    cases hread
  | succ depth ih =>
    refine finds_operandWith ?_
    intro c e d x hparen hread
    exact ih.group hparen hread

/-! ## Assignments and programs -/

/-- A character that is taken stands behind layout. -/
theorem exists_layout_of_accept {ch : Char} (h : (accept ch).run c = .ok true d) :
    ∃ b, Layout b ∧ c.rest = b ++ ch :: d.rest ∧ d.offset = c.offset + b.length + 1 := by
  obtain ⟨hnext, hoffset⟩ := accept_eq_true h
  obtain ⟨b, hb, hrest, hstart⟩ := Cursor.exists_layout_of_cons (congrArg Cursor.rest hnext)
  exact ⟨b, hb, hrest, by omega⟩

/-- A name that is taken stands behind layout. -/
theorem exists_layout_of_name {s : String} (h : (token .name).run c = .ok (some s) d) :
    ∃ b letters, Layout b ∧ IsName letters ∧ s = String.ofList letters ∧
      c.rest = b ++ (letters ++ d.rest) ∧ c.pastLayout.offset = c.offset + b.length ∧
      d.offset = c.offset + b.length + letters.length := by
  obtain ⟨letters, hletters, hs, hnext, hoffset⟩ := name_eq_some h
  obtain ⟨x, part, hx, hfirst, hpart⟩ := hletters
  subst hx
  obtain ⟨b, hb, hrest, hstart⟩ := Cursor.exists_layout_of_cons hnext
  exact ⟨b, x :: part, hb, ⟨x, part, rfl, hfirst, hpart⟩, hs, hrest, hstart, by omega⟩

/-- An assignment that is taken is the code of a tree that stands where reading began. -/
theorem AssignmentTree.exists_of_run {a : Assignment}
    (h : (assignment table).run c = .ok (some a) d) :
    ∃ (t : AssignmentTree) (ty : Ty), c.rest = t.text ++ d.rest ∧
      d.offset = c.offset + t.text.length ∧ t.Written ∧ t.expr.HasType table.scope ty ∧
      a = t.elaborate table.scope c.offset := by
  have hread : (after .name (assignmentTo table c.pastLayout.offset)).run c.pastLayout
      = .ok (some a) d := h
  obtain ⟨name, e, hname, htail⟩ := after_eq_some hread
  have hname' : (token .name).run c = .ok (some name) e := by
    rwa [run_token, Cursor.pastLayout_pastLayout] at hname
  obtain ⟨before, letters, hbefore, hletters, rfl, hc, hstart, he⟩ := exists_layout_of_name hname'
  obtain ⟨f, x, g, hequals, hexpr, hsemicolon, rfl⟩ := assignmentTo_eq_ok htail
  obtain ⟨beforeSign, hbeforeSign, hsign, hf⟩ := exists_layout_of_accept hequals
  obtain ⟨expr, beforeEnd, hfound⟩ := (finds_operand table nestingLimit).expression hexpr
  obtain ⟨afterSign, hafterSign, htext, hexprStart⟩ := hfound.exists_layout
  obtain ⟨hbeforeEnd, hg, hend⟩ := hfound.closed hsemicolon
  obtain ⟨ty, hty⟩ := hfound.typed
  have hexprEnd := hfound.offset_eq
  refine ⟨⟨before, letters, beforeSign, afterSign, expr, beforeEnd⟩, ty, ?_, ?_,
    ⟨hbefore, hletters, hbeforeSign, hafterSign, hfound.written, hfound.nesting, hbeforeEnd⟩,
    hty, ?_⟩
  · rw [hc, hsign, htext, hg]
    simp [AssignmentTree.text, AssignmentTree.tail]
  · simp only [AssignmentTree.text, AssignmentTree.tail, List.length_append, List.length_cons,
      List.length_nil]
    omega
  · have hwhole : d.spanSince c.pastLayout.offset = ⟨c.pastLayout.offset, d.offset⟩ := by
      simp only [Cursor.spanSince, Span.mk.injEq, true_and]
      omega
    rw [hwhole, hfound.eq_elaborate, hexprStart, hf, he, hstart]
    simp only [AssignmentTree.elaborate, AssignmentTree.target, AssignmentTree.exprStart,
      AssignmentTree.text, AssignmentTree.tail, List.length_append, List.length_cons,
      List.length_nil, Assignment.mk.injEq, Span.mk.injEq, true_and]
    omega

/-- Reading a program cuts its text into assignments and a rest that begins with none. -/
theorem exists_split (table : SymbolTable) (c : Cursor) :
    ∃ trees rest, (∀ t ∈ trees, AssignmentTree.Written t) ∧ WellTyped table.scope trees ∧
      c.rest = trees.flatMap AssignmentTree.text ++ rest ∧
      ∀ a d, (assignment (table.bindAll (elaborateAll table.scope c.offset trees))).run
        ⟨c.offset + (trees.flatMap AssignmentTree.text).length, rest⟩ ≠ .ok (some a) d := by
  induction hn : c.rest.length using Nat.strongRecOn generalizing table c with
  | _ n ih =>
    by_cases hread : ∃ a d, (assignment table).run c = .ok (some a) d
    · obtain ⟨a, d, hread⟩ := hread
      obtain ⟨t, ty, hrest, hoffset, hw, hty, rfl⟩ := AssignmentTree.exists_of_run hread
      have hshorter : d.rest.length < n := hn ▸ consumes_assignment table hread
      obtain ⟨trees, rest, hws, htypes, hsplit, hstop⟩ := ih d.rest.length hshorter
        (table.bind (t.elaborate table.scope c.offset)) d rfl
      refine ⟨t :: trees, rest, ?_, ⟨ty, hty, ?_⟩, ?_, ?_⟩
      · exact fun u hu => (List.mem_cons.mp hu).elim (fun h => h ▸ hw) (hws u)
      · rwa [SymbolTable.scope_bind_elaborate hty] at htypes
      · rw [hrest, hsplit]
        simp
      · simpa only [elaborateAll, SymbolTable.bindAll, List.foldl_cons, SymbolTable.scope_bind,
          List.flatMap_cons, List.length_append, hoffset, Nat.add_assoc] using hstop
    · refine ⟨[], c.rest, by simp, trivial, rfl, ?_⟩
      intro a d h
      exact hread ⟨a, d, h⟩

/-- Where reading ends without an assignment and without a failure, only layout was left. -/
theorem final_of_read (hstop : ∀ a d, (assignment table).run c ≠ .ok (some a) d)
    (hfailure : (Progress.read table c).failure = none)
    (hend : (Progress.read table c).cursor.atEnd = true) : FinalLayout c.rest := by
  rw [Progress.read_eq] at hfailure hend
  cases hread : (assignment table).run c with
  | error f d =>
    rw [hread] at hfailure
    cases hfailure
  | ok found d =>
    obtain _ | a := found
    · rw [hread] at hend
      have hafter : (after .name (assignmentTo table c.pastLayout.offset)).run c.pastLayout
          = .ok none d := hread
      have hd : d = c.pastLayout := by
        rw [after_eq_none hafter, Cursor.pastLayout_pastLayout]
      obtain ⟨b, hfinal, -, hrest, -⟩ := c.exists_layout
      rw [hrest, ← hd, Cursor.atEnd_iff.mp hend, List.append_nil]
      exact hfinal
    · exact absurd hread (hstop a d)

/-- A program has a derivation. -/
theorem exists_derivation {source : Text} {code : Code}
    (h : Code.ofProgram source = .ok code) : Nonempty (Derivation source) := by
  obtain ⟨trees, rest, hw, ht, hsplit, hstop⟩ :=
    exists_split SymbolTable.empty (Cursor.start source)
  have hread := Progress.read_append hw ht 0 rest
  have hstart : (⟨0, trees.flatMap AssignmentTree.text ++ rest⟩ : Cursor) = Cursor.start source :=
    congrArg (Cursor.mk 0) hsplit.symm
  rw [hstart] at hread
  simp only [Code.ofProgram, hread] at h
  split at h
  · cases h
  · rename_i hfailure
    split at h
    · rename_i hend
      refine ⟨trees, rest, hsplit.symm, hw, final_of_read hstop hfailure hend, ?_⟩
      rwa [SymbolTable.scope_empty] at ht
    · cases h

end Grammar

end Bindcheck
