/-
Bindcheck.Proofs.Refusal.Cause — why the readers of expressions refuse a
text.

`Refusal source table f` says of a failure what its words mean: each cause
has one rule, and the rule names what stands at the blamed span and what
is missing there. A type that it speaks of is that of a piece of the
source read alone.

`Explains` is the invariant. It says that a reader of operands, started at
a place where an operand may begin, refuses a text only by these rules.
The proof follows the readers, turned around by the lemmas named
`…_eq_error`, and each rule is used where its cause arises. What was read
before the failure is the text of trees (`Finds`), so the place of the
failure is known. `explains_operand` is the induction on how many groups
may still be opened.
-/
import Mathlib.Data.List.Basic
import Bindcheck.Proofs.Reparse
import Bindcheck.Proofs.Refusal.Parts
import Bindcheck.Proofs.Refusal.Place

namespace Bindcheck

open Reader Quoted

namespace Grammar

variable {source : Text} {table : SymbolTable} {c d : Cursor} {f : Failure}

/-! ## What a failure says -/

/-- The span covers characters of the source, and begins with a token. -/
structure Covers (source : Text) (span : Span) : Prop where
  token : TokenAt source span.start
  start_lt_stop : span.start < span.stop
  stop_le : span.stop ≤ source.length

/-- The offset is that of a token, or of the end of the source. -/
def NextAt (source : Text) (offset : Nat) : Prop := offset = source.length ∨ TokenAt source offset

/-- The text of an operand stands at a place of the source. -/
structure OperandTree.StandsAt (source : Text) (o : Nat) (t : OperandTree) : Prop where
  place : Place source ⟨o, source.drop o⟩
  front : t.text <+: source.drop o
  written : t.Written

/-- What it means that an expression is refused, cause by cause. -/
inductive Refusal (source : Text) (table : SymbolTable) : Failure → Prop where
  /-- The span is a whole numeral, and its value is too large. -/
  | integerOutOfRange {span : Span} {digits : Text} (hcovers : Covers source span)
    (htext : span.slice source = digits) (hdigits : IsNumeral digits)
    (hvalue : Numeral.maxInteger < Numeral.value digits)
    (hbefore : ∀ x ∈ (source.take span.start).getLast?, x.isDigit = false)
    (hbehind : ∀ x ∈ source[span.stop]?, x.isDigit = false) :
    Refusal source table ⟨.integerOutOfRange (String.ofList digits), span⟩
  /-- The span is the mark of a raw string and layout, and no quote follows. -/
  | rawQuoteExpected {span : Span} {gap : Text} (hcovers : Covers source span)
    (htext : span.slice source = rawMark :: gap) (hgap : FinalLayout gap)
    (hbehind : source[span.stop]? ≠ some quote) :
    Refusal source table ⟨.rawQuoteExpected, span⟩
  /-- The span is a backslash and a character that it does not escape. -/
  | invalidEscape {span : Span} {e : Char} (hcovers : Covers source span)
    (htext : span.slice source = [backslash, e]) (he : escape? e = none) :
    Refusal source table ⟨.invalidEscape e, span⟩
  /-- The span begins as a string does, no string stands there, and it runs to the end. -/
  | unterminatedString {span : Span} (hcovers : Covers source span)
    (hstop : span.stop = source.length)
    (hfirst : source[span.start]? = some quote ∨ source[span.start]? = some rawMark)
    (hopen : ∀ literal v, StringLiteral literal v → ¬ literal <+: source.drop span.start) :
    Refusal source table ⟨.unterminatedString, span⟩
  /-- The span is a name, and it is not bound. -/
  | undefinedVariable {span : Span} {name : String} (hcovers : Covers source span)
    (htext : span.slice source = name.toList) (hname : table.get? name = none) :
    Refusal source table ⟨.undefinedVariable name, span⟩
  /-- No operand begins at the offset, and the operator stands before it. -/
  | operandExpected {offset : Nat} {after : Option Operator} (hnext : NextAt source offset)
    (hhead : ∀ x ∈ source[offset]?, ¬ StartsOperand x)
    (hafter : ∀ op, after = some op → ∃ front gap, FinalLayout gap ∧
      source.take offset = front ++ (op.symbol.toList ++ gap)) :
    Refusal source table ⟨.operandExpected after, Span.single offset⟩
  /-- An expression stands between the parenthesis and the offset, where no parenthesis is. -/
  | unclosedGroup {offset opened : Nat} (hnext : NextAt source offset)
    (hopened : source[opened]? = some '(') (hlt : opened < offset)
    (hinner : ∃ ty, inferType ((⟨opened + 1, offset⟩ : Span).slice source) table = .ok ty)
    (hhead : source[offset]? ≠ some ')') :
    Refusal source table ⟨.unclosedGroup opened, Span.single offset⟩
  /-- The span is a parenthesis. -/
  | nestedTooDeeply {span : Span} (hcovers : Covers source span)
    (htext : span.slice source = ['(']) :
    Refusal source table ⟨.nestedTooDeeply, span⟩
  /-- The span is an expression of the type that was found, and another one was expected. It is
  that of an operand. -/
  | mismatchedTypes {span : Span} {expected found : Ty} {t : OperandTree} {o : Nat}
    (hcovers : Covers source span) (hne : expected ≠ found)
    (hfound : inferType (span.slice source) table = .ok found) (hstands : t.StandsAt source o)
    (htype : t.HasType table.scope found) (hspan : span = (t.elaborate table.scope o).span) :
    Refusal source table ⟨.mismatchedTypes expected found, span⟩

/-! ## Spans at places -/

/-- The end is reached where nothing is left. -/
theorem Place.nextAt (h : Place source c) (hbare : Bare c.rest) : NextAt source c.offset := by
  by_cases hne : c.rest = []
  · have hlength := h.reached.offset_add_length
    rw [hne] at hlength
    exact .inl hlength
  · exact .inr (h.token hbare hne)

/-- A text that stands at a place covers its span. -/
theorem Place.covers (h : Place source c) (hbare : Bare c.rest) {w behind : Text}
    (hrest : c.rest = w ++ behind) (hw : w ≠ []) :
    Covers source ⟨c.offset, c.offset + w.length⟩ where
  token := by
    refine h.token hbare ?_
    rw [hrest]
    exact List.append_ne_nil_of_left_ne_nil hw behind
  start_lt_stop := Nat.lt_add_of_pos_right (List.length_pos_iff.mpr hw)
  stop_le := by
    have hlength := h.reached.offset_add_length
    rw [hrest, List.length_append] at hlength
    show c.offset + w.length ≤ source.length
    omega

/-- A tree that stands alone, between layout, has its type. -/
theorem inferType_eq_ok {before trailing : Text} {t : ExprTree} {ty : Ty} (hb : Layout before)
    (hw : t.Written) (hn : t.nesting ≤ nestingLimit) (ht : t.HasType table.scope ty)
    (hf : FinalLayout trailing) : inferType (before ++ (t.text ++ trailing)) table = .ok ty := by
  have hread := ExprTree.run_expression t hw hn ht hb hf.stops 0
  rw [Cursor.pastLayout_of_final hf] at hread
  have hend : ∀ o, (⟨o, []⟩ : Cursor).pastLayout = ⟨o, []⟩ :=
    fun o => Cursor.pastLayout_of_bare bare_nil
  have hty := ExprTree.ty_elaborate t ht (0 + before.length) (layoutLength trailing)
  simp only [inferType, wholeExpr, expr, Cursor.start, run_bind, run_offset, Outcome.ok_andThen,
    hread, run_atEnd, hend, Cursor.atEnd, List.isEmpty_nil, if_true, run_spanSince, run_pure,
    Statement.expr, hty]

/-! ## Strings -/

/-- What an escape takes from a string at a place is a token of its own. -/
theorem Place.token_escape (h : Place source c) {w v behind : Text} {e : Char}
    (hrest : c.rest = quote :: (w ++ backslash :: e :: behind)) (hw : Spelling .plain w v) :
    Covers source ⟨c.offset + 1 + w.length, c.offset + 1 + w.length + 2⟩ ∧
      (⟨c.offset + 1 + w.length, c.offset + 1 + w.length + 2⟩ : Span).slice source
        = [backslash, e] := by
  let d : Cursor := ⟨c.offset + (quote :: w).length, backslash :: e :: behind⟩
  have hsplit : c.rest = (quote :: w) ++ d.rest := by
    rw [hrest]
    rfl
  have hreached : (Cursor.start source).Reaches d := h.reached.of_append hsplit rfl
  have hoffset : c.offset + 1 + w.length = d.offset := by
    show c.offset + 1 + w.length = c.offset + (w.length + 1)
    omega
  have hlength := hreached.offset_add_length
  have hhead := hreached.head?_rest
  have hslice : (⟨d.offset, d.offset + 2⟩ : Span).slice source = [backslash, e] :=
    hreached.slice_eq (w := [backslash, e]) rfl
  have hmode : Mode.before source d.offset = .string .plain := by
    have hready := h.ready (by simp [hrest])
    have hfront : ((Mode.code .plain).run (source.take c.offset)).Ready (quote :: w) := by
      rwa [hrest] at hready
    have hopen : (Mode.code .plain).run (quote :: w) = (Mode.string .plain).run w := rfl
    unfold Mode.before
    rw [h.reached.take_append hsplit rfl, Mode.run_append,
      hfront.run_eq (List.cons_ne_nil quote w), hopen, hw.run_string]
  rw [hoffset]
  refine ⟨⟨⟨backslash, hhead.symm, by decide, ?_⟩, Nat.lt_add_of_pos_right (by decide), ?_⟩, hslice⟩
  · unfold InComment
    rw [hmode]
    exact id
  · show d.offset + 2 ≤ source.length
    simp only [List.length_cons, d] at hlength ⊢
    omega

/-- A string that is not closed takes all that is left. -/
theorem refusal_unterminated (h : Place source c) (hbare : Bare c.rest)
    (hfirst : c.rest.head? = some quote ∨ c.rest.head? = some rawMark)
    (hread : quoted.run c = .error f d) {stop : Nat} (hstop : stop = source.length) :
    Refusal source table ⟨.unterminatedString, ⟨c.offset, stop⟩⟩ := by
  have hne : c.rest ≠ [] := by
    intro hnil
    simp [hnil] at hfirst
  have hcovers := h.covers hbare (List.append_nil _).symm hne
  rw [h.reached.offset_add_length, ← hstop] at hcovers
  rw [h.reached.head?_rest] at hfirst
  refine .unterminatedString hcovers hstop hfirst ?_
  rintro literal v hl ⟨rest, hrest⟩
  have hrest' : literal ++ rest = c.rest := hrest.trans h.reached.drop_eq
  have hnext : c.pastLayout = ⟨c.offset, literal ++ rest⟩ := by
    rw [Cursor.pastLayout_of_bare hbare, hrest']
  rw [run_quoted hnext hl] at hread
  cases hread

/-- A string in plain form is refused for an escape, or because it is not closed. -/
theorem refusal_of_quote (h : Place source c) (hbare : Bare c.rest)
    (hq : c.rest.head? = some quote) (hread : quoted.run c = .error f d) :
    Refusal source table f := by
  have hc := Cursor.eq_of_head? hq
  have hpast : c.pastLayout = ⟨c.offset, quote :: c.rest.tail⟩ := by
    rw [Cursor.pastLayout_of_bare hbare]
    exact hc
  have hbody := hread
  rw [run_quoted_quote hpast] at hbody
  rcases Outcome.andThen_eq_error.mp hbody with hbody | ⟨s, e, -, hbody⟩
  · rcases quotedBodyAt_eq_error hbody with ⟨e, n, hbad, rfl⟩ | rfl
    · obtain ⟨w, v, behind, hrest, -, hw, he, rfl⟩ := spelling_of_badEscape hbad
      have hfront : c.rest = quote :: (w ++ backslash :: e :: behind) := by
        rw [hc]
        exact congrArg (quote :: ·) hrest
      obtain ⟨hcovers, htext⟩ := h.token_escape hfront hw
      exact .invalidEscape hcovers htext he
    · refine refusal_unterminated h hbare (.inl hq) hread ?_
      have hlength := h.reached.offset_add_length
      rw [hc] at hlength
      simp only [Cursor.finish, List.length_cons] at hlength ⊢
      omega
  · cases hbody

/-- A string in raw form is refused because its quote is missing, or because it is not closed. -/
theorem refusal_of_rawMark (h : Place source c) (hbare : Bare c.rest)
    (hm : c.rest.head? = some rawMark) (hread : quoted.run c = .error f d) :
    Refusal source table f := by
  have hc := Cursor.eq_of_head? hm
  generalize c.rest.tail = t at hc
  have hpast : c.pastLayout = ⟨c.offset, rawMark :: t⟩ := by
    rw [Cursor.pastLayout_of_bare hbare]
    exact hc
  obtain ⟨gap, hgap, -, hrest, hoffset⟩ := (⟨c.offset + 1, t⟩ : Cursor).exists_layout
  have hfront : c.rest = (rawMark :: gap) ++ (⟨c.offset + 1, t⟩ : Cursor).pastLayout.rest := by
    rw [hc]
    exact congrArg (rawMark :: ·) hrest
  have hbehind : (⟨c.offset + 1, t⟩ : Cursor).pastLayout.offset
      = c.offset + (rawMark :: gap).length := by
    have hstart : (⟨c.offset + 1, t⟩ : Cursor).offset = c.offset + 1 := rfl
    rw [hoffset, hstart, List.length_cons]
    omega
  have hreached := h.reached.of_append hfront hbehind
  by_cases hq : (⟨c.offset + 1, t⟩ : Cursor).pastLayout.rest.head? = some quote
  · have he := Cursor.eq_of_head? hq
    have hbody := hread
    rw [run_quoted_rawMark hpast he] at hbody
    rcases Outcome.andThen_eq_error.mp hbody with hbody | ⟨s, e, -, hbody⟩
    · rcases quotedBodyAt_eq_error hbody with ⟨e, n, hbad, rfl⟩ | rfl
      · obtain ⟨-, -, -, -, hform, -⟩ := spelling_of_badEscape hbad
        cases hform
      · refine refusal_unterminated h hbare (.inr hm) hread ?_
        have hlength := hreached.offset_add_length
        rw [he] at hlength
        simp only [Cursor.finish, List.length_cons] at hlength hbehind ⊢
        omega
    · cases hbody
  · rw [run_quoted_rawMark_error hpast hq] at hread
    cases hread
    have hspan : (⟨c.offset + 1, t⟩ : Cursor).pastLayout.spanSince c.offset
        = ⟨c.offset, c.offset + (rawMark :: gap).length⟩ := by
      simp only [Cursor.spanSince, hbehind, Span.mk.injEq, true_and]
      omega
    rw [hspan]
    refine .rawQuoteExpected (h.covers hbare hfront (List.cons_ne_nil _ _))
      (h.reached.slice_eq hfront) hgap ?_
    rw [← hbehind, ← hreached.head?_rest]
    exact hq

/-- A string is refused for what is wrong with it. -/
theorem refusal_of_quoted (h : Place source c) (hbare : Bare c.rest)
    (hread : quoted.run c = .error f d) : Refusal source table f := by
  by_cases hq : c.rest.head? = some quote
  · exact refusal_of_quote h hbare hq hread
  · by_cases hm : c.rest.head? = some rawMark
    · exact refusal_of_rawMark h hbare hm hread
    · rw [← Cursor.pastLayout_of_bare hbare] at hq hm
      rw [run_quoted_none hq hm] at hread
      cases hread

/-! ## Places where an operand may begin -/

/-- A place that no digit touches from the left, so that a numeral there is whole. -/
structure OperandPlace (source : Text) (c : Cursor) : Prop extends Place source c where
  fresh : c.rest ≠ [] → ∀ x ∈ (source.take c.offset).getLast?, x.isDigit = false

theorem operandPlace_start (source : Text) : OperandPlace source (Cursor.start source) where
  toPlace := place_start source
  fresh _ x hx := by simp [Cursor.start] at hx

/-- No blank is a digit. -/
theorem isDigit_of_isBlank {x : Char} (h : isBlank x = true) : x.isDigit = false := by
  simp only [isBlank, Bool.or_eq_true, decide_eq_true_eq] at h
  rcases h with ((rfl | rfl) | rfl) | rfl <;> decide

/-- Layout ends with a blank. -/
theorem Layout.isDigit_getLast? {b : Text} (h : Layout b) :
    ∀ x ∈ b.getLast?, x.isDigit = false := by
  induction h with
  | nil => simp
  | @blank c b hc hb ih =>
    cases b with
    | nil =>
      intro x hx
      obtain rfl := Option.mem_some.mp hx
      exact isDigit_of_isBlank hc
    | cons d b => rwa [List.getLast?_cons_cons]
  | @comment words b hw hb ih =>
    have hback : ('/' :: '/' :: (words ++ '\n' :: b)).getLast? = ('\n' :: b).getLast? := by
      have hsplit : '/' :: '/' :: (words ++ '\n' :: b)
          = ('/' :: '/' :: words) ++ '\n' :: b := rfl
      rw [hsplit, List.getLast?_append_of_ne_nil _ (List.cons_ne_nil _ _)]
    rw [hback]
    cases b with
    | nil => simp
    | cons d b => rwa [List.getLast?_cons_cons]

theorem OperandPlace.pastLayout (h : OperandPlace source c) : OperandPlace source c.pastLayout where
  toPlace := h.toPlace.pastLayout
  fresh := by
    intro hne
    obtain ⟨b, -, hlayout, hrest, hoffset⟩ := c.exists_layout
    have hb := hlayout hne
    rw [h.reached.take_append hrest hoffset]
    cases b with
    | nil =>
      rw [List.append_nil]
      refine h.fresh ?_
      rw [hrest]
      exact hne
    | cons x b =>
      rw [List.getLast?_append_of_ne_nil _ (List.cons_ne_nil x b)]
      exact hb.isDigit_getLast?

/-- An operand may begin behind a sign that takes part in no numeral. -/
theorem Place.operandPlace {w : Text} (h : Place source c) (hrest : c.rest = w ++ d.rest)
    (hoffset : d.offset = c.offset + w.length)
    (hw : d.rest ≠ [] → ((Mode.code .plain).run w).Ready d.rest) (hne : w ≠ [])
    (hlast : ∀ x ∈ w.getLast?, x.isDigit = false) : OperandPlace source d where
  toPlace := h.step hrest hoffset hw
  fresh _ := by
    rw [h.reached.take_append hrest hoffset, List.getLast?_append_of_ne_nil _ hne]
    exact hlast

theorem OperandPlace.of_accept {ch : Char} (h : Place source c)
    (hread : (accept ch).run c = .ok true d) (hcode : Mode.ofCode .plain ch = .code .plain)
    (hdigit : ch.isDigit = false) : OperandPlace source d := by
  obtain ⟨hnext, hoffset⟩ := accept_eq_true hread
  have hrest : c.pastLayout.rest = [ch] ++ d.rest := by rw [hnext]; rfl
  refine h.pastLayout.operandPlace hrest hoffset (fun _ => .inl hcode) (List.cons_ne_nil ch []) ?_
  intro x hx
  obtain rfl := Option.mem_some.mp hx
  exact hdigit

/-- The symbol of an operator takes part in no numeral. -/
theorem isDigit_symbol : ∀ op ∈ Operator.binary,
    op.symbol.toList.isEmpty = false ∧ op.symbol.toList.any Char.isDigit = false := by
  decide

/-- An operand may begin behind an operator, with the symbol right in front of it. -/
theorem operandPlace_of_operator {op : Operator} (h : Place source c)
    (hread : (token .operator).run c = .ok (some op) d) :
    OperandPlace source d ∧ ∃ front, source.take d.offset = front ++ op.symbol.toList := by
  obtain ⟨hop, hslash, b, hb, hrest, hoffset⟩ := exists_layout_of_operator hread
  obtain ⟨hempty, hdigits⟩ := isDigit_symbol op hop
  have hne : op.symbol.toList ≠ [] := List.isEmpty_eq_false_iff.mp hempty
  have hrest' : c.rest = (b ++ op.symbol.toList) ++ d.rest := by
    rw [hrest, List.append_assoc]
  have hoffset' : d.offset = c.offset + (b ++ op.symbol.toList).length := by
    rw [hoffset, List.length_append, Nat.add_assoc]
  refine ⟨h.operandPlace hrest' hoffset' ?_ (List.append_ne_nil_of_right_ne_nil b hne) ?_,
    source.take c.offset ++ b, ?_⟩
  · intro _
    rw [Mode.run_append, hb.neutral]
    exact ready_symbol hop hslash
  · rw [List.getLast?_append_of_ne_nil _ hne]
    intro x hx
    exact Bool.eq_false_iff.mpr (List.any_eq_false.mp hdigits x (List.mem_of_getLast? hx))
  · rw [h.reached.take_append hrest' hoffset', List.append_assoc]

theorem OperandTree.Found.place {scope : Scope} {depth : Nat} {x : Operand} {t : OperandTree}
    (h : OperandTree.Found scope depth c d x t) (hc : Place source c) : Place source d :=
  hc.pastLayout.neutral h.rest_eq h.offset_eq (OperandTree.neutral h.written)

/-- What is read as an expression has a type if it is read alone. -/
theorem ExprTree.Found.inferType_slice {depth : Nat} {x : Expr} {t : ExprTree} {trailing : Text}
    (h : ExprTree.Found table.scope depth c d x t trailing) (hdepth : depth ≤ nestingLimit)
    (hc : Place source c) :
    Place source d ∧
      ∃ ty, inferType ((⟨c.offset, d.offset⟩ : Span).slice source) table = .ok ty := by
  obtain ⟨b, hb, hrest, hstart⟩ := h.exists_layout
  obtain ⟨ty, hty⟩ := h.typed
  have hrest' : c.rest = (b ++ (t.text ++ trailing)) ++ d.rest := by
    rw [hrest]
    simp only [List.append_assoc]
  have hoffset : d.offset = c.offset + (b ++ (t.text ++ trailing)).length := by
    have hend := h.offset_eq
    simp only [List.length_append]
    omega
  refine ⟨hc.step hrest' hoffset ?_, ty, ?_⟩
  · intro hne
    exact .inl (hb.neutral.append ((ExprTree.neutral h.written).append
      (h.trailing_layout hne).neutral))
  · rw [hoffset, hc.reached.slice_eq hrest']
    exact inferType_eq_ok hb h.written (Nat.le_trans h.nesting hdepth) hty h.trailing_final

/-- The layout in front of the parenthesis that closes an operand. -/
def OperandTree.beforeClosing : OperandTree → Text
  | .group _ _ closing => closing
  | .string _ _ => []
  | .integer _ => []
  | .name _ => []

/-- The span of an operand is that of an expression in its text, with the layout that stands behind
the expression: of the operand itself, or of what stands in its parentheses. -/
theorem OperandTree.exists_spanned {scope : Scope} {t : OperandTree} {ty : Ty} (hw : t.Written)
    (ht : t.HasType scope ty) :
    ∃ before inner behind, t.text = before ++ ((inner.text ++ t.beforeClosing) ++ behind) ∧
      Neutral before ∧ Layout t.beforeClosing ∧ inner.Written ∧ inner.nesting ≤ t.nesting ∧
      ExprTree.HasType scope inner ty ∧ ∀ o, (t.elaborate scope o).span
        = ⟨o + before.length, o + before.length + (inner.text ++ t.beforeClosing).length⟩ := by
  -- a literal or a name is an expression without operators
  have hleaf : ∀ u : OperandTree, u.Written → u.HasType scope ty → u.beforeClosing = [] →
      (∀ o, (u.elaborate scope o).span = ⟨o, o + u.text.length⟩) →
      ∃ before inner behind, u.text = before ++ ((inner.text ++ u.beforeClosing) ++ behind) ∧
        Neutral before ∧ Layout u.beforeClosing ∧ inner.Written ∧ inner.nesting ≤ u.nesting ∧
        ExprTree.HasType scope inner ty ∧ ∀ o, (u.elaborate scope o).span
          = ⟨o + before.length, o + before.length + (inner.text ++ u.beforeClosing).length⟩ := by
    intro u hu htype hclosing hspan
    rw [hclosing]
    refine ⟨[], .mk u .nil, [], ?_, .nil, .nil, ⟨hu, trivial⟩, ?_, ⟨htype, trivial⟩, ?_⟩
    · simp [ExprTree.text, ChainTree.text]
    · simp [ExprTree.nesting, ChainTree.nesting]
    · intro o
      simp [hspan, ExprTree.text, ChainTree.text]
  cases t with
  | group opening inner closing =>
    obtain ⟨hopening, hinner, hclosing⟩ := hw
    refine ⟨'(' :: opening, inner, [')'], ?_, .cons rfl hopening.neutral, hclosing, hinner,
      Nat.le_succ _, ht, ?_⟩
    · simp [OperandTree.text, OperandTree.beforeClosing]
    · intro o
      simp only [OperandTree.elaborate, Operand.span, ExprTree.span_elaborate, List.length_cons,
        OperandTree.beforeClosing, List.length_append, Span.mk.injEq]
      omega
  | string literal contents => exact hleaf _ hw ht rfl fun _ => rfl
  | integer digits => exact hleaf _ hw ht rfl fun _ => rfl
  | name letters => exact hleaf _ hw ht rfl fun _ => rfl

/-! ## The rules are all that is used -/

/-- A numeral is refused if its value is too large. -/
theorem refusal_of_integer (h : OperandPlace source c) (hbare : Bare c.rest)
    (hread : integer.run c = .error f d) : Refusal source table f := by
  obtain ⟨digits, n, hdigits, hvalue, rfl⟩ := integer_eq_error hread
  rw [Cursor.pastLayout_of_bare hbare] at hdigits ⊢
  obtain ⟨hrun, rfl, rest, hrest⟩ := run_of_read hdigits
  have hne : digits ≠ [] := by
    obtain ⟨x, part, rfl, -⟩ := hrun
    exact List.cons_ne_nil x part
  have hfresh := h.fresh (by rw [hrest]; exact List.append_ne_nil_of_left_ne_nil hne rest)
  have hreached := h.reached.of_append (d := ⟨c.offset + digits.length, rest⟩) hrest rfl
  refine .integerOutOfRange (h.covers hbare hrest hne) (h.reached.slice_eq hrest) hrun hvalue
    hfresh ?_
  rw [← hreached.head?_rest]
  exact stop_of_read hdigits hrest

/-- A name is refused if it is not bound. -/
theorem refusal_of_name {name : String} (h : Place source c) (hbare : Bare c.rest)
    (hread : (token .name).run c = .ok (some name) d) (hname : table.get? name = none) :
    Refusal source table ⟨.undefinedVariable name, d.spanSince c.offset⟩ := by
  obtain ⟨letters, hletters, rfl, hrest, hoffset⟩ := name_eq_some hread
  rw [Cursor.pastLayout_of_bare hbare] at hrest hoffset
  have hne : letters ≠ [] := by
    obtain ⟨x, part, rfl, -⟩ := hletters
    exact List.cons_ne_nil x part
  have hspan : d.spanSince c.offset = ⟨c.offset, c.offset + letters.length⟩ := by
    simp only [Cursor.spanSince, Span.mk.injEq, true_and]
    omega
  rw [hspan]
  refine .undefinedVariable (h.covers hbare hrest hne) ?_ hname
  rw [h.reached.slice_eq hrest, String.toList_ofList]

/-- An operand is refused if its type is not the one that is expected. -/
theorem refusal_of_mismatch {depth : Nat} {x : Operand} {t : OperandTree} {expected : Ty}
    (h : OperandTree.Found table.scope depth c d x t) (hdepth : depth ≤ nestingLimit)
    (hc : Place source c) (hne : x.ty ≠ expected) :
    Refusal source table ⟨.mismatchedTypes expected x.ty, x.span⟩ := by
  obtain ⟨ty, hty⟩ := h.typed
  have hxty : x.ty = ty := by
    rw [h.eq_elaborate]
    exact OperandTree.ty_elaborate t hty _
  obtain ⟨before, inner, behind, htext, hbefore, hclosing, hinner, hnesting, hinnerType,
    hspan⟩ := OperandTree.exists_spanned h.written hty
  obtain ⟨e, hrest, hoffset⟩ : ∃ e : Cursor,
      e.rest = (inner.text ++ t.beforeClosing) ++ (behind ++ d.rest) ∧
        e.offset = c.pastLayout.offset + before.length := ⟨⟨_, _⟩, rfl, rfl⟩
  have hplace := hc.pastLayout
  have hfront : c.pastLayout.rest = before ++ e.rest := by
    rw [h.rest_eq, htext, hrest]
    simp only [List.append_assoc]
  have he : Place source e := hplace.neutral hfront hoffset hbefore
  have hbare : Bare e.rest := by
    rw [hrest, List.append_assoc]
    exact ExprTree.bare hinner _
  have hne' : inner.text ++ t.beforeClosing ≠ [] := by
    obtain ⟨y, tail, hhead, -⟩ := ExprTree.head hinner
    simp [hhead]
  have hx : x.span = ⟨e.offset, e.offset + (inner.text ++ t.beforeClosing).length⟩ := by
    rw [h.eq_elaborate, hspan, hoffset]
  have hstands : t.StandsAt source c.pastLayout.offset := by
    have hdrop := hplace.reached.drop_eq
    refine ⟨?_, ?_, h.written⟩
    · rwa [hdrop]
    · rw [hdrop, h.rest_eq]
      exact List.prefix_append ..
  have hcovers := he.covers hbare hrest hne'
  have hn : inner.nesting ≤ nestingLimit := Nat.le_trans hnesting (Nat.le_trans h.nesting hdepth)
  have halone : inferType ([] ++ (inner.text ++ t.beforeClosing)) table = .ok ty :=
    inferType_eq_ok .nil hinner hn hinnerType (.closed hclosing)
  rw [List.nil_append, ← he.reached.slice_eq hrest] at halone
  rw [← hx] at hcovers halone
  rw [hxty] at hne ⊢
  refine .mismatchedTypes hcovers (Ne.symm hne) halone hstands hty ?_
  rw [h.eq_elaborate]

/-- A reader of operands takes what begins as one, and refuses it by the rules. -/
structure Explains (source : Text) (table : SymbolTable) (operand : Reader (Option Operand)) :
    Prop where
  absent : ∀ ⦃c d⦄, operand.run c = .ok none d →
    d = c.pastLayout ∧ ∀ x ∈ c.pastLayout.rest.head?, ¬ StartsOperand x
  refused : ∀ ⦃c d f⦄, OperandPlace source c → operand.run c = .error f d →
    Refusal source table f

section Readers

variable {operand : Reader (Option Operand)} {depth : Nat}

theorem Explains.required (h : Explains source table operand) (hc : OperandPlace source c)
    {after : Option Operator}
    (hafter : ∀ op, after = some op → ∃ front, source.take c.offset = front ++ op.symbol.toList)
    (hread : (required operand after).run c = .error f d) : Refusal source table f := by
  rcases required_eq_error hread with hrefused | ⟨e, hnone, rfl⟩
  · exact h.refused hc hrefused
  · obtain ⟨rfl, hhead⟩ := h.absent hnone
    rw [Cursor.pastLayout_pastLayout]
    have hplace := hc.toPlace.pastLayout
    rw [hplace.reached.head?_rest] at hhead
    refine .operandExpected (hplace.nextAt c.bare_pastLayout) hhead ?_
    intro op hop
    obtain ⟨front, hfront⟩ := hafter op hop
    obtain ⟨gap, hgap, -, hrest, hoffset⟩ := c.exists_layout
    refine ⟨front, gap, hgap, ?_⟩
    rw [hc.reached.take_append hrest hoffset, hfront, List.append_assoc]

theorem Explains.link (h : Explains source table operand)
    (hfinds : Finds table.scope depth operand) (hdepth : depth ≤ nestingLimit)
    (hc : Place source c) {ty : Ty} (hread : (link operand ty).run c = .error f d) :
    Refusal source table f := by
  obtain ⟨op, e, hop, hread⟩ := link_eq_error hread
  obtain ⟨he, hfront⟩ := operandPlace_of_operator hc hop
  rcases hread with hread | ⟨x, hx, hty, rfl⟩
  · refine h.required he ?_ hread
    rintro _ ⟨rfl⟩
    exact hfront
  · obtain ⟨t, ht⟩ := hfinds hx
    exact refusal_of_mismatch ht hdepth he.toPlace hty

/-- Behind an operator and its operand there is a place again. -/
theorem place_of_link (hfinds : Finds table.scope depth operand) (hc : Place source c) {ty : Ty}
    {link : Operator × Operand} (hread : (Reader.link operand ty).run c = .ok (some link) d) :
    Place source d := by
  obtain ⟨e, hop, hx, -⟩ := link_eq_some hread
  obtain ⟨t, ht⟩ := hfinds hx
  exact ht.place (operandPlace_of_operator hc hop).1.toPlace

theorem Explains.many (h : Explains source table operand)
    (hfinds : Finds table.scope depth operand) (hdepth : depth ≤ nestingLimit)
    (hc : Place source c) {ty : Ty}
    (hread : (many (Reader.link operand ty) (consumes_link operand ty)).run c = .error f d) :
    Refusal source table f := by
  induction hn : c.rest.length using Nat.strongRecOn generalizing c with
  | _ n ih =>
    rw [run_many] at hread
    rcases Outcome.andThen_eq_error.mp hread with hlink | ⟨found, e, hlink, hread⟩
    · exact h.link hfinds hdepth hc hlink
    · obtain _ | link := found
      · cases hread
      · rcases Outcome.andThen_eq_error.mp hread with hlater | ⟨links, e', -, hread⟩
        · have hshorter : e.rest.length < n := by
            rw [← hn]
            exact consumes_link operand ty hlink
          exact ih e.rest.length hshorter (place_of_link hfinds hc hlink) hlater rfl
        · cases hread

theorem Explains.expression (h : Explains source table operand)
    (hfinds : Finds table.scope depth operand) (hdepth : depth ≤ nestingLimit)
    (hc : OperandPlace source c) (hread : (expression operand).run c = .error f d) :
    Refusal source table f := by
  rcases expression_eq_error hread with hfirst | ⟨first, e, hfirst, hlinks⟩
  · refine h.required hc.pastLayout ?_ hfirst
    intro op hop
    cases hop
  · obtain ⟨t, ht⟩ := hfinds hfirst
    exact h.many hfinds hdepth (ht.place hc.toPlace.pastLayout) hlinks

/-- A group is refused inside, or because it is not closed. -/
theorem Explains.group (h : Explains source table operand)
    (hfinds : Finds table.scope depth operand) (hdepth : depth ≤ nestingLimit)
    (hc : OperandPlace source c) {e : Cursor}
    (hparen : (accept '(').run c.pastLayout = .ok true e)
    (hread : (group operand c.pastLayout.offset).run e = .error f d) : Refusal source table f := by
  have hplace := hc.toPlace.pastLayout
  have he := OperandPlace.of_accept hplace hparen rfl (by decide)
  rcases group_eq_error hread with hinner | ⟨inner, g, hinner, hhead, rfl⟩
  · exact h.expression hfinds hdepth he hinner
  · obtain ⟨t, trailing, ht⟩ := hfinds.expression hinner
    obtain ⟨hopen, hopenOffset⟩ := accept_eq_true hparen
    rw [Cursor.pastLayout_pastLayout] at hopen hopenOffset
    obtain ⟨hg, hty⟩ := ht.inferType_slice hdepth he.toPlace
    rw [Cursor.pastLayout_of_bare ht.bare] at hhead ⊢
    rw [hopenOffset] at hty
    have hreach : e.offset ≤ g.offset := by
      have hstart := e.reaches_pastLayout.offset_le
      have hend := ht.offset_eq
      omega
    refine .unclosedGroup (hg.nextAt ht.bare) ?_ (by omega) hty ?_
    · rw [← hplace.reached.head?_rest, hopen]
      rfl
    · rwa [← hg.reached.head?_rest]

end Readers

/-- An operand is refused by the rules if what comes after a parenthesis is. -/
theorem explains_operandWith {opened : Nat → Reader Operand}
    (h : ∀ ⦃c e d f⦄, OperandPlace source c → (accept '(').run c.pastLayout = .ok true e →
      (opened c.pastLayout.offset).run e = .error f d → Refusal source table f) :
    Explains source table (operandWith table opened) where
  absent _ _ hread := operandWith_eq_none hread
  refused := by
    intro c d f hc hread
    have hp := hc.pastLayout
    rcases operandWith_eq_error hread with ⟨e, hparen, hopened⟩ | hquoted | hinteger |
      ⟨name, e, hname, hget, rfl⟩
    · exact h hc hparen hopened
    · exact refusal_of_quoted hp.toPlace c.bare_pastLayout hquoted
    · exact refusal_of_integer hp c.bare_pastLayout hinteger
    · exact refusal_of_name hp.toPlace c.bare_pastLayout hname hget

/-- With any number of groups that may be open, an operand is refused by the rules. -/
theorem explains_operand (source : Text) (table : SymbolTable) {depth : Nat}
    (hdepth : depth ≤ nestingLimit) : Explains source table (operand table depth) := by
  induction depth with
  | zero =>
    refine explains_operandWith ?_
    intro c e d f hc hparen hread
    cases hread
    have hplace := hc.toPlace.pastLayout
    obtain ⟨hopen, -⟩ := accept_eq_true hparen
    rw [Cursor.pastLayout_pastLayout] at hopen
    have hrest : c.pastLayout.rest = ['('] ++ e.rest := by rw [hopen]; rfl
    exact .nestedTooDeeply (hplace.covers c.bare_pastLayout hrest (List.cons_ne_nil _ _))
      (hplace.reached.slice_eq hrest)
  | succ depth ih =>
    refine explains_operandWith ?_
    intro c e d f hc hparen hread
    have hless : depth ≤ nestingLimit := Nat.le_of_succ_le hdepth
    exact (ih hless).group (finds_operand table depth) hless hc hparen hread

/-- An expression is refused by the rules. -/
theorem refusal_of_expr (hc : OperandPlace source c) (hread : (expr table).run c = .error f d) :
    Refusal source table f :=
  (explains_operand source table (Nat.le_refl _)).expression (finds_operand table nestingLimit)
    (Nat.le_refl _) hc hread

/-- An expression that should stand alone is refused by the rules, or because text is left. -/
theorem refusal_of_refused
    (h : Code.ofExpression source table = .error f ∨ inferType source table = .error f) :
    Refusal source table f ∨ f.cause = .inputAfterExpression := by
  obtain ⟨d, hread⟩ := exists_wholeExpr_eq_error h
  rcases wholeExpr_eq_error hread with hexpr | ⟨x, e, -, -, rfl⟩
  · exact .inl (refusal_of_expr (operandPlace_start source) hexpr)
  · exact .inr rfl

end Grammar

end Bindcheck
