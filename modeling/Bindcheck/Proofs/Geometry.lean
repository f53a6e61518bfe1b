/-
Bindcheck.Proofs.Geometry — where the parts of a program stand.

Spans are taken while reading, before and behind layout that is skipped
on the way, and an operand in parentheses has the span of what stands
between them. `Code.Laid` says how the spans of a program nevertheless
fit together, and what stands in the gaps:

* `Assignment.Laid` — a statement spells its name first and ends with its
  semicolon, where its expression ends.
* `Expr.Laid` — operands stand inside their expression, one behind the
  other. `Operand.OpensAt` and `Operand.EndsAt` put the parentheses of a
  group back around its span.
* `Joined` — between two operands there is one operator, and layout.

`LocatedExpr` gives the tree whose text stands at a span, at any depth.
So each fact is about one tree that stands at an offset of the source,
and `ChainTree.laid` alone is an induction, along the operands.
-/
import Bindcheck.Proofs.Reparse

namespace Bindcheck

open Grammar

/-! ## How spans fit together -/

/-- An operand begins at an offset. A group begins with its parenthesis, and layout follows. -/
def Operand.OpensAt (source : Text) (offset : Nat) : Operand → Prop
  | .group inner =>
    source[offset]? = some '(' ∧ offset < inner.span.start ∧
      Layout ((⟨offset + 1, inner.span.start⟩ : Span).slice source)
  | .literal _ span => offset = span.start
  | .var _ _ span => offset = span.start

/-- An operand ends at an offset. A group ends with its parenthesis, right behind its span. -/
def Operand.EndsAt (source : Text) (offset : Nat) : Operand → Prop
  | .group inner => source[inner.span.stop]? = some ')' ∧ offset = inner.span.stop + 1
  | .literal _ span => offset = span.stop
  | .var _ _ span => offset = span.stop

/-- Between the ends of two operands stands an operator, with layout on both sides. -/
def Joined (source : Text) (x : Operand) (op : Operator) (y : Operand) : Prop :=
  x.span.stop < y.span.start ∧
    ∃ p q before after, x.EndsAt source p ∧ y.OpensAt source q ∧ p < q ∧ Layout before ∧
      Layout after ∧ (⟨p, q⟩ : Span).slice source = before ++ (op.symbol.toList ++ after)

/-- Each operand of a chain is joined to the one before it, the first to a given one. -/
def Chain.Laid (source : Text) (x : Operand) : Chain → Prop
  | .nil => True
  | .cons op y rest => Joined source x op y ∧ rest.Laid source y

/-- How the operands of an expression stand in its span. -/
structure Expr.Laid (source : Text) (e : Expr) : Prop where
  stop_le : e.span.stop ≤ source.length
  /-- The expression begins where its first operand does. -/
  opens : e.first.OpensAt source e.span.start
  /-- Each operand stands in the span, with its parentheses, and covers some text. -/
  inside : ∀ x ∈ e.operands, x.span.start < x.span.stop ∧
    ∃ p q, x.OpensAt source p ∧ x.EndsAt source q ∧
      e.span.start ≤ p ∧ p ≤ x.span.start ∧ x.span.stop ≤ q ∧ q ≤ e.span.stop
  /-- Between one operand and the next there is their operator. -/
  joined : e.rest.Laid source e.first

/-- How a statement stands in its span. -/
structure Assignment.Laid (source : Text) (a : Assignment) : Prop where
  start_lt_stop : a.span.start < a.span.stop
  stop_le : a.span.stop ≤ source.length
  name : (⟨a.span.start, a.span.start + a.name.toList.length⟩ : Span).slice source = a.name.toList
  semicolon : source[a.expr.span.stop]? = some ';'
  stop_eq : a.span.stop = a.expr.span.stop + 1

/-- How the statements of a program stand in its source, and all expressions in them. -/
structure Code.Laid (source : Text) (code : Code) : Prop where
  statement : ∀ s ∈ code.statements, ∃ a, s = .assignment a ∧ a.Laid source
  ordered : code.statements.Pairwise fun s t => s.span.stop ≤ t.span.start
  expr : ∀ s ∈ code.statements, ∀ e, s.expr.Contains e → e.Laid source

/-! ## Texts at an offset -/

section Standing

variable {source w rest : Text} {o : Nat} {x : Char}

theorem drop_add_length (h : source.drop o = w ++ rest) : source.drop (o + w.length) = rest := by
  rw [← List.drop_drop, h, List.drop_left]

theorem slice_of_drop (h : source.drop o = w ++ rest) :
    (⟨o, o + w.length⟩ : Span).slice source = w := by
  simp [Span.slice, h]

theorem getElem?_of_drop (h : source.drop o = x :: rest) : source[o]? = some x := by
  rw [← List.head?_drop, h, List.head?_cons]

theorem add_length_le (h : source.drop o = w ++ rest) (ho : o ≤ source.length) :
    o + w.length ≤ source.length := by
  have hlength := congrArg List.length h
  simp only [List.length_drop, List.length_append] at hlength
  omega

end Standing

namespace Grammar

variable {source rest : Text} {scope : Scope} {ty : Ty} {o : Nat}

/-! ## Operands and chains -/

/-- The text of a tree is not empty. -/
theorem OperandTree.length_pos {t : OperandTree} (h : t.Written) : 0 < t.text.length := by
  obtain ⟨c, tail, htext, -⟩ := OperandTree.head h
  simp [htext]

theorem ExprTree.length_pos {t : ExprTree} (h : t.Written) : 0 < t.text.length := by
  obtain ⟨c, tail, htext, -⟩ := ExprTree.head h
  simp [htext]

/-- An operand begins where its text does. -/
theorem OperandTree.opensAt {t : OperandTree} (hw : t.Written)
    (h : source.drop o = t.text ++ rest) : (t.elaborate scope o).OpensAt source o := by
  cases t with
  | group opening inner closing =>
    have hopen : source.drop o
        = '(' :: (opening ++ (inner.text ++ (closing ++ ')' :: rest))) := by
      simp [h, OperandTree.text]
    have hinner : source.drop (o + 1) = opening ++ (inner.text ++ (closing ++ ')' :: rest)) :=
      drop_add_length (w := ['(']) hopen
    refine ⟨getElem?_of_drop hopen, ?_, ?_⟩
    · simp [ExprTree.span_elaborate]
      omega
    · rw [ExprTree.span_elaborate, slice_of_drop hinner]
      exact hw.1
  | string literal contents => rfl
  | integer digits => rfl
  | name letters => rfl

/-- An operand ends where its text does. -/
theorem OperandTree.endsAt {t : OperandTree} (h : source.drop o = t.text ++ rest) :
    (t.elaborate scope o).EndsAt source (o + t.text.length) := by
  cases t with
  | group opening inner closing =>
    have hclose : source.drop (o + ('(' :: (opening ++ (inner.text ++ closing))).length)
        = ')' :: rest := by
      apply drop_add_length
      simp [h, OperandTree.text]
    have hstop : o + 1 + opening.length + (inner.text.length + closing.length)
        = o + ('(' :: (opening ++ (inner.text ++ closing))).length := by
      simp
      omega
    refine ⟨?_, ?_⟩
    · rw [ExprTree.span_elaborate, hstop]
      exact getElem?_of_drop hclose
    · rw [ExprTree.span_elaborate]
      simp [OperandTree.text]
      omega
  | string literal contents => rfl
  | integer digits => rfl
  | name letters => rfl

/-- The span of an operand covers some of its text. -/
theorem OperandTree.span_bounds {t : OperandTree} (hw : t.Written) (scope : Scope) (o : Nat) :
    let span := (t.elaborate scope o).span
    o ≤ span.start ∧ span.start < span.stop ∧ span.stop ≤ o + t.text.length := by
  have hpos := OperandTree.length_pos hw
  cases t with
  | group opening inner closing =>
    have hinner := ExprTree.length_pos hw.2.1
    simp [OperandTree.elaborate, Operand.span, ExprTree.span_elaborate, OperandTree.text]
    omega
  | string literal contents =>
    simpa [OperandTree.elaborate, Operand.span, OperandTree.text] using hpos
  | integer digits => simpa [OperandTree.elaborate, Operand.span, OperandTree.text] using hpos
  | name letters => simpa [OperandTree.elaborate, Operand.span, OperandTree.text] using hpos

/-- Behind an operand the operands of a chain are joined, one to the other. -/
theorem ChainTree.laid (t : ChainTree) (hw : t.Written) {x : Operand} {p : Nat}
    (hx : x.EndsAt source p) (hstop : x.span.stop ≤ p) (h : source.drop p = t.text ++ rest) :
    (t.elaborate scope p).Laid source x := by
  match t with
  | .nil => trivial
  | .cons before op after operand links =>
    obtain ⟨hbefore, hop, -, hafter, hoperand, hlinks⟩ := hw
    obtain ⟨c, tail, hsymbol, -⟩ := symbol_head hop
    let gap := before ++ (op.symbol.toList ++ after)
    have hgap : source.drop p = gap ++ (operand.text ++ (links.text ++ rest)) := by
      simp [h, gap, ChainTree.text]
    have hopened : p + before.length + op.symbol.toList.length + after.length
        = p + gap.length := by
      simp only [gap, List.length_append]
      omega
    have hpos : 0 < gap.length := by
      simp only [gap, hsymbol, List.length_append, List.length_cons]
      omega
    have hnext := drop_add_length hgap
    have hbounds := OperandTree.span_bounds hoperand scope (p + gap.length)
    simp only [ChainTree.elaborate, hopened, Chain.Laid]
    refine ⟨⟨by omega, p, p + gap.length, before, after, hx, OperandTree.opensAt hoperand hnext,
      by omega, hbefore, hafter, slice_of_drop hgap⟩, ?_⟩
    exact ChainTree.laid links hlinks (OperandTree.endsAt hnext) hbounds.2.2
      (drop_add_length hnext)

/-! ## Expressions -/

/-- A located expression is laid out in its span. -/
theorem LocatedExpr.laid {e : Expr} (h : LocatedExpr scope ty (Cursor.start source) e) :
    e.Laid source := by
  obtain ⟨t, before, trailing, behind, hrest, hb, hw, hn, ht, rfl⟩ := h
  have hsource : source = before ++ (t.text ++ (trailing ++ behind)) := hrest
  have hoffset : (Cursor.start source).offset + before.length = before.length := Nat.zero_add _
  have hdrop : source.drop before.length = t.text ++ (trailing ++ behind) := by simp [hsource]
  have hlength := congrArg List.length hsource
  simp only [List.length_append] at hlength
  rw [hoffset]
  cases t with
  | mk first links =>
    have hfirst : source.drop before.length
        = first.text ++ (links.text ++ (trailing ++ behind)) := by
      simp [hdrop, ExprTree.text]
    constructor
    case stop_le =>
      simp only [ExprTree.span_elaborate]
      omega
    case opens => exact OperandTree.opensAt hw.1 hfirst
    case inside =>
      intro x hx
      obtain ⟨t', before', behind', hrest', hw', -, -, rfl⟩ := ExprTree.located hw hn ht hx
      have htext : (ExprTree.mk first links).text = before' ++ (t'.text ++ behind') := hrest'
      have hstart : source.drop (before.length + before'.length)
          = t'.text ++ (behind' ++ (trailing ++ behind)) := by
        apply drop_add_length
        rw [hdrop, htext]
        simp
      have hbounds := OperandTree.span_bounds hw' scope (before.length + before'.length)
      have hinside := congrArg List.length htext
      simp only [List.length_append] at hinside
      simp only [ExprTree.span_elaborate]
      refine ⟨hbounds.2.1, _, _, OperandTree.opensAt hw' hstart, OperandTree.endsAt hstart, ?_,
        hbounds.1, hbounds.2.2, ?_⟩ <;> omega
    case joined =>
      exact ChainTree.laid links hw.2 (OperandTree.endsAt hfirst)
        (OperandTree.span_bounds hw.1 scope _).2.2 (drop_add_length hfirst)

/-! ## Statements -/

/-- An assignment is laid out where its text stands. -/
theorem AssignmentTree.laid {t : AssignmentTree} (ho : o ≤ source.length)
    (h : source.drop o = t.text ++ rest) : (t.elaborate scope o).Laid source := by
  let front := t.before ++ (t.name ++ (t.beforeSign ++ '=' ::
    (t.afterSign ++ (t.expr.text ++ t.beforeEnd))))
  have htext : t.text = front ++ [';'] := by
    simp [front, AssignmentTree.text, AssignmentTree.tail]
  have hend : source.drop (o + front.length) = ';' :: rest := by
    apply drop_add_length
    simp [h, htext]
  have hstop : (t.elaborate scope o).expr.span.stop = o + front.length := by
    simp [AssignmentTree.elaborate, AssignmentTree.exprStart, ExprTree.span_elaborate, front]
    omega
  have hfront : t.before.length ≤ front.length := by simp [front]
  have hlength : (t.elaborate scope o).span.stop = o + (front.length + 1) := by
    simp [AssignmentTree.elaborate, htext]
  constructor
  case start_lt_stop =>
    rw [hlength]
    show o + t.before.length < _
    omega
  case stop_le => exact add_length_le h ho
  case name =>
    have hname : source.drop (o + t.before.length) = t.name ++ (t.tail ++ rest) := by
      apply drop_add_length
      simp [h, AssignmentTree.text]
    simpa [AssignmentTree.elaborate, AssignmentTree.target] using slice_of_drop hname
  case semicolon =>
    rw [hstop]
    exact getElem?_of_drop hend
  case stop_eq =>
    rw [hlength, hstop]
    omega

/-- Assignments stand one behind the other, from the offset on at which the first begins. -/
theorem pairwise_elaborateAll (scope : Scope) (o : Nat) (trees : List AssignmentTree) :
    ((elaborateAll scope o trees).Pairwise fun a b => a.span.stop ≤ b.span.start) ∧
      ∀ a ∈ elaborateAll scope o trees, o ≤ a.span.start := by
  induction trees generalizing scope o with
  | nil => simp [elaborateAll]
  | cons t trees ih =>
    obtain ⟨hordered, hbehind⟩ := ih
      (scope.bind t.target (t.elaborate scope o).expr.ty) (o + t.text.length)
    refine ⟨List.pairwise_cons.mpr ⟨hbehind, hordered⟩, ?_⟩
    intro a ha
    rcases List.mem_cons.mp ha with rfl | ha
    · exact Nat.le_add_right o t.before.length
    · exact Nat.le_trans (Nat.le_add_right o _) (hbehind a ha)

/-- Assignments are laid out where their texts stand. -/
theorem laid_elaborateAll {trees : List AssignmentTree} (ho : o ≤ source.length)
    (h : source.drop o = trees.flatMap AssignmentTree.text ++ rest) :
    ∀ a ∈ elaborateAll scope o trees, a.Laid source := by
  induction trees generalizing scope o with
  | nil => simp [elaborateAll]
  | cons t trees ih =>
    rw [List.flatMap_cons, List.append_assoc] at h
    intro a ha
    rcases List.mem_cons.mp ha with rfl | ha
    · exact AssignmentTree.laid ho h
    · exact ih (add_length_le h ho) (drop_add_length h) a ha

end Grammar

/-- The statements of a program, and all expressions in them, are laid out in its source. -/
theorem laid_ofProgram {source : Text} {code : Code} (h : Code.ofProgram source = .ok code) :
    code.Laid source := by
  obtain ⟨d⟩ := exists_derivation h
  obtain ⟨assignments, hassignments, -, hlocated⟩ := exists_located h
  have hstatements : code.statements = (elaborateAll (fun _ => none) 0 d.assignments).map
      .assignment := by
    rw [d.ofProgram_eq] at h
    cases h
    rfl
  constructor
  case statement =>
    intro s hs
    rw [hstatements] at hs
    obtain ⟨a, ha, rfl⟩ := List.mem_map.mp hs
    have hsource : source.drop 0 = d.assignments.flatMap AssignmentTree.text ++ d.trailing :=
      d.text_eq.symm
    exact ⟨a, rfl, laid_elaborateAll (Nat.zero_le _) hsource a ha⟩
  case ordered =>
    rw [hstatements]
    exact List.pairwise_map.mpr (pairwise_elaborateAll _ 0 d.assignments).1
  case expr =>
    intro s hs e he
    rw [hassignments] at hs
    obtain ⟨a, ha, rfl⟩ := List.mem_map.mp hs
    obtain ⟨k, hk⟩ := List.mem_iff_getElem?.mp ha
    exact ((hlocated k a hk).contains he).laid

/-- On the left of a minus there is a group, whose expression stands behind a comment that opens
one more parenthesis. -/
theorem laid_around_group :
    ∃ code, Code.ofProgram "a=1; b=(//(\n a+2 ) - 3;".toList = .ok code ∧
      code.Laid "a=1; b=(//(\n a+2 ) - 3;".toList := by
  have hcode : Code.ofProgram "a=1; b=(//(\n a+2 ) - 3;".toList = .ok
      ⟨[.assignment ⟨"a", .mk (.literal (.int 1) ⟨2, 3⟩) .nil ⟨2, 3⟩, ⟨0, 4⟩⟩,
        .assignment ⟨"b", .mk (.group (.mk (.var "a" .int ⟨13, 14⟩)
            (.cons .add (.literal (.int 2) ⟨15, 16⟩) .nil) ⟨13, 17⟩))
          (.cons .subtract (.literal (.int 3) ⟨21, 22⟩) .nil) ⟨7, 22⟩, ⟨5, 23⟩⟩],
        .ofList [("a", ⟨some "a", .int⟩), ("b", ⟨some "b", .int⟩)]⟩ := by
    decide +kernel
  exact ⟨_, hcode, laid_ofProgram hcode⟩

end Bindcheck
