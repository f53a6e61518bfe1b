/-
Bindcheck.Proofs.Refusal.Operand — where a failure for types points.

A failure for types points at an operand, and is meant to mark it from
its first token to its last: `Tight`. The span of an operand in
parentheses is that of the expression between them, which goes on over
the layout behind the expression. So a span ends in layout if some stands
in front of the closing parenthesis, and all other spans are tight
(`OperandTree.tight_iff`).

The rules know the operand and where it stands. What is to be shown is
about the last character of a tree. It is no blank
(`ExprTree.lastNotBlank`), and behind the tree there is code again. A
character with code behind it is a blank or in no comment
(`tokenAt_of_code`).
-/
import Bindcheck.Proofs.Refusal.Program

namespace Bindcheck

open Grammar Quoted

/-- The span begins with a token and ends with one. -/
def Tight (source : Text) (span : Span) : Prop :=
  TokenAt source span.start ∧ TokenAt source (span.stop - 1)

namespace Grammar

variable {source w behind : Text} {c : Cursor}

/-! ## The last character of a tree -/

/-- The text ends with a character that is no blank. -/
def LastNotBlank (text : Text) : Prop := ∃ x ∈ text.getLast?, isBlank x = false

theorem LastNotBlank.append {text : Text} (h : LastNotBlank text) (front : Text) :
    LastNotBlank (front ++ text) := by
  obtain ⟨x, hx, hblank⟩ := h
  refine ⟨x, ?_, hblank⟩
  rw [List.getLast?_append, Option.mem_def.mp hx]
  rfl

theorem isBlank_of_isNamePart {x : Char} (h : Token.isNamePart x = true) : isBlank x = false := by
  by_contra hblank
  simp only [isBlank, Bool.not_eq_false, Bool.or_eq_true, decide_eq_true_eq] at hblank
  rcases hblank with ((rfl | rfl) | rfl) | rfl <;> exact absurd h (by decide)

theorem lastNotBlank_of_isNamePart {text : Text} (hne : text ≠ [])
    (h : ∀ x ∈ text, Token.isNamePart x = true) : LastNotBlank text :=
  ⟨text.getLast hne, List.getLast?_eq_some_getLast hne,
    isBlank_of_isNamePart (h _ (List.getLast_mem hne))⟩

theorem OperandTree.lastNotBlank {t : OperandTree} (h : t.Written) : LastNotBlank t.text := by
  cases t with
  | group opening inner closing =>
    have hparen : LastNotBlank [')'] := ⟨')', rfl, by decide⟩
    exact (((hparen.append closing).append inner.text).append opening).append ['(']
  | string literal contents =>
    have hquote : LastNotBlank [quote] := ⟨quote, rfl, by decide⟩
    cases h with
    | @plain w v _ => exact (hquote.append w).append [quote]
    | @raw gap w v _ _ => exact (((hquote.append w).append [quote]).append gap).append [rawMark]
  | integer digits => exact lastNotBlank_of_isNamePart (Run.ne_nil h.1) h.1.isNamePart
  | name letters =>
    have hname : IsName letters := h
    exact lastNotBlank_of_isNamePart (Run.ne_nil h) hname.isNamePart

/-- A chain ends with its last operand, or is empty. -/
theorem ChainTree.lastNotBlank (t : ChainTree) (h : t.Written) {front : Text}
    (hfront : LastNotBlank front) : LastNotBlank (front ++ t.text) := by
  cases t with
  | nil => rwa [ChainTree.text, List.append_nil]
  | cons before op after operand links =>
    obtain ⟨-, -, -, -, hoperand, hlinks⟩ := h
    have hlonger := (OperandTree.lastNotBlank hoperand).append
      (front ++ (before ++ (op.symbol.toList ++ after)))
    have hall := ChainTree.lastNotBlank links hlinks hlonger
    simpa [ChainTree.text] using hall

theorem ExprTree.lastNotBlank {t : ExprTree} (h : t.Written) : LastNotBlank t.text := by
  cases t with
  | mk first links => exact links.lastNotBlank h.2 (OperandTree.lastNotBlank h.1)

/-! ## Spans of operands -/

/-- A character with code behind it that is no blank is in no comment. -/
theorem tokenAt_of_code {o : Nat} {x : Char} (hmode : Mode.before source (o + 1) = .code .plain)
    (hx : source[o]? = some x) (hblank : isBlank x = false) : TokenAt source o := by
  have hstep : (Mode.before source o).next x = .code .plain := by
    rw [← hmode, Mode.before, Mode.before, List.take_add_one, hx, Mode.run_append]
    rfl
  refine ⟨x, hx, hblank, ?_⟩
  unfold InComment
  -- behind a slash there is a slash or a comment, so the character is none
  cases hbefore : Mode.before source o with
  | code form =>
    rintro ⟨hslash, -⟩
    obtain rfl : x = '/' := Option.some.inj (hx.symm.trans hslash)
    rw [hbefore] at hstep
    cases hstep
  | slash form =>
    intro hslash
    obtain rfl : x = '/' := Option.some.inj (hx.symm.trans hslash)
    rw [hbefore] at hstep
    cases hstep
  | comment form =>
    intro _
    rw [hbefore, Mode.next] at hstep
    split at hstep
    · rename_i hline
      rw [hline] at hblank
      cases hblank
    · cases hstep
  | string form => exact id
  | escape => exact id

/-- A text at a place with code behind it ends with a token, unless with a blank. -/
theorem Place.token_last (h : Place source c) (hrest : c.rest = w ++ behind) (hw : Neutral w)
    (hend : LastNotBlank w) : TokenAt source (c.offset + w.length - 1) := by
  obtain ⟨x, hx, hblank⟩ := hend
  have hne : w ≠ [] := by
    rintro rfl
    cases hx
  have hpos := List.length_pos_iff.mpr hne
  have hready : (Mode.before source c.offset).Ready w := by
    have hfront := h.ready (by simp [hrest, hne])
    obtain ⟨y, w, rfl⟩ := List.exists_cons_of_ne_nil hne
    rwa [hrest] at hfront
  have hmode : Mode.before source (c.offset + w.length - 1 + 1) = .code .plain := by
    rw [Nat.sub_add_cancel (by omega), h.before_eq hrest, hready.run_eq hne, hw]
  have hchar : source[c.offset + w.length - 1]? = some x := by
    rw [Nat.add_sub_assoc hpos, ← List.getElem?_drop, h.reached.drop_eq, hrest,
      List.getElem?_append_left (by omega), ← List.getLast?_eq_getElem?]
    exact hx
  exact tokenAt_of_code hmode hchar hblank

/-- The span of an operand that stands at a place is tight, unless layout stands in front of its
closing parenthesis. -/
theorem OperandTree.tight_iff {scope : Scope} {t : OperandTree} {o : Nat} {ty : Ty}
    (h : t.StandsAt source o) (ht : t.HasType scope ty) :
    Tight source (t.elaborate scope o).span ↔ t.beforeClosing = [] := by
  obtain ⟨before, inner, behind, htext, hbefore, hclosing, hinner, -, -, hspan⟩ :=
    OperandTree.exists_spanned h.written ht
  obtain ⟨rest, hrest⟩ := h.front
  obtain ⟨e, herest, heoffset⟩ : ∃ e : Cursor,
      e.rest = inner.text ++ (t.beforeClosing ++ (behind ++ rest)) ∧
        e.offset = o + before.length := ⟨⟨_, _⟩, rfl, rfl⟩
  have hfront : source.drop o = before ++ e.rest := by
    rw [← hrest, htext, herest]
    simp only [List.append_assoc]
  have he : Place source e := h.place.neutral hfront heoffset hbefore
  have hlast := he.token_last herest (ExprTree.neutral hinner) (ExprTree.lastNotBlank hinner)
  have hfirst : TokenAt source e.offset := by
    refine he.token ?_ ?_
    · rw [herest]
      exact ExprTree.bare hinner _
    · obtain ⟨y, tail, hhead, -⟩ := ExprTree.head hinner
      simp [herest, hhead]
  rw [hspan, ← heoffset]
  constructor
  · rintro ⟨-, hstop⟩
    by_contra hne
    have hpos := List.length_pos_iff.mpr hne
    have hbehind : Place source ⟨e.offset + inner.text.length, _⟩ :=
      he.neutral (d := ⟨_, _⟩) herest rfl (ExprTree.neutral hinner)
    have hoffset : e.offset + (inner.text ++ t.beforeClosing).length - 1
        = e.offset + inner.text.length + (t.beforeClosing.length - 1) := by
      rw [List.length_append]
      omega
    simp only [hoffset] at hstop
    exact hbehind.not_tokenAt hclosing rfl (by omega) hstop
  · intro hnil
    rw [hnil, List.append_nil]
    exact ⟨hfirst, hlast⟩

end Grammar

/-- The failure says that an operand has another type than is expected, and its span is that of the
operand, whose text stands at the offset. -/
structure Failure.PointsAt (source : Text) (table : SymbolTable) (f : Failure) (t : OperandTree)
    (o : Nat) : Prop where
  stands : t.StandsAt source o
  cause : ∃ expected found, f.cause = .mismatchedTypes expected found ∧ expected ≠ found ∧
    t.HasType table.scope found
  span_eq : f.span = (t.elaborate table.scope o).span
  covers : Covers source f.span
  tight_iff : Tight source f.span ↔ t.beforeClosing = []

/-- What is refused by the rules for its types points at an operand. -/
theorem Grammar.Refusal.pointsAt {source : Text} {table : SymbolTable} {f : Failure}
    (h : Refusal source table f) (hkind : f.diagnostic.kind = .type) :
    ∃ t o, f.PointsAt source table t o := by
  cases h with
  | @mismatchedTypes span expected found t o hcovers hne _ hstands htype hspan =>
    have htight := OperandTree.tight_iff hstands htype
    rw [← hspan] at htight
    exact ⟨t, o, hstands, ⟨expected, found, rfl, hne, htype⟩, hspan, hcovers, htight⟩
  | _ => cases hkind

/-- A program or an expression that is refused for its types is refused for an operand in it. The
span is that of the operand, and it begins and ends with tokens exactly if no layout stands in front
of a closing parenthesis of the operand. -/
theorem exists_operand_of_mismatch {source : Text} {f : Failure}
    (hkind : f.diagnostic.kind = .type) :
    (Code.ofProgram source = .error f →
      ∃ t o, f.PointsAt source (Checker.ofSource source).readProgram.2.code.symbols t o) ∧
    ∀ table, Code.ofExpression source table = .error f ∨ inferType source table = .error f →
      ∃ t o, f.PointsAt source table t o := by
  constructor
  · intro h
    cases programRefusal_of_ofProgram h with
    | expression hrefused => exact hrefused.pointsAt hkind
    | _ => cases hkind
  · intro table h
    rcases refusal_of_refused h with hrefused | hcause
    · exact hrefused.pointsAt hkind
    · obtain ⟨cause, span⟩ := f
      cases hcause
      cases hkind

/-- A comment behind an opening parenthesis is no part of a span, and neither are parentheses. -/
theorem mismatch_behind_comment :
    let program := "a='b'*(//c\n1);".toList
    let expr := "1+(a)".toList
    let table := SymbolTable.ofList [("a", ⟨none, .str⟩)]
    (∃ f t o, Code.ofProgram program = .error f ∧ f.span = ⟨11, 12⟩ ∧
      f.PointsAt program (Checker.ofSource program).readProgram.2.code.symbols t o) ∧
    ∃ f t o, inferType expr table = .error f ∧ f.span = ⟨3, 4⟩ ∧ f.PointsAt expr table t o := by
  intro program expr table
  have hprogram : Code.ofProgram program = .error ⟨.mismatchedTypes .str .int, ⟨11, 12⟩⟩ := by
    decide +kernel
  have hexpr : inferType expr table = .error ⟨.mismatchedTypes .int .str, ⟨3, 4⟩⟩ := by
    decide +kernel
  obtain ⟨t, o, ht⟩ := (exists_operand_of_mismatch rfl).1 hprogram
  obtain ⟨u, p, hu⟩ := (exists_operand_of_mismatch rfl).2 table (.inr hexpr)
  exact ⟨⟨_, t, o, hprogram, rfl, ht⟩, _, u, p, hexpr, rfl, hu⟩

/-- In front of a closing parenthesis a blank takes part in the span. -/
theorem mismatch_before_blank :
    let program := "x='a'+(1 );".toList
    ∃ f, Code.ofProgram program = .error f ∧ f.diagnostic.kind = .type ∧
      f.span.slice program = "1 ".toList ∧ ¬ Tight program f.span := by
  intro program
  have hprogram : Code.ofProgram program = .error ⟨.mismatchedTypes .str .int, ⟨7, 9⟩⟩ := by
    decide +kernel
  refine ⟨_, hprogram, rfl, rfl, ?_⟩
  rintro ⟨-, x, hx, hblank, -⟩
  obtain rfl : ' ' = x := Option.some.inj hx
  exact absurd hblank (by decide)

end Bindcheck
