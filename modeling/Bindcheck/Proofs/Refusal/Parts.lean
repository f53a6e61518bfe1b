/-
Bindcheck.Proofs.Refusal.Parts — which part of a reader refuses a text.

The readers of expressions are put together from smaller ones, and what
the smallest do is known. Each lemma named `…_eq_error` turns one of them
around: where it refuses a text one of its parts does, or a part gives a
result that it does not accept. They are to failures what the lemmas
named `…_eq_ok` and `…_eq_some` are to results.
-/
import Bindcheck.Proofs.Completed

namespace Bindcheck

open Reader Quoted

namespace Reader

open Grammar

variable {α β : Type} {c d : Cursor} {f : Failure} {table : SymbolTable}

theorem accept_ne_error {ch : Char} : (accept ch).run c ≠ .error f d := by
  by_cases hhead : c.pastLayout.rest.head? = some ch
  · rw [run_accept_cons (Cursor.eq_of_head? hhead)]
    simp
  · rw [run_accept_of_ne hhead]
    simp

theorem after_eq_error {t : Token α} {next : α → Reader β}
    (h : (after t next).run c = .error f d) :
    ∃ a e, (token t).run c = .ok (some a) e ∧ (next a).run e = .error f d := by
  rcases Outcome.andThen_eq_error.mp h with hread | ⟨found, e, hread, h⟩
  · exact absurd hread (tokenAt_ne_error t _ f d)
  · obtain _ | a := found
    · cases h
    · rcases Outcome.andThen_eq_error.mp h with hnext | ⟨b, e', -, h⟩
      · exact ⟨a, e, hread, hnext⟩
      · cases h

/-- A string is refused for an escape, with the form it has, or because it is not closed. -/
theorem quotedBodyAt_eq_error {form : Form} {start : Nat}
    (h : quotedBodyAt form start c = .error f d) :
    (∃ e n, body form c.rest = .badEscape e n ∧
      f = ⟨.invalidEscape e, ⟨c.offset + n - 2, c.offset + n⟩⟩) ∨
    f = ⟨.unterminatedString, ⟨start, max start c.finish⟩⟩ := by
  unfold quotedBodyAt at h
  split at h
  · cases h
  · rename_i e n hbody
    cases h
    exact .inl ⟨e, n, hbody, rfl⟩
  · cases h
    exact .inr rfl

/-- A string is refused while the text is cut into tokens. -/
theorem kind_of_quoted (h : quoted.run c = .error f d) : f.cause.kind = .scan := by
  have hbody : ∀ {form start e}, (quotedBody form start).run e = .error f d →
      f.cause.kind = .scan := by
    intro form start e hread
    rcases quotedBodyAt_eq_error hread with ⟨escaped, n, -, rfl⟩ | rfl
    · rfl
    · rfl
  simp only [quoted, run_bind, run_skipLayout, run_offset, Outcome.ok_andThen] at h
  rcases Outcome.andThen_eq_error.mp h with hmark | ⟨marked, e, -, h⟩
  · exact absurd hmark accept_ne_error
  cases marked with
  | true =>
    rcases Outcome.andThen_eq_error.mp h with hquote | ⟨opened, e', -, h⟩
    · exact absurd hquote accept_ne_error
    cases opened with
    | true =>
      rcases Outcome.andThen_eq_error.mp h with hread | ⟨s, e'', -, h⟩
      · exact hbody hread
      · cases h
    | false =>
      cases h
      rfl
  | false =>
    rcases Outcome.andThen_eq_error.mp h with hquote | ⟨opened, e', -, h⟩
    · exact absurd hquote accept_ne_error
    cases opened with
    | true =>
      rcases Outcome.andThen_eq_error.mp h with hread | ⟨s, e'', -, h⟩
      · exact hbody hread
      · cases h
    | false => cases h

theorem integer_eq_error (h : integer.run c = .error f d) :
    ∃ digits n, Token.digits.read c.pastLayout.rest = some (digits, n) ∧
      Numeral.maxInteger < Numeral.value digits ∧
      f = ⟨.integerOutOfRange (String.ofList digits),
        ⟨c.pastLayout.offset, c.pastLayout.offset + n⟩⟩ := by
  simp only [integer, run_bind, run_skipLayout, run_offset, Outcome.ok_andThen, run_token,
    Cursor.pastLayout_pastLayout] at h
  rcases Outcome.andThen_eq_error.mp h with hread | ⟨found, e, hread, h⟩
  · exact absurd hread (tokenAt_ne_error _ _ f d)
  · obtain _ | digits := found
    · cases h
    · obtain ⟨n, hn, rfl⟩ := tokenAt_eq_some.mp hread
      simp only at h
      split at h
      · cases h
      · rename_i hvalue
        cases h
        refine ⟨digits, n, hn, Nat.lt_of_not_le hvalue, ?_⟩
        simp [Cursor.spanSince]

/-- An operand is refused in the group, the string or the integer that it is, or as a name that
stands for nothing. -/
theorem operandWith_eq_error {opened : Nat → Reader Operand}
    (h : (operandWith table opened).run c = .error f d) :
    (∃ e, (accept '(').run c.pastLayout = .ok true e ∧
      (opened c.pastLayout.offset).run e = .error f d) ∨
    quoted.run c.pastLayout = .error f d ∨ integer.run c.pastLayout = .error f d ∨
    ∃ name e, (token .name).run c.pastLayout = .ok (some name) e ∧ table.get? name = none ∧
      f = ⟨.undefinedVariable name, e.spanSince c.pastLayout.offset⟩ := by
  simp only [operandWith, run_bind, run_skipLayout, run_offset, Outcome.ok_andThen] at h
  rcases Outcome.andThen_eq_error.mp h with hparen | ⟨paren, e, hparen, h⟩
  · exact absurd hparen accept_ne_error
  cases paren with
  | true =>
    rcases Outcome.andThen_eq_error.mp h with hopened | ⟨x, e', -, h⟩
    · exact .inl ⟨e, hparen, hopened⟩
    · cases h
  | false =>
    obtain ⟨-, rfl⟩ := accept_eq_false hparen
    rcases Outcome.andThen_eq_error.mp h with hquoted | ⟨s?, e, hquoted, h⟩
    · rw [Cursor.pastLayout_pastLayout] at hquoted
      exact .inr (.inl hquoted)
    obtain _ | s := s?
    · obtain ⟨rfl, -⟩ := quoted_eq_none hquoted
      rcases Outcome.andThen_eq_error.mp h with hinteger | ⟨n?, e, hinteger, h⟩
      · simp only [Cursor.pastLayout_pastLayout] at hinteger
        exact .inr (.inr (.inl hinteger))
      obtain _ | n := n?
      · obtain ⟨rfl, -⟩ := integer_eq_none hinteger
        rcases Outcome.andThen_eq_error.mp h with hname | ⟨name?, e, hname, h⟩
        · exact absurd hname (tokenAt_ne_error _ _ f d)
        obtain _ | name := name?
        · cases h
        · simp only [Cursor.pastLayout_pastLayout] at hname
          rcases Outcome.andThen_eq_error.mp h with hnamed | ⟨x, e', -, h⟩
          · have hnamed' : (named table name (e.spanSince c.pastLayout.offset)).run e
                = .error f d := hnamed
            unfold named at hnamed'
            split at hnamed'
            · cases hnamed'
            · rename_i hget
              cases hnamed'
              exact .inr (.inr (.inr ⟨name, d, hname, hget, rfl⟩))
          · cases h
      · cases h
    · cases h

theorem required_eq_error {operand : Reader (Option Operand)} {op : Option Operator}
    (h : (required operand op).run c = .error f d) :
    operand.run c = .error f d ∨
    ∃ e, operand.run c = .ok none e ∧
      f = ⟨.operandExpected op, Span.single e.pastLayout.offset⟩ := by
  rcases Outcome.andThen_eq_error.mp h with hread | ⟨found, e, hread, h⟩
  · exact .inl hread
  · obtain _ | x := found
    · simp only [run_failHere] at h
      cases h
      exact .inr ⟨e, hread, rfl⟩
    · cases h

theorem link_eq_error {operand : Reader (Option Operand)} {ty : Ty}
    (h : (link operand ty).run c = .error f d) :
    ∃ op e, (token .operator).run c = .ok (some op) e ∧
      ((required operand (some op)).run e = .error f d ∨
        ∃ x, operand.run e = .ok (some x) d ∧ x.ty ≠ ty ∧
          f = ⟨.mismatchedTypes ty x.ty, x.span⟩) := by
  obtain ⟨op, e, hop, h⟩ := after_eq_error h
  refine ⟨op, e, hop, ?_⟩
  rcases Outcome.andThen_eq_error.mp h with hread | ⟨x, e', hread, h⟩
  · exact .inl hread
  · simp only at h
    split at h
    · cases h
    · rename_i hty
      cases h
      exact .inr ⟨x, required_eq_ok hread, hty, rfl⟩

theorem expression_eq_error {operand : Reader (Option Operand)}
    (h : (expression operand).run c = .error f d) :
    (required operand none).run c.pastLayout = .error f d ∨
    ∃ first e, operand.run c.pastLayout = .ok (some first) e ∧
      (many (link operand first.ty) (consumes_link operand first.ty)).run e = .error f d := by
  simp only [expression, run_bind, run_skipLayout, run_offset, Outcome.ok_andThen] at h
  rcases Outcome.andThen_eq_error.mp h with hfirst | ⟨first, e, hfirst, h⟩
  · exact .inl hfirst
  · rcases Outcome.andThen_eq_error.mp h with hlinks | ⟨links, e', -, h⟩
    · exact .inr ⟨first, e, required_eq_ok hfirst, hlinks⟩
    · cases h

theorem group_eq_error {operand : Reader (Option Operand)} {opened : Nat}
    (h : (group operand opened).run c = .error f d) :
    (expression operand).run c = .error f d ∨
    ∃ inner e, (expression operand).run c = .ok inner e ∧
      e.pastLayout.rest.head? ≠ some ')' ∧
      f = ⟨.unclosedGroup opened, Span.single e.pastLayout.offset⟩ := by
  rcases Outcome.andThen_eq_error.mp h with hinner | ⟨inner, e, hinner, h⟩
  · exact .inl hinner
  · rcases Outcome.andThen_eq_error.mp h with hclose | ⟨closed, e', hclose, h⟩
    · exact absurd hclose accept_ne_error
    · cases closed with
      | true => cases h
      | false =>
        obtain ⟨hhead, rfl⟩ := accept_eq_false hclose
        simp only [Bool.false_eq_true, if_false, run_failHere, Cursor.pastLayout_pastLayout] at h
        cases h
        exact .inr ⟨inner, e, hinner, hhead, rfl⟩

/-- An expression that should stand alone is refused itself, or because text is left behind it. -/
theorem wholeExpr_eq_error (h : (wholeExpr table).run c = .error f d) :
    (expr table).run c = .error f d ∨
    ∃ x e, (expr table).run c = .ok x e ∧ e.pastLayout.rest ≠ [] ∧
      f = ⟨.inputAfterExpression, e.pastLayout.restSpan⟩ := by
  simp only [wholeExpr, run_bind, run_offset, Outcome.ok_andThen] at h
  rcases Outcome.andThen_eq_error.mp h with hexpr | ⟨x, e, hexpr, h⟩
  · exact .inl hexpr
  · rw [run_atEnd, Outcome.ok_andThen] at h
    split at h
    · cases h
    · rename_i hleft
      cases h
      exact .inr ⟨x, e, hexpr, by simpa [Cursor.atEnd] using hleft, rfl⟩

/-- Where no operand is found none begins. -/
theorem operandWith_eq_none {opened : Nat → Reader Operand}
    (h : (operandWith table opened).run c = .ok none d) :
    d = c.pastLayout ∧ ∀ x ∈ c.pastLayout.rest.head?, ¬ StartsOperand x := by
  simp only [operandWith, run_bind, run_skipLayout, run_offset, Outcome.ok_andThen] at h
  obtain ⟨paren, e, hparen, h⟩ := Outcome.andThen_eq_ok.mp h
  cases paren with
  | true =>
    obtain ⟨x, e', -, h⟩ := Outcome.andThen_eq_ok.mp h
    cases h
  | false =>
    obtain ⟨hopen, rfl⟩ := accept_eq_false hparen
    obtain ⟨s?, e, hquoted, h⟩ := Outcome.andThen_eq_ok.mp h
    rw [Cursor.pastLayout_pastLayout] at hquoted
    obtain _ | s := s?
    · obtain ⟨rfl, hquote, hmark⟩ := quoted_eq_none hquoted
      obtain ⟨n?, e, hinteger, h⟩ := Outcome.andThen_eq_ok.mp h
      simp only [Cursor.pastLayout_pastLayout] at hinteger
      obtain _ | n := n?
      · obtain ⟨rfl, hdigit⟩ := integer_eq_none hinteger
        obtain ⟨name?, e, hname, h⟩ := Outcome.andThen_eq_ok.mp h
        obtain _ | name := name?
        · obtain ⟨hread, rfl⟩ := tokenAt_eq_none.mp hname
          cases h
          simp only [Cursor.pastLayout_pastLayout] at hopen hquote hmark hdigit hread ⊢
          refine ⟨trivial, ?_⟩
          rintro x hx (rfl | rfl | rfl | hpart)
          · exact hopen hx
          · exact hquote hx
          · exact hmark hx
          · have hstart := read_name_eq_none.mp hread x hx
            simp only [Token.isNameStart, Bool.or_eq_false_iff] at hstart
            simp [Token.isNamePart, Char.isAlphanum, hstart.1, hstart.2, hdigit x hx] at hpart
        · obtain ⟨x, e', -, h⟩ := Outcome.andThen_eq_ok.mp h
          cases h
      · cases h
    · cases h

end Reader

/-- An expression is refused, as code or for its type, where it is read. -/
theorem exists_wholeExpr_eq_error {source : Text} {table : SymbolTable} {f : Failure}
    (h : Code.ofExpression source table = .error f ∨ inferType source table = .error f) :
    ∃ d, (wholeExpr table).run (Cursor.start source) = .error f d := by
  rcases h with h | h
  · unfold Code.ofExpression at h
    split at h
    · cases h
    · rename_i hread
      cases h
      exact ⟨_, hread⟩
  · unfold inferType at h
    split at h
    · cases h
    · rename_i hread
      cases h
      exact ⟨_, hread⟩

end Bindcheck
