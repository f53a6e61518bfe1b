/-
Bindcheck.Proofs.Grammar.Lookahead — what the readers of single tokens do,
by the character that stands after the layout.

A reader skips layout, looks at what comes next and either takes it or
rests there. Each lemma assumes `c.pastLayout = ⟨o, …⟩`, so it names the
offset `o` after the layout and shows the text that decides. The lemmas
named `run_…` go from the text to the outcome, the lemmas named
`…_eq_some` and `…_eq_true` from a result back to the text.
-/
import Bindcheck.Proofs.Grammar.Lexeme

namespace Bindcheck

namespace Reader

open Grammar Quoted

variable {c d : Cursor} {o : Nat} {rest : Text}

/-! ## Single characters -/

theorem run_accept_cons {ch : Char} (h : c.pastLayout = ⟨o, ch :: rest⟩) :
    (accept ch).run c = .ok true ⟨o + 1, rest⟩ := by
  simp [accept, h, tokenAt, Token.char, Token.word, Cursor.advance]

theorem run_accept_of_ne {ch : Char} (h : c.pastLayout.rest.head? ≠ some ch) :
    (accept ch).run c = .ok false c.pastLayout := by
  have hread : (Token.char ch).read c.pastLayout.rest = none := by
    cases ht : c.pastLayout.rest with
    | nil => rfl
    | cons x t =>
      rw [ht] at h
      have hx : ch ≠ x := by
        rintro rfl
        exact h rfl
      simp [Token.char, Token.word, hx]
  simp [accept, tokenAt, hread]

theorem accept_eq_true {ch : Char} (h : (accept ch).run c = .ok true d) :
    c.pastLayout = ⟨c.pastLayout.offset, ch :: d.rest⟩ ∧ d.offset = c.pastLayout.offset + 1 := by
  by_cases hh : c.pastLayout.rest.head? = some ch
  · have hc := Cursor.eq_of_head? hh
    rw [run_accept_cons hc] at h
    cases h
    exact ⟨hc, rfl⟩
  · rw [run_accept_of_ne hh] at h
    cases h

theorem accept_eq_false {ch : Char} (h : (accept ch).run c = .ok false d) :
    c.pastLayout.rest.head? ≠ some ch ∧ d = c.pastLayout := by
  by_cases hh : c.pastLayout.rest.head? = some ch
  · rw [run_accept_cons (Cursor.eq_of_head? hh)] at h
    cases h
  · rw [run_accept_of_ne hh] at h
    cases h
    exact ⟨hh, rfl⟩

/-! ## Names and operators -/

theorem run_name {letters : Text} (h : c.pastLayout = ⟨o, letters ++ rest⟩)
    (hl : IsName letters) (hr : Boundary rest) :
    (token .name).run c = .ok (some (String.ofList letters)) ⟨o + letters.length, rest⟩ := by
  simp [h, tokenAt, read_name hl hr]

theorem name_eq_some {s : String} (h : (token .name).run c = .ok (some s) d) :
    ∃ letters, IsName letters ∧ s = String.ofList letters ∧
      c.pastLayout.rest = letters ++ d.rest ∧
      d.offset = c.pastLayout.offset + letters.length := by
  obtain ⟨n, hread, rfl⟩ := tokenAt_eq_some.mp h
  obtain ⟨letters, rest, hrest, hl, rfl, rfl⟩ := isName_of_read hread
  exact ⟨letters, hl, rfl, by simp [hrest], rfl⟩

/-- A binary operator that comes next is taken if nothing behind it makes it longer. -/
theorem run_operator {op : Operator} (h : c.pastLayout = ⟨o, op.symbol.toList ++ rest⟩)
    (hop : op ∈ Operator.binary) (hr : ∀ x ∈ rest.head?, ¬ ExtendsOperator x) :
    (token .operator).run c = .ok (some op) ⟨o + op.symbol.toList.length, rest⟩ := by
  simp only [run_token, h, tokenAt, read_operator hop hr, Cursor.advance_append]

theorem operator_eq_some {op : Operator} (h : (token .operator).run c = .ok (some op) d) :
    op ∈ Operator.binary ∧ c.pastLayout.rest = op.symbol.toList ++ d.rest ∧
      d.offset = c.pastLayout.offset + op.symbol.toList.length := by
  obtain ⟨n, hread, rfl⟩ := tokenAt_eq_some.mp h
  obtain ⟨hop, rfl, rest, hrest⟩ := operator_of_read hread
  exact ⟨hop, by simp [hrest], rfl⟩

/-! ## Integers -/

theorem run_integer {digits : Text} (h : c.pastLayout = ⟨o, digits ++ rest⟩)
    (hd : IsNumeral digits) (hv : Numeral.value digits ≤ Numeral.maxInteger)
    (hr : Boundary rest) :
    integer.run c = .ok (some (integerValue digits)) ⟨o + digits.length, rest⟩ := by
  have hpast : c.pastLayout.pastLayout = ⟨o, digits ++ rest⟩ := by
    rw [Cursor.pastLayout_pastLayout, h]
  simp [integer, hpast, tokenAt, read_digits hd hr, hv, integerValue]

theorem integer_eq_some {n : Int64} (h : integer.run c = .ok (some n) d) :
    ∃ digits, IsNumeral digits ∧ Numeral.value digits ≤ Numeral.maxInteger ∧
      n = integerValue digits ∧ c.pastLayout.rest = digits ++ d.rest ∧
      d.offset = c.pastLayout.offset + digits.length := by
  simp only [integer, run_bind, run_skipLayout, run_offset, Outcome.ok_andThen, run_token,
    Cursor.pastLayout_pastLayout] at h
  obtain ⟨found, e, hread, h⟩ := Outcome.andThen_eq_ok.mp h
  obtain _ | digits := found
  · cases h
  · obtain ⟨n, hn, rfl⟩ := tokenAt_eq_some.mp hread
    obtain ⟨hd, rfl, rest, hrest⟩ := run_of_read hn
    simp only at h
    split at h
    · rename_i hv
      cases h
      exact ⟨digits, hd, hv, rfl, by simp [hrest], rfl⟩
    · cases h

/-- Where no digit comes next there is no integer. -/
theorem run_integer_none (h : ∀ x ∈ c.pastLayout.rest.head?, x.isDigit = false) :
    integer.run c = .ok none c.pastLayout := by
  have hread : Token.digits.read c.pastLayout.rest = none := read_run_eq_none.mpr h
  simp [integer, tokenAt, hread]

/-! ## Strings -/

/-- A string in plain form is read from behind its quote. -/
theorem run_quoted_quote (h : c.pastLayout = ⟨o, quote :: rest⟩) :
    quoted.run c
      = (quotedBodyAt .plain o ⟨o + 1, rest⟩).andThen fun s e => .ok (some s) e := by
  have hpast : c.pastLayout.pastLayout = ⟨o, quote :: rest⟩ := by
    rw [Cursor.pastLayout_pastLayout, h]
  have hmark : (accept rawMark).run c.pastLayout = .ok false c.pastLayout := by
    rw [run_accept_of_ne (by simp [hpast, quote, rawMark]), Cursor.pastLayout_pastLayout]
  have ho : c.pastLayout.offset = o := by rw [h]
  simp [quoted, hmark, run_accept_cons hpast, ho]

/-- A string in raw form is read from behind its quote, which layout may precede. -/
theorem run_quoted_rawMark (h : c.pastLayout = ⟨o, rawMark :: rest⟩) {p : Nat} {text : Text}
    (hq : (⟨o + 1, rest⟩ : Cursor).pastLayout = ⟨p, quote :: text⟩) :
    quoted.run c
      = (quotedBodyAt .raw o ⟨p + 1, text⟩).andThen fun s e => .ok (some s) e := by
  have hpast : c.pastLayout.pastLayout = ⟨o, rawMark :: rest⟩ := by
    rw [Cursor.pastLayout_pastLayout, h]
  have ho : c.pastLayout.offset = o := by rw [h]
  simp [quoted, run_accept_cons hpast, run_accept_cons hq, ho]

/-- The mark of the raw form is refused where no quote follows it. -/
theorem run_quoted_rawMark_error (h : c.pastLayout = ⟨o, rawMark :: rest⟩)
    (hq : (⟨o + 1, rest⟩ : Cursor).pastLayout.rest.head? ≠ some quote) :
    quoted.run c
      = .error ⟨.rawQuoteExpected, (⟨o + 1, rest⟩ : Cursor).pastLayout.spanSince o⟩
          (⟨o + 1, rest⟩ : Cursor).pastLayout := by
  have hpast : c.pastLayout.pastLayout = ⟨o, rawMark :: rest⟩ := by
    rw [Cursor.pastLayout_pastLayout, h]
  have ho : c.pastLayout.offset = o := by rw [h]
  simp [quoted, run_accept_cons hpast, run_accept_of_ne hq, ho]

/-- Where neither mark comes next there is no string. -/
theorem run_quoted_none (hq : c.pastLayout.rest.head? ≠ some quote)
    (hm : c.pastLayout.rest.head? ≠ some rawMark) : quoted.run c = .ok none c.pastLayout := by
  have hpast : c.pastLayout.pastLayout = c.pastLayout := c.pastLayout_pastLayout
  have hmark : (accept rawMark).run c.pastLayout = .ok false c.pastLayout := by
    rw [run_accept_of_ne (by rwa [hpast]), hpast]
  have hquote : (accept quote).run c.pastLayout = .ok false c.pastLayout := by
    rw [run_accept_of_ne (by rwa [hpast]), hpast]
  simp [quoted, hmark, hquote]

/-- A body that is spelled out is read up to the quote behind it. -/
theorem quotedBodyAt_append {form : Form} {w v : Text} (h : Spelling form w v) (start p : Nat) :
    quotedBodyAt form start ⟨p, w ++ quote :: rest⟩
      = .ok (String.ofList v) ⟨p + w.length + 1, rest⟩ := by
  simp only [quotedBodyAt, body_of_spelling h, Cursor.advance, Nat.add_assoc]
  rw [← List.drop_drop, List.drop_left, List.drop_one, List.tail_cons]

/-- A body that is read is a spelling with a quote behind it. -/
theorem quotedBodyAt_eq_ok {form : Form} {start : Nat} {s : String}
    (h : quotedBodyAt form start c = .ok s d) :
    ∃ w v, Spelling form w v ∧ s = String.ofList v ∧ c.rest = w ++ quote :: d.rest ∧
      d.offset = c.offset + w.length + 1 := by
  unfold quotedBodyAt at h
  split at h
  · rename_i v n hbody
    cases h
    obtain ⟨w, rest, hrest, hw, rfl⟩ := spelling_of_body hbody
    refine ⟨w, v, hw, rfl, ?_, rfl⟩
    rw [Cursor.rest_advance, hrest, ← List.drop_drop, List.drop_left, List.drop_one,
      List.tail_cons]
  · cases h
  · cases h

theorem run_quoted {literal v : Text} (h : c.pastLayout = ⟨o, literal ++ rest⟩)
    (hl : StringLiteral literal v) :
    quoted.run c = .ok (some (String.ofList v)) ⟨o + literal.length, rest⟩ := by
  cases hl with
  | @plain w v hw =>
    have hc : c.pastLayout = ⟨o, quote :: (w ++ quote :: rest)⟩ := by simp [h]
    rw [run_quoted_quote hc, quotedBodyAt_append hw, Outcome.ok_andThen]
    congr 2
    simp only [List.length_cons, List.length_append, List.length_nil]
    omega
  | @raw gap w v hg hw =>
    have hc : c.pastLayout = ⟨o, rawMark :: (gap ++ quote :: (w ++ quote :: rest))⟩ := by simp [h]
    have hq : (⟨o + 1, gap ++ quote :: (w ++ quote :: rest)⟩ : Cursor).pastLayout
        = ⟨o + 1 + gap.length, quote :: (w ++ quote :: rest)⟩ :=
      Cursor.pastLayout_append_of_bare hg (bare_cons (by decide) (by decide)) _
    rw [run_quoted_rawMark hc hq, quotedBodyAt_append hw, Outcome.ok_andThen]
    congr 2
    simp only [List.length_cons, List.length_append, List.length_nil]
    omega

/-- A string that is taken is a literal. -/
theorem quoted_eq_some {s : String} (h : quoted.run c = .ok (some s) d) :
    ∃ literal v, StringLiteral literal v ∧ s = String.ofList v ∧
      c.pastLayout.rest = literal ++ d.rest ∧
      d.offset = c.pastLayout.offset + literal.length := by
  by_cases hq : c.pastLayout.rest.head? = some quote
  · have hc := Cursor.eq_of_head? hq
    rw [run_quoted_quote hc] at h
    obtain ⟨s', e, hbody, h⟩ := Outcome.andThen_eq_ok.mp h
    cases h
    obtain ⟨w, v, hw, rfl, hrest, hoff⟩ := quotedBodyAt_eq_ok hbody
    refine ⟨_, v, .plain hw, rfl, ?_, ?_⟩
    · rw [hc]
      simpa using hrest
    · simp only [List.length_cons, List.length_append, List.length_nil]
      simp only at hoff
      omega
  · by_cases hm : c.pastLayout.rest.head? = some rawMark
    · have hc := Cursor.eq_of_head? hm
      generalize c.pastLayout.rest.tail = t at hc
      by_cases hq' : (⟨c.pastLayout.offset + 1, t⟩ : Cursor).pastLayout.rest.head? = some quote
      · have he := Cursor.eq_of_head? hq'
        rw [run_quoted_rawMark hc he] at h
        obtain ⟨s', e, hbody, h⟩ := Outcome.andThen_eq_ok.mp h
        cases h
        obtain ⟨w, v, hw, rfl, hrest, hoff⟩ := quotedBodyAt_eq_ok hbody
        obtain ⟨gap, hgap, hsplit, hstart⟩ :=
          Cursor.exists_layout_of_cons (congrArg Cursor.rest he)
        refine ⟨_, v, .raw hgap hw, rfl, ?_, ?_⟩
        · have ht : t = gap ++ quote :: (w ++ quote :: d.rest) := by
            rw [← hrest]
            exact hsplit
          rw [hc, ht]
          simp
        · simp only [List.length_cons, List.length_append, List.length_nil]
          simp only at hoff hstart
          omega
      · rw [run_quoted_rawMark_error hc hq'] at h
        cases h
    · rw [run_quoted_none hq hm] at h
      cases h

end Reader

end Bindcheck
