/-
Bindcheck.Proofs.Integer — integer literals are read exactly.

A run of digits is taken as a whole, however long it is, and denotes what
it does in the decimal system. `run_integer_digits` is the reader on such
a run: it answers with the value, or refuses the run if the value is no
integer of 64 bits, and either way it rests right behind the run. Only the
value decides, not the length, since zeros in front do not count.

There is no sign in a run of digits, so the integers of a program are not
negative: `toInt_of_hasLeaf` finds the run in the source. It does not
matter which names are bound, nor whether the program is refused further on.
-/
import Bindcheck.Checker
import Bindcheck.Proofs.Decimal.Digits
import Bindcheck.Proofs.Reparse

namespace Bindcheck

open Grammar

variable {blanks digits rest : Text} {o n : Nat}

namespace Grammar

/-! ## Runs of digits -/

/-- A numeral is not layout. -/
theorem IsNumeral.bare (h : IsNumeral digits) (rest : Text) : Bare (digits ++ rest) := by
  obtain ⟨c, part, rfl, hc, -⟩ := h
  have hstarts : StartsOperand c := .inr (.inr (.inr (isNamePart_of_isDigit hc)))
  exact bare_cons hstarts.not_special.1 hstarts.not_special.2.1

/-- A value that is in range is stored as it is. -/
theorem toInt_integerValue (h : Numeral.value digits ≤ Numeral.maxInteger) :
    (integerValue digits).toInt = decimalValue digits := by
  have hlt : Numeral.value digits < 2 ^ 63 := Nat.lt_of_le_of_lt h (by decide)
  rw [integerValue, Int64.toInt_ofNat_of_lt hlt, Numeral.value_eq]

end Grammar

namespace Reader

/-- A run of digits that stands behind layout is taken as a whole, and its value decides. -/
theorem run_integer_digits (hblanks : Layout blanks) (hdigits : IsNumeral digits)
    (hrest : ∀ c ∈ rest.head?, c.isDigit = false) (o : Nat) :
    integer.run ⟨o, blanks ++ (digits ++ rest)⟩
      = if Numeral.value digits ≤ Numeral.maxInteger then
          .ok (some (integerValue digits)) ⟨o + blanks.length + digits.length, rest⟩
        else
          .error ⟨.integerOutOfRange (String.ofList digits),
              ⟨o + blanks.length, o + blanks.length + digits.length⟩⟩
            ⟨o + blanks.length + digits.length, rest⟩ := by
  have hbare := hdigits.bare rest
  have hpast := Cursor.pastLayout_append_of_bare hblanks hbare o
  have hagain : (⟨o + blanks.length, digits ++ rest⟩ : Cursor).pastLayout
      = ⟨o + blanks.length, digits ++ rest⟩ := Cursor.pastLayout_of_bare hbare
  have hread : Token.digits.read (digits ++ rest) = some (digits, digits.length) :=
    read_run hdigits hrest
  simp only [integer, run_bind, run_skipLayout, run_offset, Outcome.ok_andThen, run_token, hpast,
    hagain, tokenAt, hread, Cursor.advance_append]
  split
  · rfl
  · simp [Cursor.spanSince]

end Reader

/-! ## The integers of a program -/

/-- The integers in some code are what the runs of digits in their spans denote, and none of them is
negative. -/
def Code.IntegersIn (code : Code) (source : Text) : Prop :=
  ∀ s ∈ code.statements, ∀ v span, s.expr.HasLeaf (.literal (.int v) span) →
    IsNumeral (span.slice source) ∧ v.toInt = decimalValue (span.slice source) ∧ 0 ≤ v.toInt

/-- An integer of a located expression is the value of the run of digits in its span. -/
theorem toInt_of_hasLeaf {scope : Scope} {ty : Ty} {source : Text} {e : Expr} {v : Int64}
    {span : Span} (h : LocatedExpr scope ty (Cursor.start source) e)
    (hleaf : e.HasLeaf (.literal (.int v) span)) :
    IsNumeral (span.slice source) ∧ v.toInt = decimalValue (span.slice source) := by
  obtain ⟨t, start, hw, htext, hx⟩ := h.exists_tree hleaf
  have hslice : span.slice source = t.text := htext
  rw [hslice]
  cases t with
  | string literal contents => cases hx
  | integer digits =>
    cases hx
    exact ⟨hw.1, toInt_integerValue hw.2⟩
  | name letters => cases hx
  | group opening inner closing => cases hx

/-- The integers that are read as parts of a program stand in its source, also if it is refused. -/
theorem integersIn_read (source : Text) (table : SymbolTable) :
    (Progress.read table (Cursor.start source)).code.IntegersIn source := by
  intro s hs v span hleaf
  obtain ⟨a, ha, rfl⟩ := List.mem_map.mp hs
  obtain ⟨scope, ty, hlocated⟩ := exists_located_of_read ha
  obtain ⟨hnumeral, hvalue⟩ := toInt_of_hasLeaf hlocated hleaf
  exact ⟨hnumeral, hvalue, hvalue ▸ Int.natCast_nonneg _⟩

open Reader

/-- A run of digits behind layout is read as the number that it denotes if that is at most
`2 ^ 63 - 1`, and refused otherwise, with exactly the run as the span and in the message; reading
rests right behind it. So every number up to that bound is read back, with any number of zeros in
front. The integers of a program, over any names, are what runs of digits denote, and none of them
is negative. -/
theorem integer_exact :
    (∀ blanks digits rest o, Layout blanks → IsNumeral digits →
      (∀ c ∈ rest.head?, c.isDigit = false) →
      let start := o + blanks.length
      let behind : Cursor := ⟨start + digits.length, rest⟩
      let outcome := integer.run ⟨o, blanks ++ (digits ++ rest)⟩
      ((∃ v : Int64, v.toInt = decimalValue digits ∧ outcome = .ok (some v) behind) ↔
        decimalValue digits ≤ 2 ^ 63 - 1) ∧
      (¬ decimalValue digits ≤ 2 ^ 63 - 1 → ∃ f, outcome = .error f behind ∧
        f.diagnostic = ⟨.scan, ⟨start, start + digits.length⟩,
          "Integer literal out of range: " ++ String.ofList digits, none⟩)) ∧
    (∀ blanks zeros n rest o, Layout blanks → n ≤ 2 ^ 63 - 1 →
      (∀ c ∈ rest.head?, c.isDigit = false) →
      let digits := List.replicate zeros '0' ++ Nat.toDigits 10 n
      ∃ v : Int64, v.toInt = n ∧ integer.run ⟨o, blanks ++ (digits ++ rest)⟩
        = .ok (some v) ⟨o + blanks.length + digits.length, rest⟩) ∧
    (∀ source code, Code.ofProgram source = .ok code → code.IntegersIn source) ∧
    ∀ source table, (Checker.withSymbols source table).readProgram.2.code.IntegersIn source := by
  have hmax : Numeral.maxInteger = 2 ^ 63 - 1 := rfl
  refine ⟨?run, ?readBack, ?program, fun source table => integersIn_read source table⟩
  case run =>
    intro blanks digits rest o hblanks hdigits hrest start behind outcome
    have hrun := run_integer_digits hblanks hdigits hrest o
    by_cases hvalue : Numeral.value digits ≤ Numeral.maxInteger
    · have hle : decimalValue digits ≤ 2 ^ 63 - 1 := by rwa [← Numeral.value_eq, ← hmax]
      rw [if_pos hvalue] at hrun
      exact ⟨⟨fun _ => hle, fun _ => ⟨_, toInt_integerValue hvalue, hrun⟩⟩, fun h => absurd hle h⟩
    · have hgt : ¬ decimalValue digits ≤ 2 ^ 63 - 1 := by rwa [← Numeral.value_eq, ← hmax]
      rw [if_neg hvalue] at hrun
      refine ⟨⟨?_, fun h => absurd h hgt⟩, fun _ => ⟨_, hrun, rfl⟩⟩
      rintro ⟨v, -, hok⟩
      cases hrun.symm.trans hok
  case readBack =>
    intro blanks zeros n rest o hblanks hn hrest digits
    have hdigits : decimalValue digits = n := by
      rw [decimalValue_zeros_append, decimalValue_toDigits]
    have hvalue : Numeral.value digits ≤ Numeral.maxInteger := by
      rwa [Numeral.value_eq, hdigits, hmax]
    have hrun := run_integer_digits hblanks (isNumeral_toDigits zeros n) hrest o
    rw [if_pos hvalue] at hrun
    refine ⟨_, ?_, hrun⟩
    rw [toInt_integerValue hvalue, hdigits]
  case program =>
    intro source code hcode
    simp only [Code.ofProgram] at hcode
    split at hcode
    · cases hcode
    · split at hcode
      · cases hcode
        exact integersIn_read source SymbolTable.empty
      · cases hcode

/-- Two zeros make the largest integer longer than the number after it, which is refused. The
integer in a program is that of its run, whose zero does not count. -/
theorem integer_exact_at_limit :
    let largest := "009223372036854775807".toList
    let refused := "9223372036854775808".toList
    (∃ v : Int64, v.toInt = 9223372036854775807 ∧
      integer.run (Cursor.start ("//1\n ".toList ++ (largest ++ [';'])))
        = .ok (some v) ⟨26, [';']⟩) ∧
    (∃ f, integer.run (Cursor.start (refused ++ ['a'])) = .error f ⟨19, ['a']⟩ ∧
      f.diagnostic.span = ⟨0, 19⟩) ∧
    ∃ code, Code.ofProgram "a=07;".toList = .ok code ∧
      decimalValue ((⟨2, 4⟩ : Span).slice "a=07;".toList) = 7 := by
  intro largest refused
  have hcomment : Layout ('/' :: '/' :: (['1'] ++ '\n' :: [' '])) :=
    .comment (by decide) (.blank (by decide) .nil)
  have hlargest : IsNumeral largest := isNumeral_toDigits 2 9223372036854775807
  have hrefused : IsNumeral refused := isNumeral_toDigits 0 9223372036854775808
  have hvalue : decimalValue largest = 9223372036854775807 := by decide +kernel
  have hsemicolon : ∀ c ∈ [';'].head?, c.isDigit = false := by
    rintro c ⟨⟩
    decide
  have hletter : ∀ c ∈ ['a'].head?, c.isDigit = false := by
    rintro c ⟨⟩
    decide
  obtain ⟨v, hv, hread⟩ := (integer_exact.1 _ largest [';'] 0 hcomment hlargest hsemicolon).1.mpr
    (by decide +kernel)
  obtain ⟨f, herror, hf⟩ := (integer_exact.1 [] refused ['a'] 0 .nil hrefused hletter).2
    (by decide +kernel)
  let leaf : Operand := .literal (.int 7) ⟨2, 4⟩
  have hcode : Code.ofProgram "a=07;".toList
      = .ok ⟨[.assignment ⟨"a", .mk leaf .nil ⟨2, 4⟩, ⟨0, 5⟩⟩],
        .ofList [("a", ⟨some "a", .int⟩)]⟩ := by
    decide +kernel
  have hleaf : (Expr.mk leaf .nil ⟨2, 4⟩).HasLeaf leaf :=
    ⟨trivial, _, .self _, List.mem_cons_self⟩
  obtain ⟨-, hseven, -⟩ := integer_exact.2.2.1 _ _ hcode _ List.mem_cons_self _ _ hleaf
  exact ⟨⟨v, by rw [hv, hvalue]; rfl, hread⟩, ⟨f, herror, by rw [hf]; rfl⟩, _, hcode,
    Int.natCast_inj.mp hseven.symm⟩

end Bindcheck
