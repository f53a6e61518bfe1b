/-
Bindcheck.Proofs.Refusal.Truth — diagnostics tell the truth.

`Failure.Truthful` puts the rules by which a program is refused in the
words that users see. The span of a diagnostic is cut out of the source,
or the text in front of it is; a type that is named is the one that the
piece has when it is read alone, over the names that are bound when
reading stops.
-/
import Bindcheck.Proofs.Refusal.Program

namespace Bindcheck

open Grammar Quoted

/-- What the words of a diagnostic say about a source holds of it, the code being that of the
statements in front. -/
def Failure.Truthful (source : Text) (code : Code) (f : Failure) : Prop :=
  let d := f.diagnostic
  let text := d.span.slice source
  match f.cause with
  | .integerOutOfRange digits =>
    d.message = "Integer literal out of range: " ++ digits ∧ text = digits.toList ∧
      IsNumeral text ∧ Numeral.maxInteger < Numeral.value text ∧
      (∀ x ∈ (source.take d.span.start).getLast?, x.isDigit = false) ∧
      ∀ x ∈ source[d.span.stop]?, x.isDigit = false
  | .rawQuoteExpected =>
    d.message = "Expected ''' after '@'" ∧
      (∃ gap, FinalLayout gap ∧ text = '@' :: gap) ∧ source[d.span.stop]? ≠ some '\''
  | .invalidEscape escaped =>
    d.message = "Invalid escape sequence '\\" ++ String.singleton escaped ++ "'" ∧
      text = ['\\', escaped] ∧ escaped ∉ ['n', 't', 'r', '\\', '\'']
  | .unterminatedString =>
    d.message = "Unterminated string" ∧
      (source[d.span.start]? = some '\'' ∨ source[d.span.start]? = some '@') ∧
      (∀ literal contents, StringLiteral literal contents →
        ¬ literal <+: source.drop d.span.start) ∧
      d.span.stop = source.length
  | .undefinedVariable name =>
    d.message = "Undefined variable '" ++ name ++ "'" ∧ text = name.toList ∧
      code.symbols.get? name = none ∧ ∀ s ∈ code.statements, s.target? ≠ some name
  | .equalsExpected name =>
    d.message = "Expected '=' after '" ++ name ++ "'" ∧
      (∃ before gap, Layout before ∧ IsName name.toList ∧ FinalLayout gap ∧
        source.take d.span.start
          = source.take code.stop ++ (before ++ (name.toList ++ gap))) ∧
      source[d.span.start]? ≠ some '='
  | .semicolonExpected =>
    d.message = "Expected ';' after expression" ∧
      (∃ before name gap value ty, Layout before ∧ IsName name ∧ Layout gap ∧
        source.take d.span.start
          = source.take code.stop ++ (before ++ (name ++ (gap ++ '=' :: value))) ∧
        inferType value code.symbols = .ok ty) ∧
      source[d.span.start]? ≠ some ';'
  | .operandExpected after =>
    (∀ x ∈ source[d.span.start]?, ¬ StartsOperand x) ∧
      match after with
      | none => d.message = "Expected operand"
      | some op =>
        d.message = "Expected operand after '" ++ op.symbol ++ "'" ∧
          ∃ front gap, FinalLayout gap ∧
            source.take d.span.start = front ++ (op.symbol.toList ++ gap)
  | .unclosedGroup opened =>
    d.message = "Expected ')' after expression" ∧
      d.help = some ("The '(' at offset " ++ toString opened ++ " is never closed.") ∧
      source[opened]? = some '(' ∧ opened < d.span.start ∧
      (∃ ty, inferType ((⟨opened + 1, d.span.start⟩ : Span).slice source) code.symbols = .ok ty) ∧
      (d.span.start = source.length ∨ ∃ x, source[d.span.start]? = some x ∧ x ≠ ')')
  | .nestedTooDeeply => d.message = "Expressions nested too deeply" ∧ text = ['(']
  | .mismatchedTypes expected found =>
    d.message = "Mismatched types: expected " ++ expected.name ++ ", found " ++ found.name ∧
      expected ≠ found ∧ inferType text code.symbols = .ok found
  | .assignmentExpected =>
    d.kind = .trailing ∧ d.message = "Expected an assignment" ∧
      Code.ofProgram (source.take d.span.start) = .ok code ∧
      (∃ x, source[d.span.start]? = some x ∧ ¬ (x.isAlpha = true ∨ x = '_')) ∧
      d.span.stop = source.length
  | .inputAfterExpression => False

namespace Grammar

variable {source : Text} {code : Code} {f : Failure}

/-- The rules for expressions say what the words do. -/
theorem Refusal.truthful (h : Refusal source code.symbols f)
    (hbound : ∀ s ∈ code.statements, ∀ name, s.target? = some name →
      code.symbols.get? name ≠ none) : f.Truthful source code := by
  cases h with
  | integerOutOfRange hcovers htext hdigits hvalue hbefore hbehind =>
    subst htext
    exact ⟨rfl, (String.toList_ofList ..).symm, hdigits, hvalue, hbefore, hbehind⟩
  | rawQuoteExpected hcovers htext hgap hbehind => exact ⟨rfl, ⟨_, hgap, htext⟩, hbehind⟩
  | invalidEscape hcovers htext he => exact ⟨rfl, htext, escape?_eq_none_iff.mp he⟩
  | unterminatedString hcovers hstop hfirst hopen => exact ⟨rfl, hfirst, hopen, hstop⟩
  | undefinedVariable hcovers htext hname =>
    exact ⟨rfl, htext, hname, fun s hs htarget => hbound s hs _ htarget hname⟩
  | @operandExpected offset after hnext hhead hafter =>
    refine ⟨hhead, ?_⟩
    cases after with
    | none => rfl
    | some op => exact ⟨rfl, hafter op rfl⟩
  | unclosedGroup hnext hopened hlt hinner hhead =>
    refine ⟨rfl, rfl, hopened, hlt, hinner, ?_⟩
    rcases hnext with hend | ⟨x, hx, -⟩
    · exact .inl hend
    · refine .inr ⟨x, hx, ?_⟩
      rintro rfl
      exact hhead hx
  | nestedTooDeeply hcovers htext => exact ⟨rfl, htext⟩
  | mismatchedTypes hcovers hne hfound => exact ⟨rfl, hne, hfound⟩

theorem ProgramRefusal.truthful (h : ProgramRefusal source code f)
    (hbound : ∀ s ∈ code.statements, ∀ name, s.target? = some name →
      code.symbols.get? name ≠ none) : f.Truthful source code := by
  cases h with
  | expression h => exact h.truthful hbound
  | equalsExpected hnext hbefore hname hgap htext hhead =>
    exact ⟨rfl, ⟨_, _, hbefore, hname, hgap, htext⟩, hhead⟩
  | semicolonExpected hnext hbefore hname hgap htext hvalue hhead =>
    obtain ⟨ty, hty⟩ := hvalue
    exact ⟨rfl, ⟨_, _, _, _, ty, hbefore, hname, hgap, htext, hty⟩, hhead⟩
  | assignmentExpected hcovers hstop hprogram hhead =>
    obtain ⟨x, hx, -⟩ := hcovers.token
    refine ⟨rfl, rfl, hprogram, ⟨x, hx, ?_⟩, hstop⟩
    rw [← Reader.isNameStart_iff, hhead x hx]
    exact Bool.false_ne_true

end Grammar

/-- What a checker has read binds every name that it assigns. -/
theorem Checker.get?_of_target {source : Text} {s : Statement} {name : String}
    (hs : s ∈ (ofSource source).readProgram.2.code.statements) (hname : s.target? = some name) :
    (ofSource source).readProgram.2.code.symbols.get? name ≠ none := by
  obtain ⟨trees, rest, -, -, -, hcode, -⟩ := exists_readProgram source SymbolTable.empty
  have hread : (ofSource source).readProgram.2.code = _ := hcode
  rw [hread] at hs ⊢
  obtain ⟨a, ha, rfl⟩ := List.mem_map.mp hs
  cases hname
  have hcontains := SymbolTable.contains_bindAll SymbolTable.empty ha
  intro hnone
  simp [SymbolTable.contains, hnone] at hcontains

/-- Whatever a program is refused for is so. -/
theorem truthful_of_ofProgram {source : Text} {f : Failure}
    (h : Code.ofProgram source = .error f) :
    f.Truthful source (Checker.ofSource source).readProgram.2.code :=
  (programRefusal_of_ofProgram h).truthful fun _ hs _ hname => Checker.get?_of_target hs hname

/-- The operand that is blamed is what stands in the parentheses, with a comment behind it. -/
theorem truthful_of_group :
    let source := "a=1;//9\nb='x'+(a //)\n);".toList
    ∃ f, Code.ofProgram source = .error f ∧ f.cause = .mismatchedTypes .str .int ∧
      f.span.slice source = "a //)\n".toList ∧
      f.Truthful source (Checker.ofSource source).readProgram.2.code := by
  intro source
  have h : Code.ofProgram source = .error ⟨.mismatchedTypes .str .int, ⟨15, 21⟩⟩ := by
    decide +kernel
  exact ⟨_, h, rfl, by decide +kernel, truthful_of_ofProgram h⟩

end Bindcheck
