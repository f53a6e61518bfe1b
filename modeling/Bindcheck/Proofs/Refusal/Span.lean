/-
Bindcheck.Proofs.Refusal.Span — the spans of diagnostics are well formed.

Every failure marks at least one character. It is in the source and
begins a token, or text that is none; or it is the one behind the end,
which happens only where something more was expected. The rules of
`Refusal` say which spans there are, so this is one line for each of them
(`Refusal.marks`, `ProgramRefusal.marks`), whatever was read: a program,
or an expression over any names (`marks_of_refused`).
-/
import Bindcheck.Proofs.Refusal.Program

namespace Bindcheck

open Grammar Reader

/-- Something is missing, which might have followed at the end of the text. -/
def Cause.ExpectsMore : Cause → Prop
  | equalsExpected _ => True
  | operandExpected _ => True
  | semicolonExpected => True
  | unclosedGroup _ => True
  | _ => False

/-- The span of a failure marks a part of a source, or the end of it. -/
structure Failure.Marks (source : Text) (f : Failure) : Prop where
  start_le : f.span.start ≤ source.length
  start_lt_stop : f.span.start < f.span.stop
  stop_le : f.span.start < source.length → f.span.stop ≤ source.length
  stop_eq : f.span.start = source.length → f.span.stop = source.length + 1
  token : f.span.start < source.length → TokenAt source f.span.start
  atEnd : f.span.start = source.length → f.diagnostic.kind = .parse ∧ f.cause.ExpectsMore
  label : f.diagnostic.label source.length = "input ends here" ↔ f.span.start = source.length

/-- A text begins as its front does. -/
theorem head?_toList_append {front : String} {x : Char} (h : front.toList.head? = some x)
    (back : String) : (front ++ back).toList.head? = some x := by
  rw [String.toList_append, List.head?_append, h, Option.some_or]

/-- Every message begins with a capital letter. -/
theorem Cause.exists_capital (cause : Cause) :
    ∃ x : Char, cause.message.toList.head? = some x ∧ x.isUpper = true := by
  cases cause with
  | integerOutOfRange digits => exact ⟨'I', head?_toList_append rfl _, rfl⟩
  | rawQuoteExpected => exact ⟨'E', rfl, rfl⟩
  | invalidEscape escaped =>
    exact ⟨'I', head?_toList_append (head?_toList_append rfl _) _, rfl⟩
  | unterminatedString => exact ⟨'U', rfl, rfl⟩
  | undefinedVariable name =>
    exact ⟨'U', head?_toList_append (head?_toList_append rfl _) _, rfl⟩
  | equalsExpected name => exact ⟨'E', head?_toList_append (head?_toList_append rfl _) _, rfl⟩
  | semicolonExpected => exact ⟨'E', rfl, rfl⟩
  | operandExpected after =>
    cases after with
    | none => exact ⟨'E', rfl, rfl⟩
    | some op => exact ⟨'E', head?_toList_append (head?_toList_append rfl _) _, rfl⟩
  | unclosedGroup opened =>
    have hfront : "Expected ')' after expression".toList.head? = some 'E' := rfl
    exact ⟨'E', hfront, rfl⟩
  | nestedTooDeeply => exact ⟨'E', rfl, rfl⟩
  | mismatchedTypes expected found =>
    exact ⟨'M', head?_toList_append (head?_toList_append (head?_toList_append rfl _) _) _, rfl⟩
  | assignmentExpected => exact ⟨'E', rfl, rfl⟩
  | inputAfterExpression => exact ⟨'U', rfl, rfl⟩

/-- No text that begins with a capital letter is the label of the end. -/
theorem ne_of_capital {text : String} {x : Char} (h : text.toList.head? = some x)
    (hx : x.isUpper = true) : text ≠ "input ends here" := by
  rintro rfl
  obtain rfl : 'i' = x := Option.some.inj h
  exact absurd hx (by decide)

namespace Failure

variable {source : Text} {f : Failure}

/-- The label speaks of the end of the input exactly where the span begins there. -/
theorem label_iff (h : f.span.start ≤ source.length) :
    f.diagnostic.label source.length = "input ends here" ↔ f.span.start = source.length := by
  have hstart : f.diagnostic.span.start = f.span.start := rfl
  constructor
  · intro hlabel
    by_contra hne
    unfold Diagnostic.label at hlabel
    rw [if_neg (by omega)] at hlabel
    split at hlabel
    · exact absurd hlabel (by decide)
    · exact absurd hlabel (by decide)
    · obtain ⟨x, hx, hupper⟩ := f.cause.exists_capital
      exact ne_of_capital hx hupper hlabel
    · obtain ⟨x, hx, hupper⟩ := f.cause.exists_capital
      exact ne_of_capital hx hupper hlabel
  · intro hend
    unfold Diagnostic.label
    rw [if_pos (by omega)]

/-- A failure whose span covers characters of the source marks them. -/
theorem marks_of_covers (h : Covers source f.span) : f.Marks source := by
  have hlt := h.start_lt_stop
  have hle := h.stop_le
  have hnot : f.span.start ≠ source.length := by omega
  exact ⟨by omega, hlt, fun _ => hle, fun hend => absurd hend hnot, fun _ => h.token,
    fun hend => absurd hend hnot, label_iff (by omega)⟩

/-- A failure at the next token, or at the end where more was expected, marks it. -/
theorem marks_of_nextAt {cause : Cause} {offset : Nat} (h : NextAt source offset)
    (hkind : cause.kind = .parse) (hmore : cause.ExpectsMore) :
    (⟨cause, Span.single offset⟩ : Failure).Marks source := by
  rcases h with hend | htoken
  · have hstart : (Span.single offset).start = source.length := hend
    have hstop : (Span.single offset).stop = source.length + 1 := congrArg (· + 1) hend
    refine ⟨Nat.le_of_eq hstart, Nat.lt_succ_self offset, ?_, fun _ => hstop, ?_,
      fun _ => ⟨hkind, hmore⟩, label_iff (Nat.le_of_eq hstart)⟩
    · exact fun hlt => absurd hstart (Nat.ne_of_lt hlt)
    · exact fun hlt => absurd hstart (Nat.ne_of_lt hlt)
  · refine marks_of_covers ⟨htoken, Nat.lt_succ_self offset, ?_⟩
    obtain ⟨x, hx, -⟩ := htoken
    exact (List.getElem?_eq_some_iff.mp hx).1

end Failure

namespace Grammar

variable {source : Text} {table : SymbolTable} {code : Code} {f : Failure}

theorem Refusal.marks (h : Refusal source table f) : f.Marks source := by
  cases h with
  | integerOutOfRange hcovers => exact Failure.marks_of_covers hcovers
  | rawQuoteExpected hcovers => exact Failure.marks_of_covers hcovers
  | invalidEscape hcovers => exact Failure.marks_of_covers hcovers
  | unterminatedString hcovers => exact Failure.marks_of_covers hcovers
  | undefinedVariable hcovers => exact Failure.marks_of_covers hcovers
  | operandExpected hnext => exact Failure.marks_of_nextAt hnext rfl trivial
  | unclosedGroup hnext => exact Failure.marks_of_nextAt hnext rfl trivial
  | nestedTooDeeply hcovers => exact Failure.marks_of_covers hcovers
  | mismatchedTypes hcovers => exact Failure.marks_of_covers hcovers

theorem ProgramRefusal.marks (h : ProgramRefusal source code f) : f.Marks source := by
  cases h with
  | expression h => exact h.marks
  | equalsExpected hnext => exact Failure.marks_of_nextAt hnext rfl trivial
  | semicolonExpected hnext => exact Failure.marks_of_nextAt hnext rfl trivial
  | assignmentExpected hcovers => exact Failure.marks_of_covers hcovers

/-- An expression that should stand alone is refused by the rules, or because text is left. -/
theorem marks_of_wholeExpr {d : Cursor}
    (h : (wholeExpr table).run (Cursor.start source) = .error f d) : f.Marks source := by
  rcases wholeExpr_eq_error h with hexpr | ⟨x, e, hexpr, hne, rfl⟩
  · exact (refusal_of_expr (operandPlace_start source) hexpr).marks
  · obtain ⟨t, trailing, ht⟩ := (finds_operand table nestingLimit).expression hexpr
    have hplace := (ht.inferType_slice (Nat.le_refl _) (place_start source)).1
    rw [Cursor.pastLayout_of_bare ht.bare] at hne ⊢
    have hpos := List.length_pos_iff.mpr hne
    have hspan : e.restSpan = ⟨e.offset, e.offset + e.rest.length⟩ := by
      simp only [Cursor.restSpan, Cursor.finish, Span.mk.injEq, true_and]
      omega
    refine Failure.marks_of_covers ?_
    rw [hspan]
    exact hplace.covers ht.bare (List.append_nil _).symm hne

end Grammar

/-- Whatever is refused, a program or an expression, the failure marks a part of the source or the
end of it. -/
theorem marks_of_refused {source : Text} {table : SymbolTable} {f : Failure}
    (h : Code.ofProgram source = .error f ∨ Code.ofExpression source table = .error f ∨
      inferType source table = .error f) : f.Marks source := by
  rcases h with h | h | h
  · exact (programRefusal_of_ofProgram h).marks
  · unfold Code.ofExpression at h
    split at h
    · cases h
    · rename_i hread
      cases h
      exact marks_of_wholeExpr hread
  · unfold inferType at h
    split at h
    · cases h
    · rename_i hread
      cases h
      exact marks_of_wholeExpr hread

/-- Slashes in a string begin no comment, and the end of the text may lie behind one. -/
theorem marks_behind_comment :
    let program := "a='//' + ~ //b".toList
    let expr := "( '//' //b".toList
    (∃ f, Code.ofProgram program = .error f ∧ f.span = ⟨9, 10⟩ ∧ f.Marks program) ∧
      ∃ f, inferType expr SymbolTable.empty = .error f ∧ f.span = ⟨10, 11⟩ ∧ f.Marks expr := by
  intro program expr
  have hprogram : Code.ofProgram program = .error ⟨.operandExpected (some .add), ⟨9, 10⟩⟩ := by
    decide +kernel
  have hexpr : inferType expr SymbolTable.empty = .error ⟨.unclosedGroup 0, ⟨10, 11⟩⟩ := by
    decide +kernel
  have hother : Code.ofProgram program = .error ⟨.operandExpected (some .add), ⟨9, 10⟩⟩ ∨
      Code.ofExpression program SymbolTable.empty
        = .error ⟨.operandExpected (some .add), ⟨9, 10⟩⟩ ∨
      inferType program SymbolTable.empty
        = .error ⟨.operandExpected (some .add), ⟨9, 10⟩⟩ := .inl hprogram
  exact ⟨⟨_, hprogram, rfl, marks_of_refused hother⟩,
    ⟨_, hexpr, rfl, marks_of_refused (.inr (.inr hexpr))⟩⟩

end Bindcheck
