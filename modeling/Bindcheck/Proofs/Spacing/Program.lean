/-
Bindcheck.Proofs.Spacing.Program — layout does not matter.

Put layout between two tokens of a program, in no comment: the result is
a program that binds the same names to the same types and has the same
statements. Every token in front of the place stays where it was, and
every token behind it moves by the length of what is put in. Behind the
end of a program any layout may be put, and then no span moves.

`Derivation.respaced` is a derivation of the new source, so what is left
is the code that it stands for. Positions are added up from the lengths
of the pieces, and each sum is told by one of three steps: layout leads
from an end to a beginning (`stop_add_within`), a token from a beginning
to an end (`start_add_length`), and an operand as a token does
(`start_add_of_chunk`). An expression ends where the token behind it
begins, so the end of its span moves as a beginning does.
-/
import Mathlib.Control.Monad.Basic
import Bindcheck.Proofs.Grammar.Unambiguous
import Bindcheck.Proofs.Spacing.Written

namespace Bindcheck

open Grammar

/-! ## Code with the insertion -/

mutual

/-- The operand in the source with an insertion. -/
def Operand.moved (e : Insertion) : Operand → Operand
  | .literal value span => .literal value (e.span span)
  | .var name ty span => .var name ty (e.span span)
  | .group inner => .group (inner.moved e)

/-- The expression in the source with an insertion; it ends where the token behind it begins. -/
def Expr.moved (e : Insertion) : Expr → Expr
  | .mk first rest span =>
    .mk (first.moved e) (rest.moved e) ⟨e.start span.start, e.start span.stop⟩

def Chain.moved (e : Insertion) : Chain → Chain
  | .nil => .nil
  | .cons op operand rest => .cons op (operand.moved e) (rest.moved e)

end

def Assignment.moved (e : Insertion) (a : Assignment) : Assignment :=
  ⟨a.name, a.expr.moved e, e.span a.span⟩

def Statement.moved (e : Insertion) : Statement → Statement
  | .assignment a => .assignment (a.moved e)
  | .expression expr span => .expression (expr.moved e) (e.span span)

mutual

/-- An operand keeps its type. -/
@[simp] theorem Operand.ty_moved (e : Insertion) (x : Operand) : (x.moved e).ty = x.ty := by
  match x with
  | .literal value span => rfl
  | .var name ty span => rfl
  | .group inner => exact Expr.ty_moved e inner

@[simp] theorem Expr.ty_moved (e : Insertion) (x : Expr) : (x.moved e).ty = x.ty := by
  match x with
  | .mk first rest span => exact Operand.ty_moved e first

end

namespace Grammar

variable {e : Insertion} {o : Nat}

/-! ## Lengths -/

/-- What is one chunk leads from where it begins to where it ends. -/
theorem Insertion.start_add_of_chunk {w w' : Text} (h : e.inside o w = e.within o [] ++ w') :
    e.start o + w'.length = e.stop (o + w.length) := by
  have hstart := e.stop_add_within o []
  have hstop := e.stop_add_inside o w
  rw [h, List.length_append] at hstop
  simp only [List.length_nil, Nat.add_zero] at hstart
  omega

theorem OperandTree.start_add_text {t : OperandTree} (hw : t.Written)
    (h : e.Between (t.lexemes o)) :
    e.start o + (t.respaced e o).text.length = e.stop (o + t.text.length) :=
  Insertion.start_add_of_chunk (OperandTree.inside_text t hw o [] h)

theorem ExprTree.start_add_text {t : ExprTree} (hw : t.Written) (h : e.Between (t.lexemes o)) :
    e.start o + (t.respaced e o).text.length = e.stop (o + t.text.length) :=
  Insertion.start_add_of_chunk (ExprTree.inside_text t hw o [] h)

/-- A parenthesis, a sign or a semicolon leads from where it begins to where it ends. -/
theorem Insertion.start_add_one (h : ¬ ((Span.single o).start < e.place ∧
    e.place < (Span.single o).stop)) : e.start o + 1 = e.stop (o + 1) :=
  Insertion.start_add_length (w := ['(']) (List.cons_ne_nil _ _) h

theorem Insertion.span_single (h : ¬ ((Span.single o).start < e.place ∧
    e.place < (Span.single o).stop)) : e.span (.single o) = .single (e.start o) := by
  simp only [Span.single, Insertion.span, ← Insertion.start_add_one h]

/-! ## The code of the tree -/

mutual

/-- The code and the tokens of an operand with the insertion are those of the operand, moved. -/
theorem OperandTree.moved_respaced (t : OperandTree) (hw : t.Written) (o : Nat)
    (h : e.Between (t.lexemes o)) (scope : Scope) :
    (t.respaced e o).elaborate scope (e.start o) = (t.elaborate scope o).moved e ∧
      (t.respaced e o).lexemes (e.start o) = (t.lexemes o).map e.span := by
  have hlength := OperandTree.start_add_text hw h
  match t with
  | .group opening inner closing =>
    simp only [OperandTree.lexemes, Insertion.between_cons, Insertion.between_append] at h
    obtain ⟨hopen, hinner, hclose, -⟩ := h
    have hbegin : e.start o + 1 + (e.within (o + 1) opening).length
        = e.start (o + 1 + opening.length) := by
      rw [Insertion.start_add_one hopen, Insertion.stop_add_within]
    have hend : e.start (o + 1 + opening.length)
        + (inner.respaced e (o + 1 + opening.length)).text.length
        + (e.within (o + 1 + opening.length + inner.text.length) closing).length
        = e.start (o + 1 + opening.length + inner.text.length + closing.length) := by
      rw [ExprTree.start_add_text hw.2.1 hinner, Insertion.stop_add_within]
    obtain ⟨hcode, hlexemes⟩ := ExprTree.moved_respaced inner hw.2.1 _ hinner scope closing
    constructor
    · simp only [OperandTree.respaced, OperandTree.elaborate, Operand.moved, hbegin, hcode]
    · simp only [OperandTree.respaced, OperandTree.lexemes, hbegin, hend, hlexemes, List.map_cons,
        List.map_append, List.map_nil, Insertion.span_single hopen, Insertion.span_single hclose]
  | .string literal contents =>
    have hspan : e.start o + literal.length = e.stop (o + literal.length) := hlength
    simp [OperandTree.respaced, OperandTree.elaborate, OperandTree.lexemes, Operand.moved,
      Insertion.span, hspan]
  | .integer digits =>
    have hspan : e.start o + digits.length = e.stop (o + digits.length) := hlength
    simp [OperandTree.respaced, OperandTree.elaborate, OperandTree.lexemes, Operand.moved,
      Insertion.span, hspan]
  | .name letters =>
    have hspan : e.start o + letters.length = e.stop (o + letters.length) := hlength
    simp [OperandTree.respaced, OperandTree.elaborate, OperandTree.lexemes, Operand.moved,
      Insertion.span, hspan]

theorem ExprTree.moved_respaced (t : ExprTree) (hw : t.Written) (o : Nat)
    (h : e.Between (t.lexemes o)) (scope : Scope) (b : Text) :
    (t.respaced e o).elaborate scope (e.start o) (e.within (o + t.text.length) b).length
        = (t.elaborate scope o b.length).moved e ∧
      (t.respaced e o).lexemes (e.start o) = (t.lexemes o).map e.span := by
  have hlength := ExprTree.start_add_text hw h
  match t with
  | .mk first links =>
    obtain ⟨hfirst, hlinks⟩ := Insertion.between_append.mp h
    have hnext := OperandTree.start_add_text hw.1 hfirst
    have hend : e.start o + ((first.respaced e o).text.length
          + (links.respaced e (o + first.text.length)).text.length)
        + (e.within (o + (first.text.length + links.text.length)) b).length
        = e.start (o + (first.text.length + links.text.length) + b.length) := by
      simp only [ExprTree.respaced, ExprTree.text, List.length_append] at hlength
      rw [hlength, Insertion.stop_add_within]
    obtain ⟨hcode, hlexemes⟩ := OperandTree.moved_respaced first hw.1 o hfirst scope
    obtain ⟨hcode', hlexemes'⟩ := ChainTree.moved_respaced links hw.2 _ hlinks scope
    constructor
    · simp only [ExprTree.respaced, ExprTree.elaborate, Expr.moved, ExprTree.text,
        List.length_append, hnext, hend, hcode, hcode']
    · simp only [ExprTree.respaced, ExprTree.lexemes, hnext, hlexemes, hlexemes', List.map_append]

theorem ChainTree.moved_respaced (t : ChainTree) (hw : t.Written) (o : Nat)
    (h : e.Between (t.lexemes o)) (scope : Scope) :
    (t.respaced e o).elaborate scope (e.stop o) = (t.elaborate scope o).moved e ∧
      (t.respaced e o).lexemes (e.stop o) = (t.lexemes o).map e.span := by
  match t with
  | .nil => exact ⟨rfl, rfl⟩
  | .cons before op after operand links =>
    obtain ⟨-, hop, -, -, hoperand, hlinks⟩ := hw
    simp only [ChainTree.lexemes, Insertion.between_cons, Insertion.between_append] at h
    obtain ⟨hsymbol, hnext, hlater⟩ := h
    obtain ⟨c, tail, hs, -⟩ := symbol_head hop
    have hbegin := e.stop_add_within o before
    have hsigned : e.start (o + before.length) + op.symbol.toList.length
        = e.stop (o + before.length + op.symbol.toList.length) :=
      Insertion.start_add_length (by simp [hs]) hsymbol
    have hopened := e.stop_add_within (o + before.length + op.symbol.toList.length) after
    have hend := OperandTree.start_add_text hoperand hnext
    obtain ⟨hcode, hlexemes⟩ := OperandTree.moved_respaced operand hoperand _ hnext scope
    obtain ⟨hcode', hlexemes'⟩ := ChainTree.moved_respaced links hlinks _ hlater scope
    constructor
    · simp only [ChainTree.respaced, ChainTree.elaborate, Chain.moved, hbegin, hsigned, hopened,
        hend, hcode, hcode']
    · simp only [ChainTree.respaced, ChainTree.lexemes, hbegin, hsigned, hopened, hend, hlexemes,
        hlexemes', List.map_cons, List.map_append, Insertion.span]

end

/-! ## The code of the program -/

theorem AssignmentTree.moved_respaced {t : AssignmentTree} (hw : t.Written)
    (h : e.Between (t.lexemes o)) (scope : Scope) :
    (t.respaced e o).elaborate scope (e.stop o) = (t.elaborate scope o).moved e ∧
      (t.respaced e o).lexemes (e.stop o) = (t.lexemes o).map e.span := by
  have hwhole : e.stop o + (t.respaced e o).text.length = e.stop (o + t.text.length) := by
    rw [← AssignmentTree.inside_text t hw o h, Insertion.stop_add_inside]
  simp only [AssignmentTree.lexemes, Insertion.between_cons, Insertion.between_append] at h
  obtain ⟨hname, hsign, hexpr, hend, -⟩ := h
  obtain ⟨c, tail, hl, -⟩ := hw.name
  have hbegin := e.stop_add_within o t.before
  have hnamed : e.start (o + t.before.length) + t.name.length
      = e.stop (o + t.before.length + t.name.length) :=
    Insertion.start_add_length (by simp [hl]) hname
  have hequals := e.stop_add_within (o + t.before.length + t.name.length) t.beforeSign
  have hstart : (t.respaced e o).exprStart (e.stop o) = e.start (t.exprStart o) := by
    simp only [AssignmentTree.respaced, AssignmentTree.exprStart, hbegin, hnamed, hequals,
      Insertion.start_add_one hsign, Insertion.stop_add_within]
  have hstop : e.start (t.exprStart o) + (t.expr.respaced e (t.exprStart o)).text.length
      + (e.within (t.exprStart o + t.expr.text.length) t.beforeEnd).length
      = e.start (t.exprStart o + t.expr.text.length + t.beforeEnd.length) := by
    rw [ExprTree.start_add_text hw.expr hexpr, Insertion.stop_add_within]
  obtain ⟨hcode, hlexemes⟩ := ExprTree.moved_respaced t.expr hw.expr _ hexpr scope t.beforeEnd
  constructor
  · simp only [AssignmentTree.elaborate, Assignment.moved, hstart, hwhole, Insertion.span]
    simp only [AssignmentTree.respaced, AssignmentTree.target, hbegin, hcode]
  · simp only [AssignmentTree.lexemes, hstart, List.map_cons, List.map_append, List.map_nil,
      Insertion.span_single hsign, Insertion.span_single hend]
    simp only [AssignmentTree.respaced, hbegin, hnamed, hequals, hstop, hlexemes, Insertion.span]

theorem moved_respacedAll {trees : List AssignmentTree} (hw : ∀ t ∈ trees, t.Written)
    (h : e.Between (lexemesAll o trees)) (scope : Scope) :
    elaborateAll scope (e.stop o) (respacedAll e o trees)
        = (elaborateAll scope o trees).map (Assignment.moved e) ∧
      lexemesAll (e.stop o) (respacedAll e o trees) = (lexemesAll o trees).map e.span := by
  induction trees generalizing scope o with
  | nil => exact ⟨rfl, rfl⟩
  | cons t trees ih =>
    obtain ⟨ht, hlater⟩ := Insertion.between_append.mp h
    obtain ⟨htw, hrest⟩ := List.forall_mem_cons.mp hw
    have hwhole : e.stop o + (t.respaced e o).text.length = e.stop (o + t.text.length) := by
      rw [← AssignmentTree.inside_text t htw o ht, Insertion.stop_add_inside]
    obtain ⟨hcode, hlexemes⟩ := AssignmentTree.moved_respaced htw ht scope
    obtain ⟨hcodes, hlexemes'⟩ := ih hrest hlater
      (scope.bind t.target (t.elaborate scope o).expr.ty)
    have hty : ((t.elaborate scope o).moved e).expr.ty = (t.elaborate scope o).expr.ty :=
      Expr.ty_moved e _
    constructor
    · simp only [respacedAll, elaborateAll, hcode, hwhole, hty, List.map_cons]
      exact congrArg _ hcodes
    · simp only [respacedAll, lexemesAll, hlexemes, hwhole, hlexemes', List.map_append]

end Grammar

/-- An assignment binds the same wherever it stands. -/
@[simp] theorem SymbolTable.bind_moved (e : Insertion) (table : SymbolTable) (a : Assignment) :
    table.bind (a.moved e) = table.bind a := by
  simp [SymbolTable.bind, Assignment.moved]

@[simp] theorem SymbolTable.bindAll_moved (e : Insertion) (table : SymbolTable)
    (assignments : List Assignment) :
    table.bindAll (assignments.map (Assignment.moved e)) = table.bindAll assignments := by
  simp [SymbolTable.bindAll, List.foldl_map]

/-- Layout between two tokens of a program, in no comment, moves the tokens and the code behind it
and changes nothing else; layout behind the end of a program changes nothing. -/
theorem ofProgram_respaced {source : Text} {code : Code}
    (h : Code.ofProgram source = .ok code) :
    ∃ d : Derivation source, d.statements = code.statements ∧
      (∀ e : Insertion, e.place ≤ source.length → e.Between d.lexemes →
        ¬ SplitsComment source e.place →
        ∃ (new : Code) (d' : Derivation (e.into source)),
          Code.ofProgram (e.into source) = .ok new ∧ new.symbols = code.symbols ∧
            new.statements = code.statements.map (Statement.moved e) ∧
            d'.lexemes = d.lexemes.map e.span) ∧
      ∀ b, FinalLayout b → Code.ofProgram (source ++ b) = .ok code := by
  obtain ⟨d⟩ := exists_derivation h
  rw [d.ofProgram_eq] at h
  cases h
  refine ⟨d, rfl, ?_, fun b hb => (d.extended hb).ofProgram_eq⟩
  intro e hplace hbetween hsplit
  let d' := d.respaced hplace hbetween hsplit
  have hstart : e.stop 0 = 0 := if_neg (Nat.not_lt_zero _)
  obtain ⟨hcode, hlexemes⟩ := moved_respacedAll d.written hbetween (fun _ => none)
  rw [hstart] at hcode hlexemes
  refine ⟨_, d', d'.ofProgram_eq, ?_, ?_, hlexemes⟩
  · show SymbolTable.empty.bindAll (elaborateAll _ 0 (respacedAll e 0 d.assignments)) = _
    rw [hcode, SymbolTable.bindAll_moved]
  · show (elaborateAll _ 0 (respacedAll e 0 d.assignments)).map Statement.assignment = _
    rw [hcode, Derivation.statements, List.map_map, List.map_map]
    rfl

/-- A quotient, written without layout. -/
def Grammar.quotient : Derivation "a=7/2;".toList where
  assignments := [{
    before := []
    name := ['a']
    beforeSign := []
    afterSign := []
    expr := .mk (.integer ['7']) (.cons [] .divide [] (.integer ['2']) .nil)
    beforeEnd := [] }]
  trailing := []
  text_eq := by decide
  written := by
    have hname : IsName ['a'] := ⟨'a', [], rfl, by decide, by simp⟩
    have hseven : (OperandTree.integer ['7']).Written :=
      ⟨⟨'7', [], rfl, by decide, by simp⟩, by decide⟩
    have htwo : (OperandTree.integer ['2']).Written :=
      ⟨⟨'2', [], rfl, by decide, by simp⟩, by decide⟩
    have hlinks : (ChainTree.cons [] .divide [] (.integer ['2']) .nil).Written :=
      ⟨.nil, by decide, fun _ => by decide, .nil, htwo, trivial⟩
    refine List.forall_mem_singleton.mpr ?_
    exact ⟨.nil, hname, .nil, .nil, ⟨hseven, hlinks⟩, by decide, .nil⟩
  trailing_layout := .closed .nil
  typed := ⟨.int, ⟨rfl, rfl, trivial⟩, trivial⟩

/-- A comment behind the slash of a division moves the divisor. -/
theorem respaced_behind_slash :
    ∃ code new, Code.ofProgram "a=7/2;".toList = .ok code ∧
      Code.ofProgram "a=7/ //;\n2;".toList = .ok new ∧ new.symbols = code.symbols ∧
      new.statements = [.assignment ⟨"a", .mk (.literal (.int 7) ⟨2, 3⟩)
        (.cons .divide (.literal (.int 2) ⟨9, 10⟩) .nil) ⟨2, 10⟩, ⟨0, 11⟩⟩] := by
  let e : Insertion := {
    place := 4
    blank := ' '
    more := "//;\n".toList
    blank_isBlank := by decide
    more_layout := .comment (by decide : '\n' ∉ [';']) .nil }
  have hcode : Code.ofProgram "a=7/2;".toList = .ok
      ⟨[.assignment ⟨"a", .mk (.literal (.int 7) ⟨2, 3⟩)
        (.cons .divide (.literal (.int 2) ⟨4, 5⟩) .nil) ⟨2, 5⟩, ⟨0, 6⟩⟩],
        .ofList [("a", ⟨some "a", .int⟩)]⟩ := by
    decide +kernel
  obtain ⟨d, -, hinsert, -⟩ := ofProgram_respaced hcode
  have hbetween : e.Between d.lexemes := by
    rw [(subsingleton_derivation _).elim d quotient]
    decide
  obtain ⟨new, -, hnew, hsymbols, hstatements, -⟩ :=
    hinsert e (by decide) hbetween (by decide)
  exact ⟨_, new, hcode, hnew, hsymbols, hstatements⟩

end Bindcheck
