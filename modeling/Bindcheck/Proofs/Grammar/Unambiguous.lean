/-
Bindcheck.Proofs.Grammar.Unambiguous — no text has two derivations.

Two trees of one kind that stand in front of the same text are the same
tree, and the text behind them is the same: the trees of each kind are a
prefix code, given that what follows does not continue them. The
conditions on what follows are those of reading back.

* `OperandTree.unique`, `ExprTree.unique` and `ChainTree.unique` are one
  induction. The first character of an operand decides its kind; every
  other cut is where layout ends, where an operator ends, or where a
  run of name characters ends.
* `AssignmentTree.unique` needs no condition, and so
  `subsingleton_derivation` holds of every source.
-/
import Bindcheck.Proofs.Grammar.ReadBack

namespace Bindcheck

namespace Grammar

open Quoted

/-! ## Leaves -/

/-- A run in front of a text is cut off in one way only. -/
theorem run_unique {first next : Char → Bool} {a b r s : Text} (ha : Run first next a)
    (hb : Run first next b) (hr : ∀ c ∈ r.head?, next c = false)
    (hs : ∀ c ∈ s.head?, next c = false) (h : a ++ r = b ++ s) : a = b ∧ r = s := by
  have hread := read_run ha hr
  rw [h, read_run hb hs] at hread
  have hab : a = b := by
    cases hread
    rfl
  subst hab
  exact ⟨rfl, List.append_cancel_left h⟩

/-- The body of a string ends at one place only. -/
theorem spelling_unique {form : Form} {w v w' v' r s : Text} (hw : Spelling form w v)
    (hw' : Spelling form w' v') (h : w ++ quote :: r = w' ++ quote :: s) :
    w = w' ∧ v = v' ∧ r = s := by
  have hbody := body_of_spelling hw r
  rw [h, body_of_spelling hw' s] at hbody
  injection hbody with hv hlength
  obtain ⟨hword, hrest⟩ := List.append_inj h (by omega)
  injection hrest with _ hrest
  exact ⟨hword, hv.symm, hrest⟩

/-- A string literal ends at one place only, and denotes one text. -/
theorem StringLiteral.unique {l v l' v' r s : Text} (hl : StringLiteral l v)
    (hl' : StringLiteral l' v') (h : l ++ r = l' ++ s) : l = l' ∧ v = v' ∧ r = s := by
  have hne : quote ≠ rawMark := by decide
  cases hl with
  | @plain w _ hw =>
    cases hl' with
    | @plain w' _ hw' =>
      have hbody : w ++ quote :: r = w' ++ quote :: s := by simpa using h
      obtain ⟨rfl, rfl, rfl⟩ := spelling_unique hw hw' hbody
      exact ⟨rfl, rfl, rfl⟩
    | raw _ _ => exact absurd (List.cons.inj h).1 hne
  | @raw gap w _ hg hw =>
    cases hl' with
    | plain _ => exact absurd (List.cons.inj h).1.symm hne
    | @raw gap' w' _ hg' hw' =>
      have hopening : gap ++ quote :: (w ++ quote :: r) = gap' ++ quote :: (w' ++ quote :: s) := by
        simpa using h
      have hbare : ∀ text, Bare (quote :: text) := fun _ => bare_cons (by decide) (by decide)
      obtain ⟨rfl, hbody⟩ := hg.split_unique hg' (hbare _) (hbare _) hopening
      obtain ⟨rfl, rfl, rfl⟩ := spelling_unique hw hw' (List.cons.inj hbody).2
      exact ⟨rfl, rfl, rfl⟩

/-- An operator is cut off in one way only if nothing behind it makes it longer. -/
theorem operator_unique {op op' : Operator} (hop : op ∈ Operator.binary)
    (hop' : op' ∈ Operator.binary) {r s : Text} (hr : ∀ c ∈ r.head?, ¬ ExtendsOperator c)
    (hs : ∀ c ∈ s.head?, ¬ ExtendsOperator c)
    (h : op.symbol.toList ++ r = op'.symbol.toList ++ s) : op = op' ∧ r = s := by
  have hread := read_operator hop hr
  rw [h, read_operator hop' hs] at hread
  have heq : op = op' := by
    cases hread
    rfl
  subst heq
  exact ⟨rfl, List.append_cancel_left h⟩

/-! ## Operands, expressions and chains -/

/-- The kinds of operands. -/
inductive OperandKind where
  | group
  | string
  | integer
  | name
  deriving DecidableEq

def OperandTree.kind : OperandTree → OperandKind
  | .group _ _ _ => .group
  | .string _ _ => .string
  | .integer _ => .integer
  | .name _ => .name

/-- The kind of the operands that begin with a character. -/
def kindOf (c : Char) : OperandKind :=
  if c = '(' then .group
  else if c = quote ∨ c = rawMark then .string
  else if c.isDigit then .integer
  else .name

/-- What may stand in a name begins neither a group nor a string. -/
theorem ne_of_isNamePart {c : Char} (h : Token.isNamePart c = true) :
    c ≠ '(' ∧ ¬ (c = quote ∨ c = rawMark) := by
  refine ⟨?_, ?_⟩
  · rintro rfl
    exact absurd h (by decide)
  · rintro (rfl | rfl) <;> exact absurd h (by decide)

/-- The first character decides the kind of an operand. -/
theorem OperandTree.kindOf_head {t : OperandTree} (h : t.Written) {c : Char}
    (hc : c ∈ t.text.head?) : kindOf c = t.kind := by
  cases t with
  | group opening inner closing =>
    obtain rfl := Option.mem_some.mp hc
    rfl
  | string literal contents =>
    obtain ⟨x, rest, rfl, hx⟩ := StringLiteral.head h
    obtain rfl := Option.mem_some.mp hc
    rcases hx with rfl | rfl <;> rfl
  | integer digits =>
    obtain ⟨⟨x, rest, rfl, hx, -⟩, -⟩ := h
    obtain rfl := Option.mem_some.mp hc
    obtain ⟨hparen, hquote⟩ := ne_of_isNamePart (isNamePart_of_isDigit hx)
    unfold kindOf
    rw [if_neg hparen, if_neg hquote, if_pos hx]
    rfl
  | name letters =>
    obtain ⟨x, rest, rfl, hx, -⟩ := h
    obtain rfl := Option.mem_some.mp hc
    obtain ⟨hparen, hquote⟩ := ne_of_isNamePart (isNamePart_of_isNameStart hx)
    have hdigit : ¬ x.isDigit = true := by
      intro hd
      rw [isNameStart_of_isDigit hd] at hx
      cases hx
    unfold kindOf
    rw [if_neg hparen, if_neg hquote, if_neg hdigit]
    rfl

theorem OperandTree.kind_eq {t t' : OperandTree} (ht : t.Written) (ht' : t'.Written)
    {r s : Text} (h : t.text ++ r = t'.text ++ s) : t.kind = t'.kind := by
  obtain ⟨c, rest, htext, -⟩ := OperandTree.head ht
  obtain ⟨c', rest', htext', -⟩ := OperandTree.head ht'
  have hc : c = c' := by
    rw [htext, htext'] at h
    exact (List.cons.inj h).1
  rw [← OperandTree.kindOf_head ht (c := c) (by simp [htext]),
    ← OperandTree.kindOf_head ht' (c := c') (by simp [htext']), hc]

/-- Where an expression stops, no chain with an operator begins. -/
theorem Stops.ne_chain {before after r s : Text} {op : Operator} {next : OperandTree}
    {links : ChainTree} (hr : Stops r)
    (h : (ChainTree.cons before op after next links).Written) :
    r ≠ (ChainTree.cons before op after next links).text ++ s := by
  have hbare := ChainTree.bare h (links.text ++ s)
  obtain ⟨hbefore, hop, -, hafter, hnext, -⟩ := h
  have hread := read_operator hop (OperandTree.not_extendsOperator hnext hafter (links.text ++ s))
  rintro rfl
  have hnone := hr.noOperator
  simp only [ChainTree.text, List.append_assoc] at hnone
  rw [hbefore.layoutLength_of_bare hbare, List.drop_left, hread] at hnone
  cases hnone

mutual

/-- Two operands in front of the same text are the same. -/
theorem OperandTree.unique (t t' : OperandTree) {r s : Text} (ht : t.Written)
    (ht' : t'.Written) (hr : Boundary r) (hs : Boundary s) (h : t.text ++ r = t'.text ++ s) :
    t = t' ∧ r = s := by
  have hkind := OperandTree.kind_eq ht ht' h
  match t with
  | .string literal contents =>
    cases t' with
    | string literal' contents' =>
      obtain ⟨rfl, rfl, rfl⟩ := StringLiteral.unique ht ht' h
      exact ⟨rfl, rfl⟩
    | _ => cases hkind
  | .integer digits =>
    cases t' with
    | integer digits' =>
      obtain ⟨rfl, rfl⟩ :=
        run_unique ht.1 ht'.1 hr.isDigit_eq_false hs.isDigit_eq_false h
      exact ⟨rfl, rfl⟩
    | _ => cases hkind
  | .name letters =>
    cases t' with
    | name letters' =>
      obtain ⟨rfl, rfl⟩ := run_unique ht ht' hr hs h
      exact ⟨rfl, rfl⟩
    | _ => cases hkind
  | .group opening inner closing =>
    cases t' with
    | group opening' inner' closing' =>
      obtain ⟨hopening, hinner, hclosing⟩ := ht
      obtain ⟨hopening', hinner', hclosing'⟩ := ht'
      have hparen : Closes ')' := .inl rfl
      have htext : opening ++ (inner.text ++ (closing ++ ')' :: r))
          = opening' ++ (inner'.text ++ (closing' ++ ')' :: s)) := by
        simpa [OperandTree.text] using h
      obtain ⟨rfl, hexpr⟩ := hopening.split_unique hopening' (ExprTree.bare hinner _)
        (ExprTree.bare hinner' _) htext
      obtain ⟨rfl, hclose⟩ := ExprTree.unique inner inner' hinner hinner'
        (hparen.stops hclosing r) (hparen.stops hclosing' s) hexpr
      obtain ⟨rfl, hrest⟩ := hclosing.split_unique hclosing' (hparen.bare r) (hparen.bare s) hclose
      exact ⟨rfl, (List.cons.inj hrest).2⟩
    | _ => cases hkind

theorem ExprTree.unique (t t' : ExprTree) {r s : Text} (ht : t.Written) (ht' : t'.Written)
    (hr : Stops r) (hs : Stops s) (h : t.text ++ r = t'.text ++ s) : t = t' ∧ r = s := by
  match t with
  | .mk first links =>
    cases t' with
    | mk first' links' =>
      have htext : first.text ++ (links.text ++ r) = first'.text ++ (links'.text ++ s) := by
        simpa [ExprTree.text] using h
      obtain ⟨rfl, hlinks⟩ := OperandTree.unique first first' ht.1 ht'.1
        (ChainTree.boundary ht.2 hr.boundary) (ChainTree.boundary ht'.2 hs.boundary) htext
      obtain ⟨rfl, rfl⟩ := ChainTree.unique links links' ht.2 ht'.2 hr hs hlinks
      exact ⟨rfl, rfl⟩

theorem ChainTree.unique (t t' : ChainTree) {r s : Text} (ht : t.Written) (ht' : t'.Written)
    (hr : Stops r) (hs : Stops s) (h : t.text ++ r = t'.text ++ s) : t = t' ∧ r = s := by
  match t with
  | .nil =>
    cases t' with
    | nil => exact ⟨rfl, h⟩
    | cons before op after next links => exact absurd h (hr.ne_chain ht')
  | .cons before op after next links =>
    cases t' with
    | nil => exact absurd h.symm (hs.ne_chain ht)
    | cons before' op' after' next' links' =>
      have hbare := ChainTree.bare ht (links.text ++ r)
      have hbare' := ChainTree.bare ht' (links'.text ++ s)
      obtain ⟨hbefore, hop, -, hafter, hnext, hlinks⟩ := ht
      obtain ⟨hbefore', hop', -, hafter', hnext', hlinks'⟩ := ht'
      simp only [ChainTree.text, List.append_assoc] at h
      obtain ⟨rfl, hsymbol⟩ := hbefore.split_unique hbefore' hbare hbare' h
      obtain ⟨rfl, hlayout⟩ := operator_unique hop hop'
        (OperandTree.not_extendsOperator hnext hafter _)
        (OperandTree.not_extendsOperator hnext' hafter' _) hsymbol
      obtain ⟨rfl, hoperand⟩ := hafter.split_unique hafter' (OperandTree.bare hnext _)
        (OperandTree.bare hnext' _) hlayout
      obtain ⟨rfl, hrest⟩ := OperandTree.unique next next' hnext hnext'
        (ChainTree.boundary hlinks hr.boundary) (ChainTree.boundary hlinks' hs.boundary) hoperand
      obtain ⟨rfl, rfl⟩ := ChainTree.unique links links' hlinks hlinks' hr hs hrest
      exact ⟨rfl, rfl⟩

end

/-! ## Assignments and programs -/

/-- Two assignments in front of the same text are the same. -/
theorem AssignmentTree.unique {t t' : AssignmentTree} {r s : Text} (ht : t.Written)
    (ht' : t'.Written) (h : t.text ++ r = t'.text ++ s) : t = t' ∧ r = s := by
  have hsemicolon : Closes ';' := .inr rfl
  have hequals : ∀ text, Bare ('=' :: text) := fun _ => bare_cons (by decide) (by decide)
  have hwhole : t.before ++ (t.name ++ (t.tail ++ r))
      = t'.before ++ (t'.name ++ (t'.tail ++ s)) := by
    simpa [AssignmentTree.text] using h
  obtain ⟨hbefore, hname⟩ := ht.before.split_unique ht'.before (ht.name.bare _)
    (ht'.name.bare _) hwhole
  obtain ⟨hname, htail⟩ := run_unique ht.name ht'.name (AssignmentTree.boundary_tail ht r)
    (AssignmentTree.boundary_tail ht' s) hname
  simp only [AssignmentTree.tail, List.append_assoc, List.cons_append, List.nil_append] at htail
  obtain ⟨hbeforeSign, hsign⟩ := ht.beforeSign.split_unique ht'.beforeSign (hequals _)
    (hequals _) htail
  obtain ⟨hafterSign, hexpr⟩ := ht.afterSign.split_unique ht'.afterSign
    (ExprTree.bare ht.expr _) (ExprTree.bare ht'.expr _) (List.cons.inj hsign).2
  obtain ⟨hexpr, hend⟩ := ExprTree.unique t.expr t'.expr ht.expr ht'.expr
    (hsemicolon.stops ht.beforeEnd r) (hsemicolon.stops ht'.beforeEnd s) hexpr
  obtain ⟨hbeforeEnd, hrest⟩ := ht.beforeEnd.split_unique ht'.beforeEnd (hsemicolon.bare r)
    (hsemicolon.bare s) hend
  refine ⟨?_, (List.cons.inj hrest).2⟩
  cases t
  cases t'
  simp only at hbefore hname hbeforeSign hafterSign hexpr hbeforeEnd
  rw [hbefore, hname, hbeforeSign, hafterSign, hexpr, hbeforeEnd]

/-- No assignment stands in what is layout to the end of the text. -/
theorem FinalLayout.ne_assignment {b s : Text} {t : AssignmentTree} (h : FinalLayout b)
    (ht : t.Written) : b ≠ t.text ++ s := by
  rintro rfl
  have hlength := h.layoutLength_eq
  rw [AssignmentTree.text, List.append_assoc, List.append_assoc,
    ht.before.layoutLength_of_bare (ht.name.bare _)] at hlength
  obtain ⟨first, part, hname, -⟩ := ht.name
  rw [hname] at hlength
  simp only [List.length_append, List.length_cons] at hlength
  omega

/-- A text is cut into assignments and layout in one way only. -/
theorem assignments_unique {trees trees' : List AssignmentTree} {b b' : Text}
    (hw : ∀ t ∈ trees, t.Written) (hw' : ∀ t ∈ trees', t.Written) (hb : FinalLayout b)
    (hb' : FinalLayout b')
    (h : trees.flatMap AssignmentTree.text ++ b = trees'.flatMap AssignmentTree.text ++ b') :
    trees = trees' ∧ b = b' := by
  induction trees generalizing trees' with
  | nil =>
    cases trees' with
    | nil => exact ⟨rfl, h⟩
    | cons t' trees' =>
      rw [List.flatMap_nil, List.nil_append, List.flatMap_cons, List.append_assoc] at h
      exact absurd h (hb.ne_assignment (hw' t' List.mem_cons_self))
  | cons t trees ih =>
    rw [List.flatMap_cons, List.append_assoc] at h
    cases trees' with
    | nil => exact absurd h.symm (hb'.ne_assignment (hw t List.mem_cons_self))
    | cons t' trees' =>
      rw [List.flatMap_cons, List.append_assoc] at h
      obtain ⟨rfl, hrest⟩ := AssignmentTree.unique (hw t List.mem_cons_self)
        (hw' t' List.mem_cons_self) h
      obtain ⟨rfl, rfl⟩ := ih (fun u hu => hw u (List.mem_cons_of_mem t hu))
        (fun u hu => hw' u (List.mem_cons_of_mem t hu)) hrest
      exact ⟨rfl, rfl⟩

/-- A source has at most one derivation. -/
theorem subsingleton_derivation (source : Text) : Subsingleton (Derivation source) := by
  constructor
  intro d d'
  obtain ⟨htrees, htrailing⟩ := assignments_unique d.written d'.written d.trailing_layout
    d'.trailing_layout (d.text_eq.trans d'.text_eq.symm)
  cases d
  cases d'
  simp only at htrees htrailing
  subst htrees htrailing
  rfl

end Grammar

end Bindcheck
