/-
Bindcheck.Proofs.Refusal.Place — the places of a source that lie between
two of its tokens.

Whether a character belongs to a comment is decided by all characters
before it, since two slashes in a string do not begin one. `Mode.next` is
an automaton that takes a text character by character and remembers no
more than that decision needs; `InComment` is what it says of an offset.
It knows nothing of the grammar.

The two agree. Every token takes the automaton from the code of a program
back to it (`Neutral`), and so does the text of every tree, by induction
on the tree. A `Place` is a cursor which the automaton reaches in that
state, so what the readers take leads from place to place (`Place.step`).
A character at a place that is not layout is in no comment
(`Place.token`), and closed layout there is blank or in one
(`Place.not_tokenAt`).
-/
import Bindcheck.Proofs.Grammar.Soundness

namespace Bindcheck

namespace Grammar

open Quoted

/-! ## Comments, by the characters before -/

/-- What the characters of a text say of the next one. The form is that of a string that would begin
at a quote, or has begun. -/
inductive Mode where
  /-- It is code, or a blank. -/
  | code (form : Form)
  /-- It is code behind a slash, or makes a comment of the slash. -/
  | slash (form : Form)
  /-- It is in a comment. -/
  | comment (form : Form)
  /-- It is in a string. -/
  | string (form : Form)
  /-- It is in a string, behind a backslash. -/
  | escape
  deriving DecidableEq, Repr

namespace Mode

/-- What a character of code says of the next one. -/
def ofCode (form : Form) (x : Char) : Mode :=
  if isBlank x then code form
  else if x = '/' then slash form
  else if x = quote then string form
  else if x = rawMark then code .raw
  else code .plain

/-- What a character says of the next one, by what is said of it. -/
def next : Mode → Char → Mode
  | code form, x => ofCode form x
  | slash form, x => if x = '/' then comment form else ofCode .plain x
  | comment form, x => if x = '\n' then code form else comment form
  | string form, x =>
    if x = quote then code .plain
    else if form = .plain ∧ x = backslash then escape
    else string form
  | escape, _ => string .plain

/-- What a text says of the character behind it. -/
def run (m : Mode) (text : Text) : Mode := text.foldl next m

/-- What the characters before an offset of a source say of the one there. -/
def before (source : Text) (offset : Nat) : Mode := (code .plain).run (source.take offset)

@[simp] theorem run_nil (m : Mode) : m.run [] = m := rfl

@[simp] theorem run_cons (m : Mode) (x : Char) (text : Text) :
    m.run (x :: text) = (m.next x).run text := rfl

theorem run_append (m : Mode) (a b : Text) : m.run (a ++ b) = (m.run a).run b :=
  List.foldl_append ..

end Mode

/-- The character at an offset belongs to a comment, as one of the slashes that begin it or behind
them. -/
def InComment (source : Text) (offset : Nat) : Prop :=
  match Mode.before source offset with
  | .code _ => source[offset]? = some '/' ∧ source[offset + 1]? = some '/'
  | .slash _ => source[offset]? = some '/'
  | .comment _ => True
  | .string _ | .escape => False

/-- The offset is that of a character which is neither a blank nor in a comment. -/
def TokenAt (source : Text) (offset : Nat) : Prop :=
  ∃ x, source[offset]? = some x ∧ isBlank x = false ∧ ¬ InComment source offset

/-! ## Texts that begin and end in code -/

/-- The text is code up to its end, and nothing in it is left open. -/
def Neutral (text : Text) : Prop := (Mode.code .plain).run text = .code .plain

theorem Neutral.nil : Neutral [] := rfl

theorem Neutral.append {a b : Text} (ha : Neutral a) (hb : Neutral b) : Neutral (a ++ b) := by
  unfold Neutral at *
  rw [Mode.run_append, ha, hb]

theorem Neutral.cons {x : Char} {text : Text} (hx : Mode.ofCode .plain x = .code .plain)
    (h : Neutral text) : Neutral (x :: text) := by
  unfold Neutral at *
  rw [Mode.run_cons, Mode.next, hx, h]

/-- A comment runs up to the line feed that closes it. -/
theorem Mode.run_comment {form : Form} {words : Text} (h : '\n' ∉ words) :
    (Mode.comment form).run words = .comment form := by
  induction words with
  | nil => rfl
  | cons x words ih =>
    obtain ⟨hx, hwords⟩ := List.ne_and_not_mem_of_not_mem_cons h
    rw [run_cons, next, if_neg (Ne.symm hx), ih hwords]

/-- Layout between a mark and a quote does not part them. -/
theorem Layout.run_code {b : Text} (h : Layout b) (form : Form) :
    (Mode.code form).run b = .code form := by
  induction h with
  | nil => rfl
  | blank hc _ ih => rw [Mode.run_cons, Mode.next, Mode.ofCode, if_pos hc, ih]
  | @comment words b hw _ ih =>
    have hbegin : (Mode.code form).run ('/' :: '/' :: (words ++ '\n' :: b))
        = (Mode.comment form).run (words ++ '\n' :: b) := rfl
    rw [hbegin, Mode.run_append, Mode.run_comment hw, Mode.run_cons, Mode.next, if_pos rfl, ih]

theorem Layout.neutral {b : Text} (h : Layout b) : Neutral b := h.run_code .plain

theorem ofCode_of_isNamePart {x : Char} (h : Token.isNamePart x = true) :
    Mode.ofCode .plain x = .code .plain := by
  have hslash : x ≠ '/' := by
    rintro rfl
    exact absurd h (by decide)
  have hquote : x ≠ quote := by
    rintro rfl
    exact absurd h (by decide)
  have hmark : x ≠ rawMark := by
    rintro rfl
    exact absurd h (by decide)
  unfold Mode.ofCode
  rw [if_neg hslash, if_neg hquote, if_neg hmark]
  exact ite_self _

theorem neutral_of_isNamePart {text : Text} (h : ∀ x ∈ text, Token.isNamePart x = true) :
    Neutral text := by
  induction text with
  | nil => exact .nil
  | cons x text ih =>
    obtain ⟨hx, htext⟩ := List.forall_mem_cons.mp h
    exact .cons (ofCode_of_isNamePart hx) (ih htext)

theorem IsName.neutral {letters : Text} (h : IsName letters) : Neutral letters :=
  neutral_of_isNamePart h.isNamePart

theorem IsNumeral.neutral {digits : Text} (h : IsNumeral digits) : Neutral digits :=
  neutral_of_isNamePart h.isNamePart

/-- What is spelled in a string does not end it. -/
theorem Spelling.run_string {form : Form} {w v : Text} (h : Spelling form w v) :
    (Mode.string form).run w = .string form := by
  induction h with
  | nil => rfl
  | plain hq hb _ ih =>
    rw [Mode.run_cons, Mode.next, if_neg hq, if_neg (fun h => hb h.1 h.2), ih]
  | @escape e c w v hf _ _ ih =>
    subst hf
    have hbegin : (Mode.string .plain).run (backslash :: e :: w)
        = (Mode.string .plain).run w := rfl
    rw [hbegin, ih]

theorem StringLiteral.neutral {literal v : Text} (h : StringLiteral literal v) :
    Neutral literal := by
  unfold Neutral
  cases h with
  | @plain w v hw =>
    have hbegin : (Mode.code .plain).run (quote :: (w ++ [quote]))
        = (Mode.string .plain).run (w ++ [quote]) := rfl
    rw [hbegin, Mode.run_append, hw.run_string]
    rfl
  | @raw gap w v hg hw =>
    have hbegin : (Mode.code .plain).run (rawMark :: (gap ++ quote :: (w ++ [quote])))
        = (Mode.code .raw).run (gap ++ quote :: (w ++ [quote])) := rfl
    have hopen : (Mode.code .raw).run (quote :: (w ++ [quote]))
        = (Mode.string .raw).run (w ++ [quote]) := rfl
    rw [hbegin, Mode.run_append, hg.run_code, hopen, Mode.run_append, hw.run_string]
    rfl

/-- The slash is the one operator that leaves open what it begins. -/
theorem run_symbol : ∀ op ∈ Operator.binary,
    (Mode.code .plain).run op.symbol.toList
      = if op = .divide then .slash .plain else .code .plain := by
  decide

/-! ## Code that goes on -/

/-- In front of the text the automaton is in code: a slash, if one stands there, is no part of a
comment. -/
def Mode.Ready (m : Mode) (text : Text) : Prop :=
  m = .code .plain ∨ m = .slash .plain ∧ text.head? ≠ some '/'

/-- Behind a slash, text that begins no comment is taken as if there were no slash. -/
theorem Mode.Ready.run_eq {m : Mode} {w : Text} (h : m.Ready w) (hw : w ≠ []) :
    m.run w = (Mode.code .plain).run w := by
  rcases h with rfl | ⟨rfl, hhead⟩
  · rfl
  · obtain ⟨x, w, rfl⟩ := List.exists_cons_of_ne_nil hw
    have hx : x ≠ '/' := by
      rintro rfl
      exact hhead rfl
    rw [run_cons, run_cons, next, next, if_neg hx]

/-- An operator is followed by code. -/
theorem ready_symbol {op : Operator} {rest : Text} (hop : op ∈ Operator.binary)
    (hslash : op = .divide → rest.head? ≠ some '/') :
    ((Mode.code .plain).run op.symbol.toList).Ready rest := by
  rw [run_symbol op hop]
  split
  · rename_i hdivide
    exact .inr ⟨rfl, hslash hdivide⟩
  · exact .inl rfl

mutual

/-- The text of an operand is code up to its end. -/
theorem OperandTree.neutral {t : OperandTree} (h : t.Written) : Neutral t.text := by
  match t with
  | .group opening inner closing =>
    obtain ⟨hopening, hinner, hclosing⟩ := h
    have hend : Neutral [')'] := rfl
    exact .cons rfl
      (hopening.neutral.append ((ExprTree.neutral hinner).append (hclosing.neutral.append hend)))
  | .string literal contents => exact StringLiteral.neutral h
  | .integer digits => exact IsNumeral.neutral h.1
  | .name letters => exact IsName.neutral h

theorem ExprTree.neutral {t : ExprTree} (h : t.Written) : Neutral t.text := by
  match t with
  | .mk first links => exact (OperandTree.neutral h.1).append (ChainTree.neutral h.2)

theorem ChainTree.neutral {t : ChainTree} (h : t.Written) : Neutral t.text := by
  match t with
  | .nil => exact .nil
  | .cons before op after operand links =>
    obtain ⟨hbefore, hop, hslash, hafter, hoperand, hlinks⟩ := h
    have hne : after ++ (operand.text ++ links.text) ≠ [] := by
      obtain ⟨x, tail, htext, -⟩ := OperandTree.head hoperand
      simp [htext]
    have hready : ((Mode.code .plain).run op.symbol.toList).Ready
        (after ++ (operand.text ++ links.text)) := by
      refine ready_symbol hop ?_
      rw [OperandTree.head?_append hoperand]
      exact hslash
    have hrest : Neutral (after ++ (operand.text ++ links.text)) :=
      hafter.neutral.append ((OperandTree.neutral hoperand).append (ChainTree.neutral hlinks))
    refine hbefore.neutral.append ?_
    unfold Neutral
    rw [Mode.run_append, hready.run_eq hne, hrest]

end

theorem AssignmentTree.neutral {t : AssignmentTree} (h : t.Written) : Neutral t.text := by
  have hend : Neutral [';'] := rfl
  have hvalue : Neutral (t.expr.text ++ (t.beforeEnd ++ [';'])) :=
    (ExprTree.neutral h.expr).append (h.beforeEnd.neutral.append hend)
  have htail : Neutral t.tail :=
    h.beforeSign.neutral.append (.cons rfl (h.afterSign.neutral.append hvalue))
  exact h.before.neutral.append (h.name.neutral.append htail)

theorem neutral_assignments {trees : List AssignmentTree} (h : ∀ t ∈ trees, t.Written) :
    Neutral (trees.flatMap AssignmentTree.text) := by
  induction trees with
  | nil => exact .nil
  | cons t trees ih =>
    obtain ⟨ht, hlater⟩ := List.forall_mem_cons.mp h
    rw [List.flatMap_cons]
    exact (AssignmentTree.neutral ht).append (ih hlater)

end Grammar

/-! ## Places in a source -/

namespace Cursor

open Grammar

variable {source w : Text} {c d : Cursor}

/-- A cursor is reached behind the text that stands between it and one that is reached. -/
theorem Reaches.of_append (h : (start source).Reaches c) (hrest : c.rest = w ++ d.rest)
    (hoffset : d.offset = c.offset + w.length) : (start source).Reaches d := by
  refine h.trans ⟨w.length, by simp [hrest], ?_⟩
  cases d
  simp only [advance, Cursor.mk.injEq]
  exact ⟨hoffset, by simp [hrest]⟩

/-- What is left at a cursor is the source from its offset on. -/
theorem Reaches.drop_eq (h : (start source).Reaches c) : source.drop c.offset = c.rest :=
  h.rest_eq.symm

/-- Up to a cursor stands what stands up to an earlier one, and the text between the two. -/
theorem Reaches.take_append (h : (start source).Reaches c) (hrest : c.rest = w ++ d.rest)
    (hoffset : d.offset = c.offset + w.length) :
    source.take d.offset = source.take c.offset ++ w := by
  rw [hoffset, List.take_add, h.drop_eq, hrest, List.take_left]

/-- The span of a text that stands at a cursor cuts it out. -/
theorem Reaches.slice_eq (h : (start source).Reaches c) {rest : Text} (hrest : c.rest = w ++ rest) :
    (⟨c.offset, c.offset + w.length⟩ : Span).slice source = w := by
  simp [Span.slice, h.drop_eq, hrest]

end Cursor

namespace Grammar

variable {source w : Text} {c d : Cursor}

/-- A cursor in a source that stands between two tokens of it. -/
structure Place (source : Text) (c : Cursor) : Prop where
  reached : (Cursor.start source).Reaches c
  ready : c.rest ≠ [] → (Mode.before source c.offset).Ready c.rest

theorem place_start (source : Text) : Place source (Cursor.start source) where
  reached := .refl _
  ready _ := .inl rfl

/-- A text behind which code goes on leads from one place to another. -/
theorem Place.step (h : Place source c) (hrest : c.rest = w ++ d.rest)
    (hoffset : d.offset = c.offset + w.length)
    (hw : d.rest ≠ [] → ((Mode.code .plain).run w).Ready d.rest) : Place source d where
  reached := h.reached.of_append hrest hoffset
  ready := by
    intro hne
    have htake := h.reached.take_append hrest hoffset
    unfold Mode.before at *
    rw [htake, Mode.run_append]
    have hready := h.ready (by rw [hrest]; simp [hne])
    cases w with
    | nil => rwa [hrest] at hready
    | cons x w =>
      have hfront : ((Mode.code .plain).run (source.take c.offset)).Ready (x :: w) := by
        rwa [hrest] at hready
      rw [hfront.run_eq (List.cons_ne_nil x w)]
      exact hw hne

theorem Place.neutral (h : Place source c) (hrest : c.rest = w ++ d.rest)
    (hoffset : d.offset = c.offset + w.length) (hw : Neutral w) : Place source d :=
  h.step hrest hoffset fun _ => .inl hw

theorem Place.pastLayout (h : Place source c) : Place source c.pastLayout := by
  obtain ⟨b, -, hlayout, hrest, hoffset⟩ := c.exists_layout
  exact h.step hrest hoffset fun hne => .inl (hlayout hne).neutral

/-- A character at a place that is not layout is in no comment. -/
theorem Place.token (h : Place source c) (hbare : Bare c.rest) (hne : c.rest ≠ []) :
    TokenAt source c.offset := by
  have hready := h.ready hne
  obtain ⟨x, rest, hrest⟩ := List.exists_cons_of_ne_nil hne
  have hx : source[c.offset]? = some x := by
    rw [← h.reached.head?_rest, hrest]
    rfl
  have hnext : source[c.offset + 1]? = rest.head? := by
    rw [← List.head?_drop, ← List.drop_drop, h.reached.drop_eq, hrest, List.drop_one,
      List.tail_cons]
  rw [hrest] at hbare hready
  have hnot : isBlank x = false ∧ ∀ tail, x = '/' → rest ≠ '/' :: tail := by
    rcases layout_cases x rest with hblank | ⟨rfl, tail, rfl⟩ | hother
    · unfold Bare at hbare
      rw [layoutLength_blank hblank] at hbare
      omega
    · unfold Bare at hbare
      rw [layoutLength_slashes] at hbare
      omega
    · exact hother
  refine ⟨x, hx, hnot.1, ?_⟩
  unfold InComment
  rcases hready with hmode | ⟨hmode, hhead⟩
  · rw [hmode]
    rintro ⟨hslash, hsecond⟩
    rw [hx] at hslash
    rw [hnext] at hsecond
    obtain ⟨tail, htail⟩ := List.head?_eq_some_iff.mp hsecond
    exact hnot.2 tail (Option.some.inj hslash) htail
  · rw [hmode]
    intro hslash
    exact hhead (hx.symm.trans hslash)

/-! ## What is skipped at a place -/

/-- The characters behind a cursor tell the mode further on. -/
theorem Place.before_eq (h : Place source c) {text behind : Text}
    (hrest : c.rest = text ++ behind) :
    Mode.before source (c.offset + text.length) = (Mode.before source c.offset).run text := by
  unfold Mode.before
  rw [h.reached.take_append (d := ⟨c.offset + text.length, behind⟩) hrest rfl, Mode.run_append]

/-- Where a comment begins at a place, all characters up to the end of the line are in it. -/
theorem Place.inComment (h : Place source c) {words behind : Text}
    (hrest : c.rest = '/' :: '/' :: (words ++ behind)) (hw : '\n' ∉ words) {k : Nat}
    (hk : k ≤ words.length + 2) : InComment source (c.offset + k) := by
  have hmode : Mode.before source c.offset = .code .plain := by
    rcases h.ready (by simp [hrest]) with hcode | ⟨-, hhead⟩
    · exact hcode
    · simp [hrest] at hhead
  have hchar : ∀ j, source[c.offset + j]? = c.rest[j]? := by
    intro j
    rw [← h.reached.drop_eq, List.getElem?_drop]
  unfold InComment
  match k with
  | 0 =>
    rw [Nat.add_zero, hmode]
    exact ⟨by simpa [hrest] using hchar 0, by simpa [hrest] using hchar 1⟩
  | 1 =>
    have hslash : c.rest = ['/'] ++ '/' :: (words ++ behind) := hrest
    have hone : Mode.before source (c.offset + 1) = .slash .plain := by
      have heq := h.before_eq hslash
      rwa [hmode] at heq
    rw [hone]
    simpa [hrest] using hchar 1
  | j + 2 =>
    have hj : j ≤ words.length := Nat.le_of_add_le_add_right hk
    have hsplit : c.rest = ('/' :: '/' :: words.take j) ++ (words.drop j ++ behind) := by
      simp only [List.cons_append, ← List.append_assoc, List.take_append_drop, hrest]
    have hlength : c.offset + (j + 2) = c.offset + ('/' :: '/' :: words.take j).length := by
      simp only [List.length_cons, List.length_take, Nat.min_eq_left hj]
    have hcomment : Mode.before source (c.offset + (j + 2)) = .comment .plain := by
      rw [hlength, h.before_eq hsplit, hmode]
      exact Mode.run_comment fun hmem => hw (List.mem_of_mem_take hmem)
    rw [hcomment]
    trivial

/-- Closed layout at a place holds no token. -/
theorem Place.not_tokenAt {b behind : Text} (hb : Layout b) (h : Place source c)
    (hrest : c.rest = b ++ behind) {k : Nat} (hk : k < b.length) :
    ¬ TokenAt source (c.offset + k) := by
  induction hb generalizing c k with
  | nil => simp at hk
  | @blank x b hx hb ih =>
    cases k with
    | zero =>
      rintro ⟨y, hy, hblank, -⟩
      rw [Nat.add_zero, ← h.reached.head?_rest, hrest] at hy
      obtain rfl : x = y := Option.some.inj hy
      rw [hx] at hblank
      cases hblank
    | succ k =>
      have hnext : Place source ⟨c.offset + 1, b ++ behind⟩ :=
        h.neutral (w := [x]) hrest rfl (Layout.blank hx .nil).neutral
      have hlater := ih hnext rfl (Nat.lt_of_succ_lt_succ hk)
      rwa [Nat.add_assoc, Nat.add_comm 1 k] at hlater
  | @comment words b hw hb ih =>
    have hcomment : c.rest = '/' :: '/' :: (words ++ ('\n' :: b ++ behind)) := by
      rw [hrest]
      simp
    by_cases hin : k ≤ words.length + 2
    · rintro ⟨y, -, -, hnot⟩
      exact hnot (h.inComment hcomment hw hin)
    · obtain ⟨j, rfl⟩ : ∃ j, k = words.length + 3 + j := ⟨k - (words.length + 3), by omega⟩
      have hline : Layout ('/' :: '/' :: (words ++ ['\n'])) := .comment hw .nil
      have hlength : ('/' :: '/' :: (words ++ ['\n'])).length = words.length + 3 := by simp
      have hnext : Place source ⟨c.offset + (words.length + 3), b ++ behind⟩ := by
        refine h.neutral (w := '/' :: '/' :: (words ++ ['\n'])) ?_ (by rw [hlength]) hline.neutral
        rw [hrest]
        simp
      have hj : j < b.length := by
        simp only [List.length_cons, List.length_append] at hk
        omega
      have hlater := ih hnext rfl hj
      rwa [Nat.add_assoc] at hlater

end Grammar

end Bindcheck
