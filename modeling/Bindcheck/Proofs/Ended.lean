/-
Bindcheck.Proofs.Ended — reading an expression that is ended by a line
feed and a semicolon.

`c.Ended d` relates a place in a text to the place in the same text with
the two characters behind it. Both are still to come, or the layout at
the end of the text has taken the line feed along and the semicolon is
left. `Alike R r r'` relates two readers: at such places both give a
result, related by `R`, or both refuse the text, for causes of the same
kind.

The relation is closed under sequence and repetition, so for each reader
its lemma follows the text of its definition, up to `alike_operand`. What
carries it is that no token of an expression holds one of the two
characters (`Token.Ignores`). A string can: if the text ends inside one,
it takes both characters, and then it is not closed either
(`alike_quotedBody`). The kinds agree there but the causes need not, as
the text may end in a backslash.

`expr_error_of_ended` is what this says of an expression that is refused.
-/
import Mathlib.Data.List.Forall2
import Bindcheck.Proofs.Grammar.Lookahead
import Bindcheck.Syntax.Expression

namespace Bindcheck

open Grammar Quoted

/-- What ends an assignment behind any expression, also one with a comment at its end. -/
def ending : Text := ['\n', ';']

/-! ## Places -/

namespace Cursor

variable {c d : Cursor}

/-- The same place in the text with the ending behind it. -/
inductive Ended (c d : Cursor) : Prop
  | whole (h : d.rest = c.rest ++ ending)
  | semicolon (hc : c.rest = []) (hd : d.rest = [';'])

/-- Places that belong together do so after characters of the text. -/
theorem Ended.advance (h : c.Ended d) {count : Nat} (hcount : count ≤ c.rest.length) :
    (c.advance count).Ended (d.advance count) := by
  cases h with
  | whole h =>
    refine .whole ?_
    rw [rest_advance, rest_advance, h, List.drop_append_of_le_length hcount]
  | semicolon hc hd =>
    obtain rfl : count = 0 := by simpa [hc] using hcount
    exact .semicolon hc hd

end Cursor

/-- A text that does not begin with layout does not do so with the ending behind it. -/
theorem Grammar.Bare.append_ending {text : Text} (h : Bare text) (hne : text ≠ []) :
    Bare (text ++ ending) := by
  obtain ⟨c, text, rfl⟩ := List.exists_cons_of_ne_nil hne
  rcases layout_cases c text with hc | ⟨rfl, rest, rfl⟩ | ⟨hc, hs⟩
  · unfold Bare at h
    rw [layoutLength_blank hc] at h
    omega
  · unfold Bare at h
    rw [layoutLength_slashes] at h
    omega
  · refine layoutLength_other hc ?_
    intro rest hslash heq
    cases text with
    | nil => simp [ending] at heq
    | cons x text =>
      obtain ⟨rfl, -⟩ := List.cons.inj heq
      exact hs text hslash rfl

/-- Places that belong together do so after the layout. -/
theorem Cursor.Ended.pastLayout {c d : Cursor} (h : c.Ended d) :
    c.pastLayout.Ended d.pastLayout := by
  cases h with
  | whole h =>
    obtain ⟨b, hfinal, hlayout, hrest, -⟩ := c.exists_layout
    have hbare := c.bare_pastLayout
    by_cases hend : c.pastLayout.rest = []
    · -- the layout at the end takes the line feed, which may close a comment there
      refine .semicolon hend ?_
      have hd : d.rest = (b ++ ['\n']) ++ [';'] := by
        rw [h, hrest, hend]
        simp [ending]
      have hsemicolon : Bare [';'] := bare_cons (by decide) (by decide)
      unfold Cursor.pastLayout
      rw [rest_advance, hd, hfinal.append_lineFeed.layoutLength_of_bare hsemicolon,
        List.drop_left]
    · refine .whole ?_
      have hd : d.rest = b ++ (c.pastLayout.rest ++ ending) := by
        rw [h, ← List.append_assoc, ← hrest]
      conv => lhs; unfold Cursor.pastLayout
      rw [rest_advance, hd, (hlayout hend).layoutLength_of_bare (hbare.append_ending hend),
        List.drop_left]
  | semicolon hc hd =>
    rw [Cursor.pastLayout_of_bare (by rw [hc]; exact bare_nil),
      Cursor.pastLayout_of_bare (by rw [hd]; exact bare_cons (by decide) (by decide))]
    exact .semicolon hc hd

/-! ## Tokens -/

/-- The ending is no part of the token. -/
structure Token.Ignores {α : Type} (t : Token α) : Prop where
  append : ∀ text, t.read (text ++ ending) = t.read text
  semicolon : t.read [';'] = t.read []

namespace Token

variable {α β : Type}

theorem Ignores.map {t : Token α} (h : t.Ignores) (g : α → β) : (t.map g).Ignores where
  append text := by simp only [Token.map, h.append]
  semicolon := by simp only [Token.map, h.semicolon]

/-- A word without a line feed begins no text sooner for a line feed behind it. -/
theorem isPrefixOf_append_ending {letters : Text} (h : '\n' ∉ letters) (text : Text) :
    letters.isPrefixOf (text ++ ending) = letters.isPrefixOf text := by
  induction letters generalizing text with
  | nil => simp
  | cons c letters ih =>
    obtain ⟨hc, hrest⟩ := List.ne_and_not_mem_of_not_mem_cons h
    cases text with
    | nil => simp [ending, List.isPrefixOf, Ne.symm hc]
    | cons x text => simp only [List.cons_append, List.isPrefixOf, ih hrest]

/-- A run that takes no line feed ends where the text did. -/
theorem takeWhile_append_ending {next : Char → Bool} (h : next '\n' = false) (text : Text) :
    (text ++ ending).takeWhile next = text.takeWhile next := by
  induction text with
  | nil => simp [ending, h]
  | cons c text ih => simp only [List.cons_append, List.takeWhile_cons, ih]

theorem ignores_char {ch : Char} (hl : ch ≠ '\n') (hs : ch ≠ ';') : (char ch).Ignores where
  append text := by
    have hnot : '\n' ∉ [ch] := by simpa using Ne.symm hl
    simp only [char, word, isPrefixOf_append_ending hnot]
  semicolon := by simp [char, word, hs]

theorem ignores_run {first next : Char → Bool} (hf : first '\n' = false)
    (hn : next '\n' = false) (hs : first ';' = false) : (run first next).Ignores where
  append text := by
    cases text with
    | nil => simp [run, ending, hf]
    | cons c text =>
      simp only [run, List.cons_append, takeWhile_append_ending hn]
  semicolon := by simp [run, hs]

theorem ignores_name : name.Ignores :=
  (ignores_run (by decide) (by decide) (by decide)).map _

theorem ignores_digits : digits.Ignores := ignores_run (by decide) (by decide) (by decide)

theorem ignores_operator : operator.Ignores where
  append text := by
    have hsymbol : ∀ op : Operator, '\n' ∉ op.symbol.toList := by
      intro op
      cases op <;> decide
    simp only [operator, firstOperator, isPrefixOf_append_ending (hsymbol _)]
  semicolon := by decide

end Token

/-! ## Readers -/

/-- Both give a result, related and at related places, or both fail for causes of one kind. -/
inductive Outcome.Alike {α β : Type} (R : α → β → Prop) : Outcome α → Outcome β → Prop
  | ok {a : α} {b : β} {c d : Cursor} (hr : R a b) (hc : c.Ended d) : Alike R (.ok a c) (.ok b d)
  | error {f g : Failure} {c d : Cursor} (hk : g.cause.kind = f.cause.kind) :
    Alike R (.error f c) (.error g d)

/-- Going on keeps two outcomes alike. -/
theorem Outcome.Alike.andThen {α β γ δ : Type} {R : α → β → Prop} {S : γ → δ → Prop}
    {o : Outcome α} {o' : Outcome β} {next : α → Cursor → Outcome γ}
    {next' : β → Cursor → Outcome δ} (h : o.Alike R o')
    (hnext : ∀ a b c d, o = .ok a c → R a b → c.Ended d → (next a c).Alike S (next' b d)) :
    (o.andThen next).Alike S (o'.andThen next') := by
  cases h with
  | ok hr hc => exact hnext _ _ _ _ rfl hr hc
  | error hk => exact .error hk

namespace Reader

variable {α β γ δ : Type}

/-- In a text with the ending behind it the second reader does what the first does in the text. -/
def Alike (R : α → β → Prop) (r : Reader α) (r' : Reader β) : Prop :=
  ∀ ⦃c d : Cursor⦄, c.Ended d → (r.run c).Alike R (r'.run d)

namespace Alike

variable {R : α → β → Prop} {S : γ → δ → Prop}

/-! ## Sequence and repetition -/

protected theorem pure {a : α} {b : β} (h : R a b) : Alike R (pure a) (pure b) :=
  fun _ _ hc => .ok h hc

/-- One thing after another is read alike if both parts are. -/
protected theorem bind {p : Reader α} {p' : Reader β} {next : α → Reader γ}
    {next' : β → Reader δ} (hp : Alike R p p')
    (hnext : ∀ a b, R a b → Alike S (next a) (next' b)) :
    Alike S (p >>= next) (p' >>= next') := by
  intro c d hc
  rw [run_bind, run_bind]
  refine (hp hc).andThen ?_
  intro a b e e' _ hr he
  exact hnext a b hr he

/-- What comes after the same thing on both sides. -/
protected theorem bind_eq {p p' : Reader α} {next : α → Reader γ} {next' : α → Reader δ}
    (hp : Alike Eq p p') (hnext : ∀ a, Alike S (next a) (next' a)) :
    Alike S (p >>= next) (p' >>= next') := by
  refine hp.bind ?_
  rintro a _ rfl
  exact hnext a

/-- Causes of one kind are alike, whatever is blamed. -/
protected theorem fail {cause cause' : Cause} (h : cause'.kind = cause.kind)
    (span span' : Span) : Alike R (fail cause span) (fail cause' span') :=
  fun _ _ _ => .error h

/-- Repetition is read alike if the item is. -/
protected theorem many {item : Reader (Option α)} {item' : Reader (Option β)}
    (hitem : Alike (Option.Rel R) item item') (consumes : item.Consumes)
    (consumes' : item'.Consumes) :
    Alike (List.Forall₂ R) (many item consumes) (many item' consumes') := by
  intro c d hc
  induction hn : c.rest.length using Nat.strongRecOn generalizing c d with
  | _ size ih =>
    rw [run_many, run_many]
    refine (hitem hc).andThen ?_
    intro found found' e e' hread hfound he
    cases hfound with
    | none => exact .ok .nil he
    | some hr =>
      have hshorter : e.rest.length < size := hn ▸ consumes hread
      refine (ih e.rest.length hshorter he rfl).andThen ?_
      intro items items' _ _ _ hitems hlast
      exact .ok (.cons hr hitems) hlast

end Alike

/-! ## Places and tokens -/

/-- Offsets are not compared. -/
theorem alike_offset : Alike (fun _ _ => True) offset offset := fun _ _ hc => .ok trivial hc

theorem alike_spanSince (start start' : Nat) :
    Alike (fun _ _ => True) (spanSince start) (spanSince start') := fun _ _ hc => .ok trivial hc

theorem alike_skipLayout : Alike Eq skipLayout skipLayout := fun _ _ hc => .ok rfl hc.pastLayout

theorem alike_failHere {R : α → β → Prop} {cause cause' : Cause} (h : cause'.kind = cause.kind) :
    Alike R (failHere cause) (failHere cause') := fun _ _ _ => .error h

/-- A token that ignores the ending is read as if it were not there. -/
theorem alike_token {t : Token α} (ht : t.Ignores) : Alike Eq (token t) (token t) := by
  intro c d hc
  have hpast := hc.pastLayout
  have hread : t.read d.pastLayout.rest = t.read c.pastLayout.rest := by
    cases hpast with
    | whole h => rw [h, ht.append]
    | semicolon hnil hsemicolon => rw [hnil, hsemicolon, ht.semicolon]
  simp only [run_token, tokenAt, hread]
  split
  · rename_i a n hfound
    exact .ok rfl (hpast.advance (t.fits hfound))
  · exact .ok rfl hpast

theorem alike_accept {ch : Char} (hl : ch ≠ '\n') (hs : ch ≠ ';') :
    Alike Eq (accept ch) (accept ch) :=
  (alike_token (Token.ignores_char hl hs)).bind_eq fun _ => .pure rfl

/-- What comes after a token is read alike if it is after every token of the class. -/
theorem alike_after {R : β → γ → Prop} {t : Token α} (ht : t.Ignores) {next : α → Reader β}
    {next' : α → Reader γ} (hnext : ∀ a, Alike R (next a) (next' a)) :
    Alike (Option.Rel R) (after t next) (after t next') := by
  refine (alike_token ht).bind_eq ?_
  intro found
  cases found with
  | none => exact .pure .none
  | some a => exact (hnext a).bind fun b c hr => .pure (.some hr)

/-! ## Strings and integers -/

/-- A body is closed in front of the ending exactly if it is closed without: it has no quote. -/
theorem closed_append_ending_iff {form : Form} {text v : Text} {n : Nat} :
    body form (text ++ ending) = .closed v n ↔ body form text = .closed v n := by
  constructor
  · intro h
    obtain ⟨w, rest, htext, hw, rfl⟩ := spelling_of_body h
    have hnot : quote ∉ ending := by decide
    rcases List.append_eq_append_iff.mp htext with ⟨a, rfl, hrest⟩ | ⟨a, rfl, hrest⟩
    · exact absurd (by rw [hrest]; simp) hnot
    · cases a with
      | nil => exact absurd (by rw [← List.nil_append ending, ← hrest]; simp) hnot
      | cons c a =>
        obtain ⟨rfl, -⟩ := List.cons.inj hrest
        exact body_of_spelling hw a
  · intro h
    obtain ⟨w, rest, rfl, hw, rfl⟩ := spelling_of_body h
    rw [List.append_assoc]
    exact body_of_spelling hw (rest ++ ending)

/-- A body that is not closed is refused while the text is cut into tokens. -/
theorem quotedBodyAt_of_not_closed {form : Form} {c : Cursor}
    (h : ∀ v n, body form c.rest ≠ .closed v n) (start : Nat) :
    ∃ f d, quotedBodyAt form start c = .error f d ∧ f.cause.kind = .scan := by
  unfold quotedBodyAt
  split
  · rename_i v n hbody
    exact absurd hbody (h v n)
  · exact ⟨_, _, rfl, rfl⟩
  · exact ⟨_, _, rfl, rfl⟩

/-- A string is closed in both texts or in neither. -/
theorem alike_quotedBody (form : Form) (start start' : Nat) :
    Alike Eq (quotedBody form start) (quotedBody form start') := by
  intro c d hc
  have hsame : ∀ v n, body form d.rest = .closed v n ↔
      body form c.rest = .closed v n := by
    intro v n
    cases hc with
    | whole h => rw [h, closed_append_ending_iff]
    | semicolon hnil hsemicolon => simp [hnil, hsemicolon, body, quote]
  simp only [run_quotedBody]
  by_cases hclosed : ∃ v n, body form c.rest = .closed v n
  · obtain ⟨v, n, hbody⟩ := hclosed
    have hfits : n ≤ c.rest.length := by
      have hall := fits_body form c.rest
      rwa [hbody] at hall
    simp only [quotedBodyAt, hbody, (hsame v n).mpr hbody]
    exact .ok rfl (hc.advance hfits)
  · have hopen : ∀ v n, body form c.rest ≠ .closed v n :=
      fun v n h => hclosed ⟨v, n, h⟩
    have hopen' : ∀ v n, body form d.rest ≠ .closed v n :=
      fun v n h => hopen v n ((hsame v n).mp h)
    obtain ⟨f, e, hf, hkind⟩ := quotedBodyAt_of_not_closed hopen start
    obtain ⟨f', e', hf', hkind'⟩ := quotedBodyAt_of_not_closed hopen' start'
    rw [hf, hf']
    exact .error (hkind'.trans hkind.symm)

theorem alike_quoted : Alike Eq quoted quoted := by
  refine alike_skipLayout.bind_eq ?_
  intro _
  refine alike_offset.bind ?_
  intro start start' _
  refine (alike_accept (by decide) (by decide)).bind_eq ?_
  intro marked
  cases marked with
  | true =>
    refine (alike_accept (by decide) (by decide)).bind_eq ?_
    intro opened
    cases opened with
    | true => exact (alike_quotedBody .raw start start').bind_eq fun _ => .pure rfl
    | false => exact (alike_spanSince start start').bind fun span span' _ => .fail rfl span span'
  | false =>
    refine (alike_accept (by decide) (by decide)).bind_eq ?_
    intro opened
    cases opened with
    | true => exact (alike_quotedBody .plain start start').bind_eq fun _ => .pure rfl
    | false => exact .pure rfl

theorem alike_integer : Alike Eq integer integer := by
  refine alike_skipLayout.bind_eq ?_
  intro _
  refine alike_offset.bind ?_
  intro start start' _
  refine (alike_token Token.ignores_digits).bind_eq ?_
  intro found
  cases found with
  | none => exact .pure rfl
  | some digits =>
    simp only
    split
    · exact .pure rfl
    · exact (alike_spanSince start start').bind fun span span' _ => .fail rfl span span'

/-! ## Expressions -/

/-- Operands of one type, wherever they stand. -/
def SameType (x y : Operand) : Prop := y.ty = x.ty

section Expressions

variable {operand operand' : Reader (Option Operand)}

theorem alike_required (h : Alike (Option.Rel SameType) operand operand') (op : Option Operator) :
    Alike SameType (required operand op) (required operand' op) := by
  refine h.bind ?_
  intro found found' hfound
  cases hfound with
  | none => exact alike_failHere rfl
  | some hty => exact .pure hty

theorem alike_link (h : Alike (Option.Rel SameType) operand operand') (ty : Ty) :
    Alike (Option.Rel fun _ _ => True) (link operand ty) (link operand' ty) := by
  refine alike_after Token.ignores_operator ?_
  intro op
  refine (alike_required h (some op)).bind ?_
  intro x y hty
  have hsame : y.ty = x.ty := hty
  rw [hsame]
  split
  · exact .pure trivial
  · exact .fail rfl x.span y.span

theorem alike_expression (h : Alike (Option.Rel SameType) operand operand') :
    Alike (fun x y => y.ty = x.ty) (expression operand) (expression operand') := by
  refine alike_skipLayout.bind_eq ?_
  intro _
  refine alike_offset.bind ?_
  intro start start' _
  refine (alike_required h none).bind ?_
  intro first first' hty
  have hsame : first'.ty = first.ty := hty
  simp only [hsame]
  refine ((alike_link h first.ty).many _ _).bind ?_
  intro links links' _
  exact (alike_spanSince start start').bind fun _ _ _ => .pure hsame

theorem alike_group (h : Alike (Option.Rel SameType) operand operand') (opened opened' : Nat) :
    Alike SameType (group operand opened) (group operand' opened') := by
  refine (alike_expression h).bind ?_
  intro inner inner' hty
  refine (alike_accept (by decide) (by decide)).bind_eq ?_
  intro closed
  cases closed with
  | true => exact .pure hty
  | false => exact alike_failHere rfl

end Expressions

theorem alike_named (table : SymbolTable) (name : String) (span span' : Span) :
    Alike SameType (named table name span) (named table name span') := by
  simp only [named]
  split
  · exact .pure rfl
  · exact .fail rfl span span'

/-- An operand is read alike if what comes after a parenthesis is. -/
theorem alike_operandWith (table : SymbolTable) {opened opened' : Nat → Reader Operand}
    (h : ∀ o o', Alike SameType (opened o) (opened' o')) :
    Alike (Option.Rel SameType) (operandWith table opened) (operandWith table opened') := by
  refine alike_skipLayout.bind_eq ?_
  intro _
  refine alike_offset.bind ?_
  intro start start' _
  refine (alike_accept (by decide) (by decide)).bind_eq ?_
  intro paren
  cases paren with
  | true => exact (h start start').bind fun x y hty => .pure (.some hty)
  | false =>
    refine alike_quoted.bind_eq ?_
    intro text
    cases text with
    | some text => exact (alike_spanSince start start').bind fun _ _ _ => .pure (.some rfl)
    | none =>
      refine alike_integer.bind_eq ?_
      intro value
      cases value with
      | some value => exact (alike_spanSince start start').bind fun _ _ _ => .pure (.some rfl)
      | none =>
        refine (alike_token Token.ignores_name).bind_eq ?_
        intro name
        cases name with
        | some name =>
          exact (alike_spanSince start start').bind fun span span' _ =>
            (alike_named table name span span').bind fun x y hty => .pure (.some hty)
        | none => exact .pure .none

/-- An operand is read alike, with so many groups open at most. -/
theorem alike_operand (table : SymbolTable) (depth : Nat) :
    Alike (Option.Rel SameType) (operand table depth) (operand table depth) := by
  induction depth with
  | zero =>
    refine alike_operandWith table ?_
    intro o o'
    exact .fail rfl _ _
  | succ depth ih => exact alike_operandWith table fun o o' => alike_group ih o o'

/-- An expression that is refused is refused in front of the ending too, and for a cause of the
same kind. -/
theorem expr_error_of_ended {table : SymbolTable} {c d e : Cursor} {f : Failure}
    (h : (expr table).run c = .error f e) (hc : c.Ended d) :
    ∃ g e', (expr table).run d = .error g e' ∧ g.cause.kind = f.cause.kind := by
  have halike := alike_expression (alike_operand table nestingLimit) hc
  have hread : (expression (operand table nestingLimit)).run c = .error f e := h
  rw [hread] at halike
  generalize hend : (expression (operand table nestingLimit)).run d = o at halike
  cases halike with
  | error hk => exact ⟨_, _, hend, hk⟩

end Reader

end Bindcheck
