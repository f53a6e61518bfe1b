/-
Bindcheck.Proofs.Grammar.Lexeme — the spellings of names, numerals,
operators and strings, and the proofs that the lexical readers take
exactly these.

* `Run` covers names and numerals: one character of a first class, then
  any number of a second. `Boundary` is what has to hold of the text
  behind a run for the run to end there.
* `read_operator` reads an operator back. The table is searched in order,
  and a symbol that begins another one is only reached if the longer one
  does not match; `ExtendsOperator` lists the characters that could make
  it match.
* `Spelling` relates what stands between the quotes of a string to what
  it denotes, in both forms. `body_of_spelling` and `spelling_of_body` are
  the two directions.
-/
import Bindcheck.Lexical.Quoted
import Bindcheck.Lexical.Numeral
import Bindcheck.Proofs.Grammar.Layout

namespace Bindcheck

namespace Grammar

/-! ## Names and numerals -/

/-- A character of one class, and after it only characters of another. -/
def Run (first next : Char → Bool) (text : Text) : Prop :=
  ∃ c part, text = c :: part ∧ first c = true ∧ ∀ d ∈ part, next d = true

/-- A letter or underscore, then letters, digits and underscores. -/
def IsName (text : Text) : Prop := Run Token.isNameStart Token.isNamePart text

/-- One decimal digit or more. -/
def IsNumeral (text : Text) : Prop := Run Char.isDigit Char.isDigit text

/-- The value of a numeral, as it is stored. -/
def integerValue (digits : Text) : Int64 := Int64.ofNat (Numeral.value digits)

/-- No character that could continue a name or a numeral comes first. -/
def Boundary (rest : Text) : Prop := ∀ c ∈ rest.head?, Token.isNamePart c = false

theorem boundary_nil : Boundary [] := by
  intro c h
  cases h

theorem boundary_cons {c : Char} {rest : Text} (h : Token.isNamePart c = false) :
    Boundary (c :: rest) := by
  intro d hd
  obtain rfl := Option.mem_some.mp hd
  exact h

theorem isNamePart_of_isDigit {c : Char} (h : c.isDigit = true) : Token.isNamePart c = true := by
  simp [Token.isNamePart, Char.isAlphanum, h]

theorem isNamePart_of_isNameStart {c : Char} (h : Token.isNameStart c = true) :
    Token.isNamePart c = true := by
  simp only [Token.isNameStart, Bool.or_eq_true] at h
  rcases h with h | h <;> simp [Token.isNamePart, Char.isAlphanum, h]

/-- A run of parts of names holds no other character. -/
theorem Run.isNamePart {first next : Char → Bool} {text : Text} (h : Run first next text)
    (hfirst : ∀ x, first x = true → Token.isNamePart x = true)
    (hnext : ∀ x, next x = true → Token.isNamePart x = true) :
    ∀ x ∈ text, Token.isNamePart x = true := by
  obtain ⟨x, part, rfl, hx, hpart⟩ := h
  exact List.forall_mem_cons.mpr ⟨hfirst x hx, fun y hy => hnext y (hpart y hy)⟩

theorem IsName.isNamePart {letters : Text} (h : IsName letters) :
    ∀ x ∈ letters, Token.isNamePart x = true :=
  Run.isNamePart h (fun _ => isNamePart_of_isNameStart) fun _ => id

theorem IsNumeral.isNamePart {digits : Text} (h : IsNumeral digits) :
    ∀ x ∈ digits, Token.isNamePart x = true :=
  Run.isNamePart h (fun _ => isNamePart_of_isDigit) fun _ => isNamePart_of_isDigit

theorem Run.ne_nil {first next : Char → Bool} {text : Text} (h : Run first next text) :
    text ≠ [] := by
  obtain ⟨x, part, rfl, -⟩ := h
  exact List.cons_ne_nil x part

/-- Letters and the underscore come after the digits. -/
theorem digits_lt_of_isNameStart {c : Char} (h : Token.isNameStart c = true) :
    '9'.toNat < c.toNat := by
  rcases (Bool.or_eq_true _ _).mp h with halpha | hunderscore
  · rcases (Bool.or_eq_true _ _).mp halpha with hupper | hlower
    · have hle : 'A'.val ≤ c.val := (of_decide_eq_true hupper).1
      exact Nat.lt_of_lt_of_le (by decide) (UInt32.le_iff_toNat_le.mp hle)
    · have hle : 'a'.val ≤ c.val := of_decide_eq_true ((Bool.and_eq_true _ _).mp hlower).1
      exact Nat.lt_of_lt_of_le (by decide) (UInt32.le_iff_toNat_le.mp hle)
  · obtain rfl := of_decide_eq_true hunderscore
    decide

theorem isNameStart_of_isDigit {c : Char} (h : c.isDigit = true) :
    Token.isNameStart c = false := by
  refine Bool.eq_false_iff.mpr ?_
  intro hn
  have hlt := digits_lt_of_isNameStart hn
  have hle := (Char.isDigit_iff_toNat.mp h).2
  omega

/-- Layout begins with no part of a name, so a name ends before it. -/
theorem Layout.boundary {b rest : Text} (h : Layout b) (hr : Boundary rest) :
    Boundary (b ++ rest) := by
  cases b with
  | nil => exact hr
  | cons c b =>
    refine boundary_cons ?_
    rcases h.head with hc | rfl
    · simp only [isBlank, Bool.or_eq_true, decide_eq_true_eq] at hc
      rcases hc with ((rfl | rfl) | rfl) | rfl <;> decide
    · decide

/-- A run is read as a whole if the text behind it does not continue it. -/
theorem read_run {first next : Char → Bool} {text rest : Text} (h : Run first next text)
    (hr : ∀ c ∈ rest.head?, next c = false) :
    (Token.run first next).read (text ++ rest) = some (text, text.length) := by
  obtain ⟨c, part, rfl, hc, hp⟩ := h
  have hstop : rest.takeWhile next = [] := by
    cases rest with
    | nil => rfl
    | cons d rest => rw [List.takeWhile_cons_of_neg (by simp [hr d rfl])]
  have htake : (part ++ rest).takeWhile next = part := by
    rw [List.takeWhile_append_of_pos hp, hstop, List.append_nil]
  simp [Token.run, hc, htake]

/-- What is read as a run is one, and the text behind it does not continue it. -/
theorem run_of_read {first next : Char → Bool} {text a : Text} {n : Nat}
    (h : (Token.run first next).read text = some (a, n)) :
    Run first next a ∧ n = a.length ∧ ∃ rest, text = a ++ rest := by
  cases text with
  | nil => cases h
  | cons c text =>
    simp only [Token.run] at h
    split at h
    · rename_i hc
      cases h
      refine ⟨⟨c, text.takeWhile next, rfl, hc, ?_⟩, rfl, text.dropWhile next, ?_⟩
      · exact List.all_eq_true.mp List.all_takeWhile
      · rw [List.cons_append, List.takeWhile_append_dropWhile]
    · cases h

/-- The text behind a run that is read does not continue it. -/
theorem stop_of_read {first next : Char → Bool} {text a rest : Text} {n : Nat}
    (h : (Token.run first next).read text = some (a, n)) (htext : text = a ++ rest) :
    ∀ x ∈ rest.head?, next x = false := by
  cases text with
  | nil => cases h
  | cons c text =>
    simp only [Token.run] at h
    split at h
    · cases h
      have hrest : rest = text.dropWhile next := by
        have hsplit := List.takeWhile_append_dropWhile (p := next) (l := text)
        rw [List.cons_append, List.cons.injEq] at htext
        exact List.append_cancel_left (htext.2.symm.trans hsplit.symm)
      intro x hx
      have hstop := List.head?_dropWhile_not next text
      rw [← hrest, hx] at hstop
      exact hstop
    · cases h

/-- No run stands at the front of a text exactly if no character there begins one. -/
theorem read_run_eq_none {first next : Char → Bool} {text : Text} :
    (Token.run first next).read text = none ↔ ∀ x ∈ text.head?, first x = false := by
  cases text <;> simp [Token.run]

theorem read_name {letters rest : Text} (h : IsName letters) (hr : Boundary rest) :
    Token.name.read (letters ++ rest) = some (String.ofList letters, letters.length) := by
  have hrun : (Token.run Token.isNameStart Token.isNamePart).read (letters ++ rest)
      = some (letters, letters.length) := read_run h hr
  simp only [Token.name, Token.map, hrun, Option.map_some]

theorem isName_of_read {text : Text} {s : String} {n : Nat}
    (h : Token.name.read text = some (s, n)) :
    ∃ letters rest, text = letters ++ rest ∧ IsName letters ∧ s = String.ofList letters ∧
      n = letters.length := by
  obtain ⟨⟨letters, m⟩, hread, heq⟩ := Option.map_eq_some_iff.mp h
  obtain ⟨rfl, rfl⟩ := Prod.mk.inj heq
  obtain ⟨hrun, hn, rest, htext⟩ := run_of_read hread
  exact ⟨letters, rest, htext, hrun, rfl, hn⟩

/-- No digit comes first where a name or a numeral ends. -/
theorem Boundary.isDigit_eq_false {rest : Text} (h : Boundary rest) :
    ∀ c ∈ rest.head?, c.isDigit = false := by
  intro c hc
  refine Bool.eq_false_iff.mpr ?_
  intro hd
  have hpart := isNamePart_of_isDigit hd
  rw [h c hc] at hpart
  cases hpart

theorem read_digits {digits rest : Text} (h : IsNumeral digits) (hr : Boundary rest) :
    Token.digits.read (digits ++ rest) = some (digits, digits.length) :=
  read_run h hr.isDigit_eq_false

/-! ## Operators -/

/-- The characters that make a longer symbol of some symbol before them. -/
def ExtendsOperator (c : Char) : Prop := c = '=' ∨ c = '+' ∨ c = '-'

instance (c : Char) : Decidable (ExtendsOperator c) := by
  unfold ExtendsOperator
  infer_instance

/-- The symbols that are tried before a symbol do not begin it, and those that go on after it
do so with one of three characters. -/
theorem earlier_symbol :
    ∀ op ∈ Operator.binary, ∀ other ∈ Operator.binary.takeWhile (· ≠ op),
      ¬ other.symbol.toList <+: op.symbol.toList ∧
        (op.symbol.toList <+: other.symbol.toList →
          (other.symbol.toList.drop op.symbol.toList.length).head?.all (ExtendsOperator ·)) := by
  decide

/-- The table up to a symbol, the symbol, and the table behind it. -/
theorem binary_eq_append :
    ∀ op ∈ Operator.binary, Operator.binary
      = Operator.binary.takeWhile (· ≠ op)
        ++ op :: (Operator.binary.dropWhile (· ≠ op)).tail := by
  decide

/-- The symbol of a binary operator is read back if nothing behind it makes it longer. -/
theorem read_operator {op : Operator} (hop : op ∈ Operator.binary) {rest : Text}
    (hr : ∀ c ∈ rest.head?, ¬ ExtendsOperator c) :
    Token.operator.read (op.symbol.toList ++ rest)
      = some (op, op.symbol.toList.length) := by
  have hself : op.symbol.toList <+: op.symbol.toList ++ rest := List.prefix_append ..
  refine List.findSome?_eq_some_iff.mpr
    ⟨_, op, _, binary_eq_append op hop, ?_, ?_⟩
  · rw [if_pos (List.isPrefixOf_iff_prefix.mpr hself)]
  · intro other ho
    obtain ⟨hbegin, hextend⟩ := earlier_symbol op hop other ho
    refine if_neg ?_
    intro hp
    have hother := List.isPrefixOf_iff_prefix.mp hp
    rcases List.prefix_or_prefix_of_prefix hother hself with h | h
    · exact hbegin h
    · obtain ⟨t, ht⟩ := h
      cases t with
      | nil => exact hbegin ⟨[], by rw [← ht, List.append_nil, List.append_nil]⟩
      | cons c t =>
        rw [← ht, List.prefix_append_right_inj] at hother
        obtain ⟨t', rfl⟩ := hother
        have hc : ExtendsOperator c := by simpa [← ht] using hextend ⟨c :: t, ht⟩
        exact hr c rfl hc

/-- What is read as an operator is the symbol of a binary operator. -/
theorem operator_of_read {text : Text} {op : Operator} {n : Nat}
    (h : Token.operator.read text = some (op, n)) :
    op ∈ Operator.binary ∧ n = op.symbol.toList.length ∧
      ∃ rest, text = op.symbol.toList ++ rest := by
  obtain ⟨op', hmem, hfound⟩ := List.exists_of_findSome?_eq_some h
  split at hfound
  · rename_i hbegin
    cases hfound
    obtain ⟨rest, hrest⟩ := List.isPrefixOf_iff_prefix.mp hbegin
    exact ⟨hmem, rfl, rest, hrest.symm⟩
  · cases hfound

/-! ## Strings -/

open Quoted

/-- What stands between the quotes of a string in a given form, and what it denotes. -/
inductive Spelling (form : Form) : Text → Text → Prop where
  | nil : Spelling form [] []
  | plain {c : Char} {w v : Text} (hq : c ≠ quote) (hb : form = .plain → c ≠ backslash)
    (h : Spelling form w v) : Spelling form (c :: w) (c :: v)
  | escape {e c : Char} {w v : Text} (hf : form = .plain) (he : escape? e = some c)
    (h : Spelling form w v) : Spelling form (backslash :: e :: w) (c :: v)

/-- A string literal and what it denotes; the mark of the raw form may have layout behind it. -/
inductive StringLiteral : Text → Text → Prop where
  | plain {w v : Text} (h : Spelling .plain w v) :
    StringLiteral (quote :: (w ++ [quote])) v
  | raw {gap w v : Text} (hg : Layout gap) (h : Spelling .raw w v) :
    StringLiteral (rawMark :: (gap ++ quote :: (w ++ [quote]))) v

/-- The escapes are five. -/
theorem escape?_eq_none_iff {e : Char} :
    escape? e = none ↔ e ∉ ['n', 't', 'r', '\\', '\''] := by
  simp only [escape?, backslash, quote, List.mem_cons, List.not_mem_nil, or_false]
  grind

theorem body_quote (form : Form) (rest : Text) : body form (quote :: rest) = .closed [] 1 := by
  cases rest <;> simp [body]

/-- A spelling with a quote behind it is a whole body. -/
theorem body_of_spelling {form : Form} {w v : Text} (h : Spelling form w v) (rest : Text) :
    body form (w ++ quote :: rest) = .closed v (w.length + 1) := by
  induction h with
  | nil => exact body_quote form rest
  | @plain c w v hq hb _ ih =>
    -- something always follows, the closing quote if nothing else
    obtain ⟨d, t, hd⟩ : ∃ d t, w ++ quote :: rest = d :: t := by cases w <;> simp
    rw [List.cons_append, hd, body, if_neg hq, if_neg (fun h => hb h.1 h.2), ← hd, ih]
    rfl
  | @escape e c w v hf he _ ih =>
    have hq : backslash ≠ quote := by decide
    rw [List.cons_append, List.cons_append, body, if_neg hq, if_pos ⟨hf, rfl⟩, he]
    simp only [ih, Body.cons, List.length_cons]

/-- A body that is closed is a spelling with a quote behind it. -/
theorem spelling_of_body {form : Form} {text v : Text} {n : Nat}
    (h : body form text = .closed v n) :
    ∃ w rest, text = w ++ quote :: rest ∧ Spelling form w v ∧ n = w.length + 1 := by
  fun_induction body form text generalizing v n with
  | case1 => cases h
  | case2 =>
    cases h
    exact ⟨[], [], rfl, .nil, rfl⟩
  | case3 => cases h
  | case4 next text =>
    cases h
    exact ⟨[], next :: text, rfl, .nil, rfl⟩
  | case5 c next text hq hesc d hd ih =>
    cases hb : body form text with
    | closed v' n' =>
      rw [hb] at h
      cases h
      obtain ⟨w, rest, rfl, hw, rfl⟩ := ih hb
      obtain ⟨hf, rfl⟩ := hesc
      exact ⟨backslash :: next :: w, rest, rfl, .escape hf hd hw, rfl⟩
    | badEscape _ _ => rw [hb] at h; cases h
    | unterminated => rw [hb] at h; cases h
  | case6 => cases h
  | case7 c next text hq hesc ih =>
    cases hb : body form (next :: text) with
    | closed v' n' =>
      rw [hb] at h
      cases h
      obtain ⟨w, rest, htext, hw, rfl⟩ := ih hb
      refine ⟨c :: w, rest, by rw [htext]; rfl, .plain hq ?_ hw, rfl⟩
      exact fun hf hc => hesc ⟨hf, hc⟩
    | badEscape _ _ => rw [hb] at h; cases h
    | unterminated => rw [hb] at h; cases h

/-- A body that ends in a bad escape is a spelling in front of it. -/
theorem spelling_of_badEscape {form : Form} {text : Text} {e : Char} {n : Nat}
    (h : body form text = .badEscape e n) :
    ∃ w v behind, text = w ++ backslash :: e :: behind ∧ form = .plain ∧ Spelling form w v ∧
      escape? e = none ∧ n = w.length + 2 := by
  fun_induction body form text generalizing n with
  | case1 => cases h
  | case2 => cases h
  | case3 => cases h
  | case4 => cases h
  | case5 c next text hq hesc decoded hdecoded ih =>
    cases hb : body form text with
    | closed _ _ => rw [hb] at h; cases h
    | badEscape _ _ =>
      rw [hb] at h
      cases h
      obtain ⟨w, v, behind, rfl, hform, hw, he, rfl⟩ := ih hb
      obtain ⟨hf, rfl⟩ := hesc
      exact ⟨backslash :: next :: w, _, behind, rfl, hform, .escape hf hdecoded hw, he, rfl⟩
    | unterminated => rw [hb] at h; cases h
  | case6 c next text hq hesc hnone =>
    cases h
    obtain ⟨hf, rfl⟩ := hesc
    exact ⟨[], [], text, rfl, hf, .nil, hnone, rfl⟩
  | case7 c next text hq hesc ih =>
    cases hb : body form (next :: text) with
    | closed _ _ => rw [hb] at h; cases h
    | badEscape _ _ =>
      rw [hb] at h
      cases h
      obtain ⟨w, v, behind, htext, hform, hw, he, rfl⟩ := ih hb
      refine ⟨c :: w, c :: v, behind, by rw [htext]; rfl, hform, .plain hq ?_ hw, he, rfl⟩
      exact fun hf hc => hesc ⟨hf, hc⟩
    | unterminated => rw [hb] at h; cases h

theorem StringLiteral.head {literal v : Text} (h : StringLiteral literal v) :
    ∃ c t, literal = c :: t ∧ (c = quote ∨ c = rawMark) := by
  cases h with
  | plain _ => exact ⟨_, _, rfl, .inl rfl⟩
  | raw _ _ => exact ⟨_, _, rfl, .inr rfl⟩

end Grammar

end Bindcheck
