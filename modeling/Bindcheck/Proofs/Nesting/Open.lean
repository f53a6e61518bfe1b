/-
Bindcheck.Proofs.Nesting.Open — the parentheses that are open at an offset
of a source.

A parenthesis counts where it is code; those in strings and comments do
not. `Opened.next` adds a counter to the automaton that tells the two
apart, and the highest value that it has had. Like the automaton it knows
nothing of the grammar.

* `Flat` — a text that leaves the counter alone, as all tokens but the
  parentheses do, and all layout.
* `Level` — a place between two tokens where so many parentheses are
  open, with never more open before it than may be. The readers lead from
  level to level.
* `FirstTooDeep` — the first parenthesis that is opened inside as many as
  may be open.
-/
import Bindcheck.Proofs.Refusal.Place

namespace Bindcheck

namespace Grammar

open Quoted Reader

/-! ## Counting -/

/-- The character is code, or begins a comment or a string. -/
def Mode.isCode : Mode → Bool
  | .code _ | .slash _ => true
  | .comment _ | .string _ | .escape => false

/-- What a text says of the character behind it, and how many parentheses it leaves open. -/
structure Opened where
  mode : Mode
  count : Nat
  /-- The most that were open at a time. -/
  peak : Nat
  deriving DecidableEq, Repr

namespace Opened

/-- The count behind a character, by the count in front of it. -/
def next (s : Opened) (x : Char) : Opened :=
  if s.mode.isCode ∧ x = '(' then ⟨s.mode.next x, s.count + 1, max s.peak (s.count + 1)⟩
  else if s.mode.isCode ∧ x = ')' then ⟨s.mode.next x, s.count - 1, s.peak⟩
  else ⟨s.mode.next x, s.count, s.peak⟩

/-- The count behind a text. -/
def run (s : Opened) (text : Text) : Opened := text.foldl next s

/-- The count behind the characters before an offset of a source. -/
def before (source : Text) (offset : Nat) : Opened :=
  run ⟨.code .plain, 0, 0⟩ (source.take offset)

@[simp] theorem run_nil (s : Opened) : s.run [] = s := rfl

@[simp] theorem run_cons (s : Opened) (x : Char) (text : Text) :
    s.run (x :: text) = (s.next x).run text := rfl

theorem run_append (s : Opened) (a b : Text) : s.run (a ++ b) = (s.run a).run b :=
  List.foldl_append ..

/-- A character that is not a parenthesis, or not code, is not counted. -/
theorem next_of_other {s : Opened} {x : Char}
    (h : s.mode.isCode = true → x ≠ '(' ∧ x ≠ ')') :
    s.next x = ⟨s.mode.next x, s.count, s.peak⟩ := by
  have hopen : ¬ (s.mode.isCode = true ∧ x = '(') := fun ⟨hcode, hx⟩ => (h hcode).1 hx
  have hclose : ¬ (s.mode.isCode = true ∧ x = ')') := fun ⟨hcode, hx⟩ => (h hcode).2 hx
  rw [next, if_neg hopen, if_neg hclose]

/-- A character of a string or a comment is not counted. -/
theorem next_of_not_code {s : Opened} {x : Char} (h : s.mode.isCode = false) :
    s.next x = ⟨s.mode.next x, s.count, s.peak⟩ := by
  apply next_of_other
  rw [h]
  intro hcode
  cases hcode

/-- The counter does not disturb the automaton. -/
@[simp] theorem mode_next (s : Opened) (x : Char) : (s.next x).mode = s.mode.next x := by
  unfold next
  split
  · rfl
  · split <;> rfl

@[simp] theorem mode_run (s : Opened) (text : Text) : (s.run text).mode = s.mode.run text := by
  induction text generalizing s with
  | nil => rfl
  | cons x text ih => simp [ih]

@[simp] theorem mode_before (source : Text) (offset : Nat) :
    (before source offset).mode = Mode.before source offset :=
  mode_run _ _

theorem peak_le_next (s : Opened) (x : Char) : s.peak ≤ (s.next x).peak := by
  unfold next
  split
  · exact Nat.le_max_left _ _
  · split <;> exact Nat.le_refl _

/-- The peak only grows. -/
theorem peak_le_run (s : Opened) (text : Text) : s.peak ≤ (s.run text).peak := by
  induction text generalizing s with
  | nil => exact Nat.le_refl _
  | cons x text ih => exact Nat.le_trans (s.peak_le_next x) (ih (s.next x))

/-- In front of code a slash makes no difference to the count. -/
theorem run_ready {m : Mode} {w : Text} (h : m.Ready w) (hw : w ≠ []) (k j : Nat) :
    run ⟨m, k, j⟩ w = run ⟨.code .plain, k, j⟩ w := by
  rcases h with rfl | ⟨rfl, hhead⟩
  · rfl
  · obtain ⟨x, w, rfl⟩ := List.exists_cons_of_ne_nil hw
    have hx : x ≠ '/' := by
      rintro rfl
      exact hhead rfl
    have hmode : (Mode.slash .plain).next x = (Mode.code .plain).next x := if_neg hx
    simp [next, hmode, Mode.isCode]

end Opened

/-- How many parentheses are open in front of an offset. -/
def openBefore (source : Text) (offset : Nat) : Nat := (Opened.before source offset).count

/-- A parenthesis is opened at the offset. -/
def Opening (source : Text) (offset : Nat) : Prop :=
  source[offset]? = some '(' ∧ (Mode.before source offset).isCode = true

/-- The parenthesis at the offset is the first inside as many open ones as may be open. -/
structure FirstTooDeep (source : Text) (offset : Nat) : Prop where
  opening : Opening source offset
  openBefore_eq : openBefore source offset = nestingLimit
  first : ∀ earlier < offset, Opening source earlier → openBefore source earlier < nestingLimit

/-- What is opened somewhere counts from there on. -/
theorem openBefore_lt_peak {source : Text} {p q : Nat} (hq : Opening source q) (hlt : q < p) :
    openBefore source q < (Opened.before source p).peak := by
  obtain ⟨hparen, hcode⟩ := hq
  have hsplit : source.take p = source.take q ++ '(' :: (source.take p).drop (q + 1) := by
    obtain ⟨hlength, hget⟩ := List.getElem?_eq_some_iff.mp hparen
    have hqp : q < (source.take p).length := by
      rw [List.length_take]
      omega
    have htake : (source.take p).take q = source.take q := by
      rw [List.take_take, Nat.min_eq_left (Nat.le_of_lt hlt)]
    conv => lhs; rw [← List.take_append_drop q (source.take p), List.drop_eq_getElem_cons hqp]
    rw [htake, List.getElem_take, hget]
  have hnext : ((Opened.before source q).next '(').peak
      = max (Opened.before source q).peak ((Opened.before source q).count + 1) := by
    have hopen : (Opened.before source q).mode.isCode = true ∧ '(' = '(' :=
      ⟨by rw [Opened.mode_before]; exact hcode, rfl⟩
    rw [Opened.next, if_pos hopen]
  have hpeak : ((Opened.before source q).next '(').peak ≤ (Opened.before source p).peak := by
    have hle := ((Opened.before source q).next '(').peak_le_run ((source.take p).drop (q + 1))
    rwa [← Opened.run_cons, Opened.before, ← Opened.run_append, ← hsplit] at hle
  unfold openBefore
  omega

/-! ## Texts that are not counted -/

/-- The text leaves the count as it is. -/
def Flat (w : Text) : Prop :=
  ∀ k j, Opened.run ⟨.code .plain, k, j⟩ w = ⟨(Mode.code .plain).run w, k, j⟩

theorem Flat.nil : Flat [] := fun _ _ => rfl

theorem Flat.append {u v : Text} (hu : Flat u) (hcode : Neutral u) (hv : Flat v) :
    Flat (u ++ v) := by
  intro k j
  have hmode : (Mode.code .plain).run u = .code .plain := hcode
  rw [Opened.run_append, hu, hmode, hv, Mode.run_append, hmode]

/-- A text without parentheses is not counted. -/
theorem run_of_not_mem {w : Text} (hopen : '(' ∉ w) (hclose : ')' ∉ w) (s : Opened) :
    s.run w = ⟨s.mode.run w, s.count, s.peak⟩ := by
  induction w generalizing s with
  | nil => rfl
  | cons x w ih =>
    obtain ⟨hx, hopen⟩ := List.ne_and_not_mem_of_not_mem_cons hopen
    obtain ⟨hx', hclose⟩ := List.ne_and_not_mem_of_not_mem_cons hclose
    have hnext := Opened.next_of_other fun _ : s.mode.isCode = true =>
      (⟨Ne.symm hx, Ne.symm hx'⟩ : x ≠ '(' ∧ x ≠ ')')
    rw [Opened.run_cons, hnext, ih hopen hclose, Mode.run_cons]

theorem flat_of_not_mem {w : Text} (hopen : '(' ∉ w) (hclose : ')' ∉ w) : Flat w :=
  fun _ _ => run_of_not_mem hopen hclose _

/-- What a comment says is not counted. -/
theorem run_comment {form : Form} {words : Text} (hw : '\n' ∉ words) (k j : Nat) :
    Opened.run ⟨.comment form, k, j⟩ words = ⟨.comment form, k, j⟩ := by
  induction words with
  | nil => rfl
  | cons x words ih =>
    obtain ⟨hx, hwords⟩ := List.ne_and_not_mem_of_not_mem_cons hw
    have hmode : (Mode.comment form).next x = .comment form := if_neg (Ne.symm hx)
    rw [Opened.run_cons, Opened.next_of_not_code rfl, hmode, ih hwords]

/-- Layout is not counted, also between the mark and the quote of a string. -/
theorem Layout.run_opened {b : Text} (h : Layout b) (form : Form) (k j : Nat) :
    Opened.run ⟨.code form, k, j⟩ b = ⟨.code form, k, j⟩ := by
  induction h with
  | nil => rfl
  | @blank c b hc _ ih =>
    have hparen : c ≠ '(' ∧ c ≠ ')' := by
      constructor <;> (rintro rfl; exact absurd hc (by decide))
    have hmode : (Mode.code form).next c = .code form := if_pos hc
    rw [Opened.run_cons, Opened.next_of_other fun _ => hparen, hmode, ih]
  | @comment words b hw _ ih =>
    have hbegin : Opened.run ⟨.code form, k, j⟩ ('/' :: '/' :: (words ++ '\n' :: b))
        = Opened.run ⟨.comment form, k, j⟩ (words ++ '\n' :: b) := rfl
    have hend : Opened.run ⟨.comment form, k, j⟩ ('\n' :: b)
        = Opened.run ⟨.code form, k, j⟩ b := rfl
    rw [hbegin, Opened.run_append, run_comment hw, hend, ih]

theorem Layout.flat {b : Text} (h : Layout b) : Flat b := by
  intro k j
  rw [h.run_opened, h.run_code]

theorem FinalLayout.flat {b : Text} (h : FinalLayout b) : Flat b := by
  cases h with
  | closed hb => exact hb.flat
  | @comment b words hb hw =>
    apply hb.flat.append hb.neutral
    intro k j
    have hbegin : Opened.run ⟨.code .plain, k, j⟩ ('/' :: '/' :: words)
        = Opened.run ⟨.comment .plain, k, j⟩ words := rfl
    have hmode : (Mode.code .plain).run ('/' :: '/' :: words) = .comment .plain :=
      Mode.run_comment hw
    rw [hbegin, run_comment hw, hmode]

/-- What is spelled in a string is not counted. -/
theorem Spelling.run_opened {form : Form} {w v : Text} (h : Spelling form w v) (k j : Nat) :
    Opened.run ⟨.string form, k, j⟩ w = ⟨.string form, k, j⟩ := by
  induction h with
  | nil => rfl
  | @plain c w v hq hb _ ih =>
    have hmode : (Mode.string form).next c = .string form := by
      rw [Mode.next, if_neg hq, if_neg (fun h => hb h.1 h.2)]
    rw [Opened.run_cons, Opened.next_of_not_code rfl, hmode, ih]
  | @escape e c w v hf _ _ ih =>
    subst hf
    have hbegin : Opened.run ⟨.string .plain, k, j⟩ (backslash :: e :: w)
        = Opened.run ⟨.string .plain, k, j⟩ w := by
      rw [Opened.run_cons, Opened.run_cons, Opened.next_of_not_code rfl,
        Opened.next_of_not_code rfl]
      rfl
    rw [hbegin, ih]

theorem StringLiteral.flat {literal v : Text} (h : StringLiteral literal v) : Flat literal := by
  intro k j
  have hmode : (Mode.code .plain).run literal = .code .plain := h.neutral
  rw [hmode]
  cases h with
  | @plain w v hw =>
    have hbegin : Opened.run ⟨.code .plain, k, j⟩ (quote :: (w ++ [quote]))
        = Opened.run ⟨.string .plain, k, j⟩ (w ++ [quote]) := rfl
    rw [hbegin, Opened.run_append, hw.run_opened]
    rfl
  | @raw gap w v hg hw =>
    have hbegin : Opened.run ⟨.code .plain, k, j⟩ (rawMark :: (gap ++ quote :: (w ++ [quote])))
        = Opened.run ⟨.code .raw, k, j⟩ (gap ++ quote :: (w ++ [quote])) := rfl
    have hopen : Opened.run ⟨.code .raw, k, j⟩ (quote :: (w ++ [quote]))
        = Opened.run ⟨.string .raw, k, j⟩ (w ++ [quote]) := rfl
    rw [hbegin, Opened.run_append, hg.run_opened, hopen, Opened.run_append, hw.run_opened]
    rfl

/-! ## Levels -/

/-- A place between two tokens where so many parentheses are open, and never too many before. -/
structure Level (source : Text) (count : Nat) (c : Cursor) : Prop extends Place source c where
  openBefore_eq : openBefore source c.offset = count
  peak_le : (Opened.before source c.offset).peak ≤ nestingLimit

variable {source w : Text} {count : Nat} {c d : Cursor}

theorem level_start (source : Text) : Level source 0 (Cursor.start source) where
  toPlace := place_start source
  openBefore_eq := rfl
  peak_le := Nat.zero_le _

/-- The count further on is that of the text between, as if it began in code. -/
theorem Place.opened_eq (h : Place source c) (hrest : c.rest = w ++ d.rest)
    (hoffset : d.offset = c.offset + w.length) (hw : w ≠ []) :
    Opened.before source d.offset = Opened.run ⟨.code .plain, openBefore source c.offset,
      (Opened.before source c.offset).peak⟩ w := by
  have hready : (Mode.before source c.offset).Ready w := by
    have hfront := h.ready (by simp [hrest, hw])
    obtain ⟨x, w, rfl⟩ := List.exists_cons_of_ne_nil hw
    rwa [hrest] at hfront
  have hbefore : Opened.before source c.offset = ⟨Mode.before source c.offset,
      openBefore source c.offset, (Opened.before source c.offset).peak⟩ := by
    rw [← Opened.mode_before]
    rfl
  rw [Opened.before, h.reached.take_append hrest hoffset, Opened.run_append, ← Opened.before,
    hbefore, Opened.run_ready hready hw]

/-- Text that is not counted stays on the level. -/
theorem Level.flat (h : Level source count c) (hrest : c.rest = w ++ d.rest)
    (hoffset : d.offset = c.offset + w.length) (hw : Flat w) (hplace : Place source d) :
    Level source count d := by
  have hsame : openBefore source d.offset = openBefore source c.offset ∧
      (Opened.before source d.offset).peak = (Opened.before source c.offset).peak := by
    by_cases hnil : w = []
    · rw [hoffset, hnil]
      exact ⟨rfl, rfl⟩
    · have hbefore := h.toPlace.opened_eq hrest hoffset hnil
      rw [hw] at hbefore
      unfold openBefore at hbefore ⊢
      simp [hbefore]
  exact ⟨hplace, hsame.1.trans h.openBefore_eq, hsame.2 ▸ h.peak_le⟩

theorem Level.pastLayout (h : Level source count c) : Level source count c.pastLayout := by
  obtain ⟨b, hfinal, -, hrest, hoffset⟩ := c.exists_layout
  exact h.flat hrest hoffset hfinal.flat h.toPlace.pastLayout

/-! ### Tokens -/

/-- A token that is neutral and not counted stays on the level. -/
theorem Level.token (h : Level source count c) (hrest : c.pastLayout.rest = w ++ d.rest)
    (hoffset : d.offset = c.pastLayout.offset + w.length) (hflat : Flat w) (hw : Neutral w) :
    Level source count d :=
  h.pastLayout.flat hrest hoffset hflat (h.toPlace.pastLayout.neutral hrest hoffset hw)

/-- No parenthesis is part of a name. -/
theorem flat_of_isNamePart (h : ∀ x ∈ w, Token.isNamePart x = true) : Flat w := by
  apply flat_of_not_mem
  · intro hmem
    exact absurd (h _ hmem) (by decide)
  · intro hmem
    exact absurd (h _ hmem) (by decide)

theorem Level.of_name {name : String} (h : Level source count c)
    (hread : (Reader.token .name).run c = .ok (some name) d) : Level source count d := by
  obtain ⟨letters, hletters, -, hrest, hoffset⟩ := name_eq_some hread
  exact h.token hrest hoffset (flat_of_isNamePart hletters.isNamePart) hletters.neutral

theorem Level.of_integer {n : Int64} (h : Level source count c)
    (hread : integer.run c = .ok (some n) d) : Level source count d := by
  obtain ⟨digits, hdigits, -, -, hrest, hoffset⟩ := integer_eq_some hread
  exact h.token hrest hoffset (flat_of_isNamePart hdigits.isNamePart) hdigits.neutral

theorem Level.of_quoted {s : String} (h : Level source count c)
    (hread : quoted.run c = .ok (some s) d) : Level source count d := by
  obtain ⟨literal, v, hliteral, -, hrest, hoffset⟩ := quoted_eq_some hread
  exact h.token hrest hoffset hliteral.flat hliteral.neutral

/-- No symbol of an operator is a parenthesis. -/
theorem not_mem_symbol : ∀ op ∈ Operator.binary,
    '(' ∉ op.symbol.toList ∧ ')' ∉ op.symbol.toList := by
  decide

theorem Level.of_operator {op : Operator} (h : Level source count c)
    (hread : (Reader.token .operator).run c = .ok (some op) d) : Level source count d := by
  obtain ⟨hop, hslash, -⟩ := exists_layout_of_operator hread
  obtain ⟨-, hrest, hoffset⟩ := operator_eq_some hread
  obtain ⟨hopen, hclose⟩ := not_mem_symbol op hop
  apply h.pastLayout.flat hrest hoffset (flat_of_not_mem hopen hclose)
  exact h.toPlace.pastLayout.step hrest hoffset fun _ => ready_symbol hop hslash

/-- A character that is read and is no parenthesis stays on the level. -/
theorem Level.of_accept {ch : Char} (h : Level source count c)
    (hread : (accept ch).run c = .ok true d) (hcode : Mode.ofCode .plain ch = .code .plain)
    (hopen : ch ≠ '(') (hclose : ch ≠ ')') : Level source count d := by
  obtain ⟨hnext, hoffset⟩ := accept_eq_true hread
  have hrest : c.pastLayout.rest = [ch] ++ d.rest := by rw [hnext]; rfl
  refine h.token hrest hoffset (flat_of_not_mem ?_ ?_) hcode
  · simpa using Ne.symm hopen
  · simpa using Ne.symm hclose

/-- An opening parenthesis leads to the next level. -/
theorem Level.open (h : Level source count c) (hlt : count < nestingLimit)
    (hread : (accept '(').run c = .ok true d) : Level source (count + 1) d := by
  obtain ⟨hnext, hoffset⟩ := accept_eq_true hread
  have hrest : c.pastLayout.rest = ['('] ++ d.rest := by rw [hnext]; rfl
  have hplace := h.pastLayout.toPlace
  have hbefore : Opened.before source d.offset = ⟨.code .plain,
      openBefore source c.pastLayout.offset + 1,
      max (Opened.before source c.pastLayout.offset).peak
        (openBefore source c.pastLayout.offset + 1)⟩ :=
    hplace.opened_eq hrest hoffset (List.cons_ne_nil _ _)
  have hcount := h.pastLayout.openBefore_eq
  have hpeak := h.pastLayout.peak_le
  constructor
  case toPlace => exact hplace.neutral hrest hoffset rfl
  case openBefore_eq =>
    unfold openBefore
    rw [hbefore, hcount]
  case peak_le =>
    rw [hbefore, hcount]
    exact Nat.max_le.mpr ⟨hpeak, hlt⟩

/-- A closing parenthesis leads back. -/
theorem Level.close (h : Level source (count + 1) c) (hread : (accept ')').run c = .ok true d) :
    Level source count d := by
  obtain ⟨hnext, hoffset⟩ := accept_eq_true hread
  have hrest : c.pastLayout.rest = [')'] ++ d.rest := by rw [hnext]; rfl
  have hplace := h.pastLayout.toPlace
  have hbefore : Opened.before source d.offset = ⟨.code .plain,
      openBefore source c.pastLayout.offset - 1,
      (Opened.before source c.pastLayout.offset).peak⟩ :=
    hplace.opened_eq hrest hoffset (List.cons_ne_nil _ _)
  have hcount := h.pastLayout.openBefore_eq
  have hpeak := h.pastLayout.peak_le
  constructor
  case toPlace => exact hplace.neutral hrest hoffset rfl
  case openBefore_eq =>
    unfold openBefore
    rw [hbefore, hcount, Nat.add_sub_cancel]
  case peak_le =>
    rw [hbefore]
    exact hpeak

/-- Where no further parenthesis may be opened, the one that is opened is the first too deep. -/
theorem Level.firstTooDeep (h : Level source nestingLimit c)
    (hparen : c.rest.head? = some '(') : FirstTooDeep source c.offset := by
  have hready := h.ready (by
    rintro hnil
    simp [hnil] at hparen)
  constructor
  case opening =>
    refine ⟨by rw [← h.reached.head?_rest, hparen], ?_⟩
    rcases hready with hcode | ⟨hslash, -⟩
    · rw [hcode]
      rfl
    · rw [hslash]
      rfl
  case openBefore_eq => exact h.openBefore_eq
  case first =>
    intro earlier hlt hopening
    exact Nat.lt_of_lt_of_le (openBefore_lt_peak hopening hlt) h.peak_le

end Grammar

end Bindcheck
