/-
Bindcheck.Proofs.Location — the location that a report prints identifies
the place of the error.

A diagnostic may carry any pair of offsets as its span, so a report first
moves them into the source. What it prints is a line and a column:

* `InLines` — the lines of a text, said without the function that cuts
  them: each ends at its first terminator, `\r` with a `\n` behind it is
  one terminator, and only the last line may have none. `inLines_lines`
  says that `Text.lines` cuts so.
* `Location.Finds` — a location leads back to an offset: the lines before
  its line, and the columns before its column.
* `Location.Before` — the order of locations, by line and then by column.
  `before_inLines` says that a later offset has a later location.

A terminator at the end of a text opens no further line, so the offset
behind it is found in the last line, one column behind its terminator.
-/
import Bindcheck.Diagnostic

namespace Bindcheck

/-! ## Lines -/

/-- The characters that end a line, and the pair that ends one together. -/
def lineEndings : List Text :=
  [['\n'], ['\r'], ['\r', '\n'], ['\x0b'], ['\x0c'], ['\u0085'], ['\u2028'], ['\u2029']]

/-- No character of the text ends a line. -/
def Unended (text : Text) : Prop := ∀ c ∈ text, [c] ∉ lineEndings

/-- A text and its lines. A pair of carriage return and line feed is not cut, and nothing that ends
a line stands in it before its end. -/
inductive InLines : Text → List Text → Prop where
  | nil : InLines [] []
  | last {body : Text} (hne : body ≠ []) (hbody : Unended body) : InLines body [body]
  | ended {body ending rest : Text} {lines : List Text} (hbody : Unended body)
    (hending : ending ∈ lineEndings) (hpair : ending = ['\r'] → rest.head? ≠ some '\n')
    (hrest : InLines rest lines) : InLines (body ++ (ending ++ rest)) ((body ++ ending) :: lines)

namespace Text

theorem isTerminator_iff {c : Char} : isTerminator c = true ↔ [c] ∈ lineEndings := by
  simp [isTerminator, lineEndings, or_assoc]

theorem unended_cons {c : Char} {body : Text} (hc : isTerminator c = false)
    (h : Unended body) : Unended (c :: body) := by
  refine List.forall_mem_cons.mpr ⟨?_, h⟩
  rw [← isTerminator_iff, hc]
  simp

/-- A character that ends no line goes to the front of the first line. -/
theorem inLines_consLine {c : Char} {text : Text} {lines : List Text}
    (hc : isTerminator c = false) (h : InLines text lines) :
    InLines (c :: text) (consLine c lines) := by
  cases h with
  | nil => exact .last (List.cons_ne_nil c []) (unended_cons hc (List.forall_mem_nil _))
  | last hne hbody => exact .last (List.cons_ne_nil c _) (unended_cons hc hbody)
  | ended hbody hending hpair hrest => exact .ended (unended_cons hc hbody) hending hpair hrest

/-- A text is cut into its lines. -/
theorem inLines_lines (text : Text) : InLines text (lines text) := by
  have hempty : Unended [] := List.forall_mem_nil _
  fun_induction lines text with
  | case1 => exact .nil
  | case2 text ih =>
    have hpair : ['\r', '\n'] ∈ lineEndings := by decide
    exact .ended hempty hpair (fun h => absurd h (by decide)) ih
  | case3 c text hpair hc ih =>
    have hending : [c] ∈ lineEndings := isTerminator_iff.mp hc
    refine .ended hempty hending ?_ ih
    rintro ⟨rfl⟩ hhead
    obtain ⟨rest, rfl⟩ := List.head?_eq_some_iff.mp hhead
    exact hpair rest rfl rfl
  | case4 c text hpair hc ih => exact inLines_consLine (Bool.eq_false_iff.mpr hc) ih

theorem lines_ne_nil {text : Text} (h : text ≠ []) : lines text ≠ [] := by
  intro hnil
  have hflat := flatten_lines text
  rw [hnil] at hflat
  exact h hflat.symm

end Text

/-! ## Locations -/

namespace Location

/-- The order of locations. -/
def Before (a b : Location) : Prop := a.line < b.line ∨ (a.line = b.line ∧ a.column < b.column)

/-- Among some lines a location leads to an offset, which stands in its line; behind it only if it
is the last. -/
structure Finds (lines : List Text) (offset : Nat) (place : Location) : Prop where
  line_pos : 1 ≤ place.line
  column_pos : 1 ≤ place.column
  offset_eq : (lines.take (place.line - 1)).flatten.length + (place.column - 1) = offset
  inside : ∃ line, lines[place.line - 1]? = some line ∧ place.column - 1 ≤ line.length ∧
    (place.line < lines.length → place.column - 1 < line.length)

theorem line_pos_inLines (lines : List Text) (offset : Nat) : 1 ≤ (inLines lines offset).line := by
  fun_induction inLines lines offset <;> simp

/-- A place in the first line. -/
theorem finds_first {line : Text} {lines : List Text} {offset : Nat} (hle : offset ≤ line.length)
    (h : lines ≠ [] → offset < line.length) :
    (⟨1, offset + 1⟩ : Location).Finds (line :: lines) offset := by
  refine ⟨Nat.le_refl 1, Nat.succ_pos offset, by simp, line, rfl, hle, ?_⟩
  intro hlater
  refine h ?_
  rintro rfl
  exact absurd hlater (Nat.lt_irrefl 1)

/-- A place in a later line. -/
theorem Finds.cons {lines : List Text} {offset : Nat} {place : Location}
    (h : place.Finds lines offset) (line : Text) :
    (⟨place.line + 1, place.column⟩ : Location).Finds (line :: lines) (line.length + offset) := by
  obtain ⟨k, hk⟩ : ∃ k, place.line = k + 1 := Nat.exists_eq_add_of_le' h.line_pos
  obtain ⟨found, hfound, hle, hinside⟩ := h.inside
  have hoffset := h.offset_eq
  rw [hk] at hfound hoffset hinside
  simp only [Nat.add_sub_cancel] at hfound hoffset
  refine ⟨by simp, h.column_pos, ?_, found, ?_, hle, ?_⟩
  · simp only [hk, Nat.add_sub_cancel, List.take_succ_cons, List.flatten_cons, List.length_append]
    omega
  · simpa [hk] using hfound
  · simp only [hk, List.length_cons]
    exact fun hlt => hinside (by omega)

/-- The place of an offset leads back to it. -/
theorem finds_inLines {lines : List Text} {offset : Nat} (hne : lines ≠ [])
    (h : offset ≤ lines.flatten.length) : (inLines lines offset).Finds lines offset := by
  induction lines generalizing offset with
  | nil => exact absurd rfl hne
  | cons line lines ih =>
    cases lines with
    | nil => exact finds_first (by simpa using h) (fun hne => absurd rfl hne)
    | cons next lines =>
      simp only [inLines]
      split
      · rename_i hlt
        exact finds_first (Nat.le_of_lt hlt) fun _ => hlt
      · rename_i hge
        have hlater : offset - line.length ≤ (next :: lines).flatten.length := by
          rw [List.flatten_cons, List.length_append] at h
          omega
        have hfinds := (ih (List.cons_ne_nil next lines) hlater).cons line
        rwa [Nat.add_sub_cancel' (Nat.le_of_not_lt hge)] at hfinds

/-- A later offset has a later location. -/
theorem before_inLines (lines : List Text) {o p : Nat} (h : o < p) :
    (inLines lines o).Before (inLines lines p) := by
  induction lines generalizing o p with
  | nil => exact .inr ⟨rfl, Nat.succ_lt_succ h⟩
  | cons line lines ih =>
    cases lines with
    | nil => exact .inr ⟨rfl, Nat.succ_lt_succ h⟩
    | cons next lines =>
      have hpos := line_pos_inLines (next :: lines) (p - line.length)
      simp only [inLines]
      by_cases hp : p < line.length
      · rw [if_pos (by omega), if_pos hp]
        exact .inr ⟨rfl, Nat.succ_lt_succ h⟩
      · rw [if_neg hp]
        by_cases ho : o < line.length
        · rw [if_pos ho]
          exact .inl (Nat.lt_succ_of_le hpos)
        · rw [if_neg ho]
          rcases ih (o := o - line.length) (p := p - line.length) (by omega) with hlt | ⟨heq, hlt⟩
          · exact .inl (Nat.succ_lt_succ hlt)
          · exact .inr ⟨congrArg Nat.succ heq, hlt⟩

theorem Before.ne {a b : Location} (h : a.Before b) : a ≠ b := by
  rintro rfl
  rcases h with h | ⟨-, h⟩ <;> exact Nat.lt_irrefl _ h

end Location

/-! ## Reports -/

/-- A number moved into a range, if the bounds of the range do not cross. -/
def clamped? (low high n : Nat) : Option Nat :=
  if low ≤ high then some (if n < low then low else if high < n then high else n) else none

/-- The end of a clamped span is moved into what its start leaves of the text. -/
theorem clamped?_stop (span : Span) (length : Nat) :
    clamped? (min span.start length) length span.stop = some (span.clamp length).stop := by
  have hstop : (span.clamp length).stop = max (min span.start length) (min span.stop length) := rfl
  rw [clamped?, if_pos (Nat.min_le_right span.start length), hstop]
  congr 1
  split
  · omega
  · split <;> omega

/-- A report about a source that is not empty shows it. The range that is marked lies in the source
and starts where the diagnostic does, or at the end. The location leads back to that offset through
the lines of the source, so an earlier offset has an earlier location, and two offsets never have
the same. -/
theorem report_located {source : Text} (h : source ≠ []) (d : Diagnostic) (file : Option String) :
    let start (d : Diagnostic) := min d.span.start source.length
    ∃ e, (d.report source file).excerpt = some e ∧
      clamped? (start d) source.length d.span.stop = some e.range.stop ∧
      e.range.start = start d ∧ e.range.start ≤ e.range.stop ∧ e.range.stop ≤ source.length ∧
      (Text.lines source).flatten = source ∧ InLines source (Text.lines source) ∧
      e.location.Finds (Text.lines source) (start d) ∧
      ∀ (d' : Diagnostic) (file' : Option String),
        ∃ e', (d'.report source file').excerpt = some e' ∧
          (start d < start d' → e.location.Before e'.location) ∧
          (start d ≠ start d' → e.location ≠ e'.location) := by
  intro start
  have hshown : ∀ (d : Diagnostic) (file : Option String),
      (d.report source file).excerpt = some (d.excerpt source file) := by
    intro d file
    simp [Diagnostic.report, h]
  have hbefore : ∀ {o p : Nat}, o < p →
      (Location.ofOffset source o).Before (Location.ofOffset source p) :=
    Location.before_inLines (Text.lines source)
  obtain ⟨hle, hstop⟩ := d.span.clamp_bounds source.length
  have hfinds : (Location.ofOffset source (start d)).Finds (Text.lines source) (start d) := by
    refine Location.finds_inLines (Text.lines_ne_nil h) ?_
    rw [Text.flatten_lines]
    exact Nat.min_le_right _ _
  refine ⟨_, hshown d file, clamped?_stop d.span source.length, rfl, hle, hstop,
    Text.flatten_lines source, Text.inLines_lines source, hfinds, ?_⟩
  intro d' file'
  refine ⟨_, hshown d' file', hbefore, ?_⟩
  intro hne
  rcases Nat.lt_or_gt_of_ne hne with hlt | hgt
  · exact (hbefore hlt).ne
  · exact (hbefore hgt).ne.symm

/-- The line feed of a pair has a location of its own, and so has the end behind the last line
feed, where a span ends up that is reversed and starts further on. -/
theorem report_located_at_end :
    let source := "a\r\nb\n".toList
    let reversed : Diagnostic := ⟨.parse, ⟨9, 3⟩, "reversed", none⟩
    let lineFeed : Diagnostic := ⟨.scan, ⟨2, 3⟩, "line feed", none⟩
    source ≠ [] ∧ ∃ e e', (reversed.report source none).excerpt = some e ∧ e.range = ⟨5, 5⟩ ∧
      e.location = ⟨2, 3⟩ ∧ e.location.Finds ["a\r\n".toList, "b\n".toList] 5 ∧
      (lineFeed.report source none).excerpt = some e' ∧ e'.location = ⟨1, 3⟩ ∧
      e.location ≠ e'.location := by
  intro source reversed lineFeed
  have hne : source ≠ [] := by decide
  obtain ⟨e, he, -, -, -, -, -, -, hfinds, hothers⟩ := report_located hne reversed none
  obtain ⟨e', he', -, hapart⟩ := hothers lineFeed none
  have hdiffer := hapart (by decide)
  obtain rfl : reversed.excerpt source none = e := Option.some.inj he
  obtain rfl : lineFeed.excerpt source none = e' := Option.some.inj he'
  exact ⟨hne, _, _, he, rfl, rfl, hfinds, he', rfl, hdiffer⟩

end Bindcheck
