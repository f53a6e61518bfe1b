/-
Bindcheck.Proofs.Quotation — string literals, written and read back.

Every spelling of a text between quotes is read as that text, whatever
stands behind it, and nothing else is: what is read is a spelling, and
where there is none reading fails for one of two causes. `Spelling` says
how a text may be written. What is left to say is where a text that is
no literal goes wrong:

* `Unclosed` — the inside of a plain string as far as it goes, escapes
  that are none included.
* `Introduces` — a backslash behind such an inside begins an escape; one
  that is itself escaped does not, and neither does one behind the
  closing quote.
* `FirstBadEscape` — the first escape that is none. By `blames_body` this
  is what `Quoted.body` finds, or else there is none.
-/
import Bindcheck.Proofs.Refusal.Parts

namespace Bindcheck

open Grammar Reader Quoted

namespace Grammar

/-! ## Where escapes begin -/

/-- The inside of a plain string as far as it goes; any character may follow a backslash. -/
inductive Unclosed : Text → Prop where
  | nil : Unclosed []
  | plain {c : Char} {w : Text} (hq : c ≠ quote) (hb : c ≠ backslash) (h : Unclosed w) :
    Unclosed (c :: w)
  | pair {e : Char} {w : Text} (h : Unclosed w) : Unclosed (backslash :: e :: w)

/-- Behind the opening quote, and so many characters on, a backslash begins an escape. -/
def Introduces (text : Text) (k : Nat) (e : Char) : Prop :=
  ∃ w behind, Unclosed w ∧ w.length = k ∧ text = w ++ backslash :: e :: behind

/-- The first backslash that begins an escape which is none. -/
structure FirstBadEscape (text : Text) (k : Nat) (e : Char) : Prop where
  introduces : Introduces text k e
  not_escape : escape? e = none
  first : ∀ j < k, ∀ x, Introduces text j x → escape? x ≠ none

variable {text : Text} {c e x : Char} {k n : Nat}

theorem not_introduces_nil : ¬ Introduces [] k e := by
  rintro ⟨w, behind, -, -, h⟩
  simp at h

theorem not_introduces_singleton : ¬ Introduces [c] k e := by
  rintro ⟨w, behind, -, -, h⟩
  have hlength := congrArg List.length h
  simp at hlength
  omega

/-- A character that means itself begins no escape. -/
theorem introduces_cons (hq : c ≠ quote) (hb : c ≠ backslash) :
    Introduces (c :: text) k e ↔ ∃ j, k = j + 1 ∧ Introduces text j e := by
  constructor
  · rintro ⟨w, behind, hw, hk, h⟩
    cases hw with
    | nil => exact absurd (List.cons.inj h).1 hb
    | @plain d w _ _ hw => exact ⟨w.length, by simp [← hk], w, behind, hw, rfl, (List.cons.inj h).2⟩
    | pair _ => exact absurd (List.cons.inj h).1 hb
  · rintro ⟨j, rfl, w, behind, hw, hj, rfl⟩
    exact ⟨c :: w, behind, .plain hq hb hw, by simp [hj], rfl⟩

/-- A backslash begins an escape, and takes the character behind it along. -/
theorem introduces_backslash :
    Introduces (backslash :: x :: text) k e ↔
      (k = 0 ∧ e = x) ∨ ∃ j, k = j + 2 ∧ Introduces text j e := by
  constructor
  · rintro ⟨w, behind, hw, hk, h⟩
    cases hw with
    | nil =>
      simp only [List.nil_append, List.cons.injEq, true_and] at h
      exact .inl ⟨hk.symm, h.1.symm⟩
    | plain _ hb _ => exact absurd (List.cons.inj h).1.symm hb
    | @pair y w hw =>
      simp only [List.cons_append, List.cons.injEq, true_and] at h
      exact .inr ⟨w.length, by simp [← hk], w, behind, hw, rfl, h.2⟩
  · rintro (⟨rfl, rfl⟩ | ⟨j, rfl, w, behind, hw, hj, rfl⟩)
    · exact ⟨[], text, .nil, rfl, rfl⟩
    · exact ⟨backslash :: x :: w, behind, .pair hw, by simp [hj], rfl⟩

/-! ## What is wrong with a body -/

/-- What is wrong with the text behind an opening quote, by how it is said to go on. -/
def Blames (text : Text) : Body → Prop
  | .closed _ _ => True
  | .badEscape e n => ∃ k, n = k + 2 ∧ FirstBadEscape text k e
  | .unterminated => ∀ k x, Introduces text k x → escape? x ≠ none

/-- A character that means itself moves the first bad escape on by one. -/
theorem Blames.cons {b : Body} (h : Blames text b) (hq : c ≠ quote) (hb : c ≠ backslash) :
    Blames (c :: text) (b.cons c 1) := by
  cases b with
  | closed _ _ => trivial
  | badEscape e n =>
    obtain ⟨k, rfl, hk⟩ := h
    refine ⟨k + 1, by omega, (introduces_cons hq hb).mpr ⟨k, rfl, hk.introduces⟩, hk.not_escape, ?_⟩
    intro j hj x hx
    obtain ⟨i, rfl, hi⟩ := (introduces_cons hq hb).mp hx
    exact hk.first i (by omega) x hi
  | unterminated =>
    intro k x hx
    obtain ⟨j, -, hj⟩ := (introduces_cons hq hb).mp hx
    exact h j x hj

/-- An escape moves the first bad one on by two. -/
theorem Blames.escape {b : Body} {decoded : Char} (h : Blames text b)
    (he : escape? e = some decoded) : Blames (backslash :: e :: text) (b.cons decoded 2) := by
  have hgood : escape? e ≠ none := by simp [he]
  cases b with
  | closed _ _ => trivial
  | badEscape e n =>
    obtain ⟨k, rfl, hk⟩ := h
    refine ⟨k + 2, by omega, introduces_backslash.mpr (.inr ⟨k, rfl, hk.introduces⟩),
      hk.not_escape, ?_⟩
    intro j hj x hx
    rcases introduces_backslash.mp hx with ⟨-, rfl⟩ | ⟨i, rfl, hi⟩
    · exact hgood
    · exact hk.first i (by omega) x hi
  | unterminated =>
    intro k x hx
    rcases introduces_backslash.mp hx with ⟨-, rfl⟩ | ⟨j, -, hj⟩
    · exact hgood
    · exact h j x hj

/-- The body of a plain string is said to go on as it does. -/
theorem blames_body {form : Form} (hf : form = .plain) (text : Text) :
    Blames text (body form text) := by
  fun_induction body form text with
  | case1 => exact fun k x h => absurd h not_introduces_nil
  | case2 => trivial
  | case3 c hq => exact fun k x h => absurd h not_introduces_singleton
  | case4 => trivial
  | case5 c next text hq hesc decoded hdecoded ih =>
    obtain ⟨-, rfl⟩ := hesc
    exact ih.escape hdecoded
  | case6 c next text hq hesc hnone =>
    obtain ⟨-, rfl⟩ := hesc
    exact ⟨0, rfl, introduces_backslash.mpr (.inl ⟨rfl, rfl⟩), hnone, by simp⟩
  | case7 c next text hq hesc ih => exact ih.cons hq fun hb => hesc ⟨hf, hb⟩

/-- In raw form a text without quotes is written as it is. -/
theorem spelling_raw {v : Text} (h : quote ∉ v) : Spelling .raw v v := by
  induction v with
  | nil => exact .nil
  | cons c v ih =>
    obtain ⟨hc, hv⟩ := List.ne_and_not_mem_of_not_mem_cons h
    exact .plain hc.symm (by simp) (ih hv)

end Grammar

namespace Reader

variable {c d : Cursor} {o : Nat} {text : Text}

/-- What is read from a quote on is a spelling, with a quote behind it. -/
theorem exists_spelling_of_quoted {s : String} (h : c.pastLayout.rest.head? = some '\'')
    (hread : quoted.run c = .ok (some s) d) :
    ∃ w, Spelling .plain w s.toList ∧ c.pastLayout.rest = '\'' :: (w ++ '\'' :: d.rest) ∧
      d.offset = c.pastLayout.offset + (w.length + 2) := by
  have hc := Cursor.eq_of_head? h
  rw [run_quoted_quote hc] at hread
  obtain ⟨s', e, hbody, hread⟩ := Outcome.andThen_eq_ok.mp hread
  cases hread
  obtain ⟨w, v, hw, rfl, hrest, hoffset⟩ := quotedBodyAt_eq_ok hbody
  refine ⟨w, by simpa using hw, ?_, ?_⟩
  · rw [hc]
    exact congrArg ('\'' :: ·) hrest
  · simp only at hoffset
    omega

/-- Behind a quote that begins no literal reading fails, at the first bad escape or at the end. -/
theorem quoted_refused (h : c.pastLayout = ⟨o, '\'' :: text⟩)
    (hnone : ∀ w v rest, Spelling .plain w v → text ≠ w ++ '\'' :: rest) :
    ∃ f e, quoted.run c = .error f e ∧
      ((∃ k x, FirstBadEscape text k x ∧
          f = ⟨.invalidEscape x, ⟨o + 1 + k, o + 1 + k + 2⟩⟩) ∨
        (∀ k x, Introduces text k x → escape? x ≠ none) ∧
          f = ⟨.unterminatedString, ⟨o, o + 1 + text.length⟩⟩) := by
  rw [run_quoted_quote h]
  have hblames := blames_body rfl text
  cases hbody : body .plain text with
  | closed v n =>
    obtain ⟨w, rest, htext, hw, -⟩ := spelling_of_body hbody
    exact absurd htext (hnone w v rest hw)
  | badEscape x n =>
    rw [hbody] at hblames
    obtain ⟨k, rfl, hk⟩ := hblames
    have hspan : o + 1 + (k + 2) - 2 = o + 1 + k := by omega
    refine ⟨_, (⟨o + 1, text⟩ : Cursor).advance (k + 2), ?_, .inl ⟨k, x, hk, rfl⟩⟩
    simp only [quotedBodyAt, hbody, Cursor.offset_advance, Outcome.error_andThen, hspan]
    rfl
  | unterminated =>
    rw [hbody] at hblames
    have hspan : max o (o + 1 + text.length) = o + 1 + text.length := by omega
    refine ⟨_, (⟨o + 1, text⟩ : Cursor).advance text.length, ?_, .inr ⟨hblames, rfl⟩⟩
    simp only [quotedBodyAt, hbody, Cursor.spanSince, Cursor.offset_advance,
      Outcome.error_andThen, hspan]

end Reader

/-- A spelling between quotes is read as the text that it spells, up to the closing quote and
whatever follows; so is a text without quotes in raw form. What is read behind a quote is such a
spelling. Where there is none, reading fails at the first escape that is none, or else at the end
of the text. -/
theorem quoted_readsBack (c : Cursor) :
    let d := c.pastLayout
    (∀ w v rest, Spelling .plain w v → d.rest = '\'' :: (w ++ '\'' :: rest) →
      quoted.run c = .ok (some (String.ofList v)) ⟨d.offset + (w.length + 2), rest⟩) ∧
    (∀ v rest, '\'' ∉ v → d.rest = '@' :: '\'' :: (v ++ '\'' :: rest) →
      quoted.run c = .ok (some (String.ofList v)) ⟨d.offset + (v.length + 3), rest⟩) ∧
    (∀ s e, d.rest.head? = some '\'' → quoted.run c = .ok (some s) e →
      ∃ w, Spelling .plain w s.toList ∧ d.rest = '\'' :: (w ++ '\'' :: e.rest) ∧
        e.offset = d.offset + (w.length + 2)) ∧
    ∀ text, d.rest = '\'' :: text →
      (∀ w v rest, Spelling .plain w v → text ≠ w ++ '\'' :: rest) →
      ∃ f e, quoted.run c = .error f e ∧ f.diagnostic.kind = .scan ∧
        ((∃ k x, FirstBadEscape text k x ∧
            f = ⟨.invalidEscape x, ⟨d.offset + 1 + k, d.offset + 1 + k + 2⟩⟩) ∨
          (∀ k x, Introduces text k x → x ∈ ['n', 't', 'r', '\\', '\'']) ∧
            f = ⟨.unterminatedString, ⟨d.offset, d.finish⟩⟩) := by
  intro d
  have hd : ∀ text, d.rest = text → c.pastLayout = ⟨d.offset, text⟩ := by
    rintro text rfl
    rfl
  refine ⟨?plain, ?raw, fun s e hq hread => exists_spelling_of_quoted hq hread, ?refused⟩
  case plain =>
    intro w v rest hw htext
    have hsplit : '\'' :: (w ++ '\'' :: rest) = '\'' :: (w ++ ['\'']) ++ rest := by simp
    have hread := run_quoted (hd _ (htext.trans hsplit)) (.plain hw)
    simpa using hread
  case raw =>
    intro v rest hv htext
    have hsplit : '@' :: '\'' :: (v ++ '\'' :: rest)
        = '@' :: ([] ++ '\'' :: (v ++ ['\''])) ++ rest := by simp
    have hread := run_quoted (hd _ (htext.trans hsplit)) (.raw .nil (spelling_raw hv))
    simpa using hread
  case refused =>
    intro text htext hnone
    obtain ⟨f, e, hread, hf⟩ := quoted_refused (hd _ htext) hnone
    refine ⟨f, e, hread, ?_, ?_⟩
    · rcases hf with ⟨k, x, -, rfl⟩ | ⟨-, rfl⟩ <;> rfl
    · rcases hf with hbad | ⟨hall, rfl⟩
      · exact .inl hbad
      · refine .inr ⟨?_, ?_⟩
        · intro k x hx
          by_contra hnot
          exact hall k x hx (escape?_eq_none_iff.mpr hnot)
        · simp [Cursor.finish, htext]
          omega

/-- A quote that is escaped ends nothing, and a backslash that is escaped begins no escape. -/
theorem quoted_behind_escapes :
    let rest := " + 'a'".toList
    let bad := ['\\', '\\', '\\', 'q']
    quoted.run (Cursor.start ("'\\'//@\\\\'".toList ++ rest)) = .ok (some "'//@\\") ⟨9, rest⟩ ∧
      FirstBadEscape bad 2 'q' ∧
      quoted.run (Cursor.start ('\'' :: bad))
        = .error ⟨.invalidEscape 'q', ⟨3, 5⟩⟩ ⟨5, []⟩ := by
  intro rest bad
  have hpast : ∀ text, (Cursor.start ('\'' :: text)).pastLayout = Cursor.start ('\'' :: text) :=
    fun _ => Cursor.pastLayout_of_bare (bare_cons (by decide) (by decide))
  have hspelled : Spelling .plain ['\\', '\'', '/', '/', '@', '\\', '\\']
      ['\'', '/', '/', '@', '\\'] :=
    .escape rfl rfl (.plain (by decide) (by decide) (.plain (by decide) (by decide)
      (.plain (by decide) (by decide) (.escape rfl rfl .nil))))
  have hnone : ∀ w v rest, Spelling .plain w v → bad ≠ w ++ '\'' :: rest := by
    rintro w v rest - h
    have hmem : '\'' ∈ bad := by simp [h]
    exact absurd hmem (by decide)
  have hread := (quoted_readsBack (Cursor.start ("'\\'//@\\\\'".toList ++ rest))).1 _ _ rest
    hspelled (by decide +kernel)
  obtain ⟨f, e, hbad, -, hf⟩ := (quoted_readsBack (Cursor.start ('\'' :: bad))).2.2.2 bad
    (by rw [hpast]; rfl) hnone
  have hrun : quoted.run (Cursor.start ('\'' :: bad))
      = .error ⟨.invalidEscape 'q', ⟨3, 5⟩⟩ ⟨5, []⟩ := by
    decide +kernel
  rw [hrun] at hbad
  cases hbad
  rcases hf with ⟨k, x, hk, heq⟩ | ⟨-, heq⟩
  · rw [hpast] at heq
    simp only [Cursor.start, Failure.mk.injEq, Cause.invalidEscape.injEq, Span.mk.injEq] at heq
    obtain ⟨rfl, hstart, -⟩ := heq
    obtain rfl : k = 2 := by omega
    exact ⟨hread.trans (by decide +kernel), hk, hrun⟩
  · cases heq

end Bindcheck
