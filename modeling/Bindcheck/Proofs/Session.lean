/-
Bindcheck.Proofs.Session — where the cursor of a session goes.

A session is asked for one thing after the other, in any order, and goes
on behind a failure too. The alternatives of a grammar are tried on one
cursor, so it matters what a request does to it that does not find what it
asks for: it moves over the layout, and no further.

* `Session.At` — the invariant: the cursor stands at a place in the source.
  `at_perform` is one request and `at_performAll` is any sequence of them.
* `Skipped` — what stands between the cursor and the next token is layout,
  and no layout follows.
* `Tells` — what an answer says of the text that was moved over behind the
  layout, and of the text behind the cursor. It has a clause for each
  request, whether that is found or not.
* `Request.Disciplined` — one request in full. Every request to read sees
  the text behind the layout alone (`perform_skipped`), so after a miss
  each other request finds what it would have found before.
-/
import Bindcheck.Lexical.Session
import Bindcheck.Proofs.Geometry
import Bindcheck.Proofs.Integer
import Bindcheck.Proofs.Completed
import Bindcheck.Proofs.Refusal.Parts

namespace Bindcheck

namespace Lexical

open Grammar Reader

/-! ## Requests and answers -/

/-- The request reads from the cursor: it asks for no span and for no restart. -/
def Request.Reads : Request → Prop
  | .spanSince _ => False
  | .restart => False
  | _ => True

/-- What was asked for is not there. -/
def Answer.IsMiss : Answer → Prop
  | .flag found => found = false
  | .name found => found = none
  | .integer found => found = none
  | .quoted found => found = none
  | _ => False

/-- No character that continues a run comes next. -/
def Ends (next : Char → Bool) (behind : Text) : Prop := ∀ c ∈ behind.head?, next c = false

/-- What an answer to a request says of the text that was moved over, and of the text behind. -/
def Tells : Request → Answer → Text → Text → Prop
  | .skipLayout, .done, taken, _ => taken = []
  | .atEnd, .flag found, taken, behind => taken = [] ∧ (found = true ↔ behind = [])
  | .char c, .flag true, taken, _ => taken = [c]
  | .char c, .flag false, taken, behind => taken = [] ∧ behind.head? ≠ some c
  | .word letters, .flag true, taken, _ => taken = letters
  | .word letters, .flag false, taken, behind => taken = [] ∧ ¬ letters <+: behind
  | .name, .name (some s), taken, behind =>
    IsName taken ∧ taken = s.toList ∧ Ends Token.isNamePart behind
  | .name, .name none, taken, behind => taken = [] ∧ Ends Token.isNameStart behind
  | .integer, .integer (some v), taken, behind =>
    IsNumeral taken ∧ v.toInt = decimalValue taken ∧ Ends Char.isDigit behind
  | .integer, .integer none, taken, behind => taken = [] ∧ Ends Char.isDigit behind
  | .integer, .failed f, taken, behind =>
    IsNumeral taken ∧ f.cause = .integerOutOfRange (String.ofList taken) ∧ Ends Char.isDigit behind
  | .quoted, .quoted (some s), taken, _ => StringLiteral taken s.toList
  | .quoted, .quoted none, taken, behind =>
    taken = [] ∧ behind.head? ≠ some '\'' ∧ behind.head? ≠ some '@'
  | .quoted, .failed f, _, _ => f.cause.kind = .scan
  | _, _, _, _ => False

/-- The text is empty, or begins with a character that is no blank and begins no comment. -/
def AtToken (text : Text) : Prop :=
  ∀ c behind, text = c :: behind →
    c ∉ [' ', '\n', '\t', '\r'] ∧ ¬ (c = '/' ∧ behind.head? = some '/')

/-- From one offset of a source to another there is layout, and none follows. Only a comment that
the end of the source ends may be left open. -/
structure Skipped (source : Text) (o p : Nat) : Prop where
  le : o ≤ p
  le_length : p ≤ source.length
  layout : FinalLayout ((⟨o, p⟩ : Span).slice source)
  closed : p < source.length → Layout ((⟨o, p⟩ : Span).slice source)
  atToken : AtToken (source.drop p)

namespace Session

/-- The cursor of a session stands at a place in a source. -/
structure At (source : Text) (session : Session) : Prop where
  source_eq : session.source = source
  reaches : (Cursor.start source).Reaches session.cursor

/-- The session behind the layout at its cursor. -/
def skipped (session : Session) : Session := (session.perform .skipLayout).2

end Session

/-- What a request to read does in a session of a source. -/
structure Request.Disciplined (source : Text) (session : Session) (request : Request) : Prop where
  skips : Skipped source session.cursor.offset session.skipped.cursor.offset
  /-- Skipping again moves nothing. -/
  skipped_again : session.skipped.perform .skipLayout = (.done, session.skipped)
  /-- The request is answered as it would be behind the layout. -/
  same : session.skipped.perform request = session.perform request
  forward : session.skipped.cursor.offset ≤ (session.perform request).2.cursor.offset
  tells : Tells request (session.perform request).1
    ((⟨session.skipped.cursor.offset, (session.perform request).2.cursor.offset⟩ : Span).slice
      source)
    (source.drop (session.perform request).2.cursor.offset)
  miss : (session.perform request).1.IsMiss → (session.perform request).2 = session.skipped
  /-- After a miss every other request finds what it would have found in its place. -/
  otherwise : (session.perform request).1.IsMiss → ∀ other : Request, other.Reads →
    (session.perform request).2.perform other = session.perform other

namespace Session

variable {source : Text} {session : Session} {request : Request}

/-! ## Where the cursor is -/

theorem At.rest_eq (h : session.At source) :
    session.cursor.rest = source.drop session.cursor.offset := h.reaches.rest_eq

theorem At.offset_le (h : session.At source) : session.cursor.offset ≤ source.length := by
  have hlength := h.reaches.offset_add_length
  omega

theorem at_start (source : Text) : (start source).At source := ⟨rfl, .refl _⟩

/-- Reading leaves the source alone and the cursor further on. -/
theorem reaches_read {α : Type} (session : Session) (reader : Reader α) (answer : α → Answer) :
    (session.read reader answer).2.source = session.source ∧
      session.cursor.Reaches (session.read reader answer).2.cursor := by
  have hadvances := reader.advances session.cursor
  unfold read
  cases hrun : reader.run session.cursor <;> rw [hrun] at hadvances <;> exact ⟨rfl, hadvances⟩

/-- All requests but a restart leave the source alone and the cursor further on. -/
theorem reaches_perform (session : Session) (h : request ≠ .restart) :
    (session.perform request).2.source = session.source ∧
      session.cursor.Reaches (session.perform request).2.cursor := by
  cases request with
  | restart => exact absurd rfl h
  | _ => exact reaches_read session _ _

/-- A request leaves the cursor in the source. -/
theorem at_perform (h : session.At source) (request : Request) :
    (session.perform request).2.At source := by
  by_cases hrestart : request = .restart
  · subst hrestart
    have hstart : (session.perform .restart).2 = start source := congrArg start h.source_eq
    rw [hstart]
    exact at_start source
  · obtain ⟨hsource, hreaches⟩ := reaches_perform session hrestart
    exact ⟨hsource.trans h.source_eq, h.reaches.trans hreaches⟩

/-- Any sequence of requests leaves the cursor in the source. -/
theorem at_performAll (h : session.At source) (requests : List Request) :
    (session.performAll requests).At source := by
  induction requests generalizing session with
  | nil => exact h
  | cons request requests ih => exact ih (at_perform h request)

/-- Without a restart the cursor never goes back. -/
theorem offset_le_performAll (session : Session) {requests : List Request}
    (h : .restart ∉ requests) :
    session.cursor.offset ≤ (session.performAll requests).cursor.offset := by
  induction requests generalizing session with
  | nil => exact Nat.le_refl _
  | cons request requests ih =>
    obtain ⟨hrequest, hrequests⟩ := List.ne_and_not_mem_of_not_mem_cons h
    have hfirst := (reaches_perform session (Ne.symm hrequest)).2.offset_le
    exact hfirst.trans (ih (session.perform request).2 hrequests)

/-! ## Layout comes first -/

theorem cursor_skipped (session : Session) :
    session.skipped = { session with cursor := session.cursor.pastLayout } := rfl

/-- A request to read is answered by the text behind the layout. -/
theorem perform_skipped (session : Session) (h : request.Reads) :
    session.skipped.perform request = session.perform request := by
  cases request with
  | spanSince offset => cases h
  | restart => cases h
  | _ => simp [cursor_skipped, perform, read, accept, integer, quoted]

/-! ## What the answers say -/

/-- The answer tells of the text between a cursor and the one that the request has left. -/
def Told (request : Request) (p : Cursor) (turn : Answer × Session) : Prop :=
  ∃ taken, p.rest = taken ++ turn.2.cursor.rest ∧
    turn.2.cursor.offset = p.offset + taken.length ∧ Tells request turn.1 taken turn.2.cursor.rest

theorem read_of_ok {α : Type} {reader : Reader α} {answer : α → Answer} {a : α} {d : Cursor}
    (h : reader.run session.cursor = .ok a d) :
    session.read reader answer = (answer a, { session with cursor := d }) := by
  simp only [read, h]

theorem read_of_error {α : Type} {reader : Reader α} {answer : α → Answer} {f : Failure}
    {d : Cursor} (h : reader.run session.cursor = .error f d) :
    session.read reader answer = (.failed f, { session with cursor := d }) := by
  simp only [read, h]

/-- What is not there is told of by the text behind the layout, which nothing was taken from. -/
theorem told_of_miss {p : Cursor} {answer : Answer} (h : Tells request answer [] p.rest) :
    Told request p (answer, { session with cursor := p }) := ⟨[], rfl, rfl, h⟩

theorem told_char (session : Session) (c : Char) :
    Told (.char c) session.cursor.pastLayout (session.perform (.char c)) := by
  cases hrun : (accept c).run session.cursor with
  | error f d => exact absurd hrun accept_ne_error
  | ok found d =>
    rw [perform, read_of_ok hrun]
    cases found with
    | true =>
      obtain ⟨hrest, hoffset⟩ := accept_eq_true hrun
      exact ⟨[c], by rw [hrest]; rfl, hoffset, rfl⟩
    | false =>
      obtain ⟨hhead, rfl⟩ := accept_eq_false hrun
      exact told_of_miss ⟨rfl, hhead⟩

theorem told_word (session : Session) (letters : Text) :
    Told (.word letters) session.cursor.pastLayout (session.perform (.word letters)) := by
  cases hrun : (token (.word letters)).run session.cursor with
  | error f d => exact absurd hrun (tokenAt_ne_error _ _ f d)
  | ok found d =>
    rw [perform, read_of_ok hrun]
    cases found with
    | some u =>
      obtain ⟨n, hread, rfl⟩ := tokenAt_eq_some.mp hrun
      simp only [Token.word] at hread
      split at hread
      · rename_i hbegins
        cases hread
        obtain ⟨behind, hbehind⟩ := List.isPrefixOf_iff_prefix.mp hbegins
        refine ⟨letters, ?_, rfl, rfl⟩
        simp [← hbehind]
      · cases hread
    | none =>
      obtain ⟨hread, rfl⟩ := tokenAt_eq_none.mp hrun
      refine told_of_miss ⟨rfl, ?_⟩
      simpa [Token.word, List.isPrefixOf_iff_prefix] using hread

theorem told_name (session : Session) :
    Told .name session.cursor.pastLayout (session.perform .name) := by
  cases hrun : (token .name).run session.cursor with
  | error f d => exact absurd hrun (tokenAt_ne_error _ _ f d)
  | ok found d =>
    rw [perform, read_of_ok hrun]
    cases found with
    | some s =>
      obtain ⟨n, hread, -⟩ := tokenAt_eq_some.mp hrun
      obtain ⟨letters, hname, rfl, hrest, hoffset⟩ := name_eq_some hrun
      refine ⟨letters, hrest, hoffset, hname, (String.toList_ofList).symm, ?_⟩
      obtain ⟨⟨letters', m⟩, hrun', heq⟩ := Option.map_eq_some_iff.mp hread
      obtain ⟨hletters, -⟩ := Prod.mk.inj heq
      obtain rfl : letters' = letters := String.ofList_injective hletters
      exact stop_of_read hrun' hrest
    | none =>
      obtain ⟨hread, rfl⟩ := tokenAt_eq_none.mp hrun
      exact told_of_miss ⟨rfl, read_name_eq_none.mp hread⟩

theorem told_integer (session : Session) :
    Told .integer session.cursor.pastLayout (session.perform .integer) := by
  cases hread : Token.digits.read session.cursor.pastLayout.rest with
  | none =>
    have hends := read_run_eq_none.mp hread
    rw [perform, read_of_ok (run_integer_none hends)]
    exact told_of_miss ⟨rfl, hends⟩
  | some found =>
    obtain ⟨digits, n⟩ := found
    obtain ⟨hdigits, -, behind, hrest⟩ := run_of_read hread
    have hends := stop_of_read hread hrest
    have hpast : session.cursor.pastLayout
        = ⟨session.cursor.pastLayout.offset, [] ++ (digits ++ behind)⟩ :=
      congrArg (Cursor.mk _) hrest
    have hrun : integer.run session.cursor = integer.run session.cursor.pastLayout := by
      simp [integer]
    rw [hpast, run_integer_digits .nil hdigits hends] at hrun
    split at hrun
    · rename_i hvalue
      rw [perform, read_of_ok hrun]
      exact ⟨digits, hrest, rfl, hdigits, toInt_integerValue hvalue, hends⟩
    · rw [perform, read_of_error hrun]
      exact ⟨digits, hrest, rfl, hdigits, rfl, hends⟩

theorem told_quoted (session : Session) :
    Told .quoted session.cursor.pastLayout (session.perform .quoted) := by
  cases hrun : quoted.run session.cursor with
  | error f d =>
    have hpast : quoted.run session.cursor.pastLayout = .error f d := by
      rw [← hrun]
      simp [quoted]
    have hreaches := quoted.advances session.cursor.pastLayout
    rw [hpast] at hreaches
    obtain ⟨count, hcount, rfl⟩ := hreaches
    rw [perform, read_of_error hrun]
    refine ⟨session.cursor.pastLayout.rest.take count, ?_, ?_, kind_of_quoted hrun⟩
    · exact (List.take_append_drop count _).symm
    · simp [List.length_take, hcount]
  | ok found d =>
    rw [perform, read_of_ok hrun]
    cases found with
    | some s =>
      obtain ⟨literal, v, hliteral, rfl, hrest, hoffset⟩ := quoted_eq_some hrun
      refine ⟨literal, hrest, hoffset, ?_⟩
      show StringLiteral literal (String.ofList v).toList
      rwa [String.toList_ofList]
    | none =>
      obtain ⟨rfl, hquote, hmark⟩ := quoted_eq_none hrun
      exact told_of_miss ⟨rfl, hquote, hmark⟩

/-- The answer to a request to read tells of the text from behind the layout on. -/
theorem told_perform (session : Session) (h : request.Reads) :
    Told request session.cursor.pastLayout (session.perform request) := by
  cases request with
  | skipLayout => exact told_of_miss rfl
  | atEnd => exact told_of_miss ⟨rfl, Cursor.atEnd_iff⟩
  | char c => exact told_char session c
  | word letters => exact told_word session letters
  | name => exact told_name session
  | integer => exact told_integer session
  | quoted => exact told_quoted session
  | spanSince offset => cases h
  | restart => cases h

/-- On a miss no text was moved over. -/
theorem eq_nil_of_isMiss {answer : Answer} {taken behind : Text}
    (h : Tells request answer taken behind) (hmiss : answer.IsMiss) : taken = [] := by
  cases answer with
  | flag found =>
    obtain rfl : found = false := hmiss
    cases request with
    | atEnd => exact h.1
    | char c => exact h.1
    | word letters => exact h.1
    | _ => cases h
  | name found =>
    obtain rfl : found = none := hmiss
    cases request with
    | name => exact h.1
    | _ => cases h
  | integer found =>
    obtain rfl : found = none := hmiss
    cases request with
    | integer => exact h.1
    | _ => cases h
  | quoted found =>
    obtain rfl : found = none := hmiss
    cases request with
    | quoted => exact h.1
    | _ => cases h
  | _ => cases hmiss

/-- On a miss the cursor is left behind the layout. -/
theorem perform_of_isMiss (h : request.Reads) (hmiss : (session.perform request).1.IsMiss) :
    (session.perform request).2 = session.skipped := by
  obtain ⟨taken, hrest, hoffset, htells⟩ := told_perform session h
  obtain rfl := eq_nil_of_isMiss htells hmiss
  have hsource : (session.perform request).2.source = session.source := by
    refine (reaches_perform session ?_).1
    rintro rfl
    exact h
  rw [cursor_skipped]
  generalize (session.perform request).2 = after at hrest hoffset hsource
  obtain ⟨source, offset, rest⟩ := after
  simp only [List.nil_append, List.length_nil, Nat.add_zero] at hrest hoffset hsource
  subst hrest hoffset hsource
  rfl

end Session

/-! ## One request in full -/

/-- A text without layout at its front is empty or begins with a token. -/
theorem atToken_of_bare {text : Text} (h : Bare text) : AtToken text := by
  rintro c behind rfl
  rcases layout_cases c behind with hblank | ⟨rfl, rest, rfl⟩ | ⟨hblank, hslashes⟩
  · rw [Bare, layoutLength_blank hblank] at h
    cases h
  · rw [Bare, layoutLength_slashes] at h
    cases h
  · refine ⟨?_, ?_⟩
    · simpa [isBlank, and_assoc] using hblank
    · rintro ⟨rfl, hhead⟩
      obtain ⟨rest, hrest⟩ := List.head?_eq_some_iff.mp hhead
      exact hslashes rest rfl hrest

variable {source : Text} {session : Session}

theorem skipped_of_at (h : session.At source) :
    Skipped source session.cursor.offset session.skipped.cursor.offset := by
  have hnext : session.skipped.At source := Session.at_perform h .skipLayout
  obtain ⟨b, hfinal, hclosed, hrest, hoffset⟩ := session.cursor.exists_layout
  have hdrop : source.drop session.cursor.offset = b ++ session.cursor.pastLayout.rest := by
    rw [← h.rest_eq, hrest]
  have hslice :
      (⟨session.cursor.offset, session.skipped.cursor.offset⟩ : Span).slice source = b := by
    show (⟨_, session.cursor.pastLayout.offset⟩ : Span).slice source = b
    rw [hoffset]
    exact slice_of_drop hdrop
  constructor
  case le => exact (session.cursor.reaches_pastLayout).offset_le
  case le_length => exact hnext.offset_le
  case layout => rwa [hslice]
  case closed =>
    intro hlt
    rw [hslice]
    refine hclosed fun hnil => ?_
    have hend : session.skipped.cursor.offset = source.length := by
      simpa [Session.cursor_skipped, hnil] using hnext.reaches.offset_add_length
    omega
  case atToken =>
    rw [← hnext.rest_eq]
    exact atToken_of_bare session.cursor.bare_pastLayout

/-- A request to read is disciplined wherever the cursor stands. -/
theorem disciplined_of_at {request : Request} (h : session.At source) (hreads : request.Reads) :
    request.Disciplined source session := by
  have hskipped : session.skipped.At source := Session.at_perform h .skipLayout
  have hafter : (session.perform request).2.At source := Session.at_perform h request
  obtain ⟨taken, hrest, hoffset, htells⟩ := Session.told_perform session hreads
  have hfrom : (session.perform request).2.cursor.offset
      = session.skipped.cursor.offset + taken.length := hoffset
  have hdrop : source.drop session.skipped.cursor.offset
      = taken ++ (session.perform request).2.cursor.rest := by
    rw [← hskipped.rest_eq, ← hrest]
    rfl
  have hmiss : (session.perform request).1.IsMiss →
      (session.perform request).2 = session.skipped := Session.perform_of_isMiss hreads
  constructor
  case skips => exact skipped_of_at h
  case skipped_again =>
    have hlayout : Request.skipLayout.Reads := trivial
    exact Session.perform_skipped session hlayout
  case same => exact Session.perform_skipped session hreads
  case forward => omega
  case tells => rwa [← hafter.rest_eq, hfrom, slice_of_drop hdrop]
  case miss => exact hmiss
  case otherwise =>
    intro h other hother
    rw [hmiss h, Session.perform_skipped session hother]

/-- After any sequence of requests the cursor stands in the source, and no request but a restart
moves it back. Each request to read first moves over the layout, all of it and nothing else. If it
finds what it asks for it goes on over exactly that; if it does not, it stays there, and any other
request does what it would have done in its place. -/
theorem session_disciplined (source : Text) (requests : List Request) :
    let session := (Session.start source).performAll requests
    session.source = source ∧ session.cursor.offset ≤ source.length ∧
    session.cursor.rest = source.drop session.cursor.offset ∧
    (∀ more, .restart ∉ more →
      session.cursor.offset ≤ (session.performAll more).cursor.offset) ∧
    (session.perform .restart).2 = Session.start source ∧
    (∀ offset, (session.perform (.spanSince offset)).2 = session) ∧
    ∀ request : Request, request.Reads → request.Disciplined source session := by
  intro session
  have hat : session.At source := Session.at_performAll (Session.at_start source) requests
  exact ⟨hat.source_eq, hat.offset_le, hat.rest_eq,
    fun more => Session.offset_le_performAll session, congrArg Session.start hat.source_eq,
    fun _ => rfl, fun request => disciplined_of_at hat⟩

/-- A session goes on behind a failure and a miss. What it is asked for next stands behind a
comment, and is found there after another miss. -/
theorem session_behind_failure :
    let source := "@b//'\n/+".toList
    let session := (Session.start source).performAll [.quoted, .word ['/', '/'], .name]
    (∃ f, ((Session.start source).perform .quoted).1 = .failed f) ∧
      Skipped source 2 6 ∧ (session.perform (.char '+')).2 = session.skipped ∧
      Tells (.word ['/', '+']) (.flag true) ((⟨6, 8⟩ : Span).slice source) [] := by
  intro source session
  have hall : ∀ request : Request, request.Reads → request.Disciplined source session :=
    (session_disciplined source [.quoted, .word ['/', '/'], .name]).2.2.2.2.2.2
  have hfailed : ∃ f, ((Session.start source).perform .quoted).1 = .failed f :=
    ⟨⟨.rawQuoteExpected, ⟨0, 1⟩⟩, by decide +kernel⟩
  have hfrom : session.cursor.offset = 2 := by decide +kernel
  have hto : session.skipped.cursor.offset = 6 := by decide +kernel
  have hfound : (session.perform (.word ['/', '+'])).1 = .flag true := by decide +kernel
  have hbehind : (session.perform (.word ['/', '+'])).2.cursor.offset = 8 := by decide +kernel
  have hmissed : (session.perform (.char '+')).1 = .flag false := by decide +kernel
  have hend : source.drop 8 = [] := by decide
  clear_value session source
  have hskips := (hall (.word ['/', '+']) trivial).skips
  have htells := (hall (.word ['/', '+']) trivial).tells
  rw [hfrom, hto] at hskips
  rw [hto, hfound, hbehind, hend] at htells
  refine ⟨hfailed, hskips, (hall (.char '+') trivial).miss ?_, htells⟩
  rw [hmissed]
  rfl

end Lexical

end Bindcheck
