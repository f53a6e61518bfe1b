/-
Bindcheck.Proofs.Dialogue — the session of a dialogue, over whole runs.

A dialogue is a recursion over the lines of its input that carries the
session along. `sessions` lists the sessions that it comes through, one
for each line that is read and one for the end of the input, and
`converse_eq` gets all of the output back from them.

Each line either leaves the session alone or adds its own text, behind a
line feed, if that is read to the end over the names of the session
(`next_session`). So `Sound` is kept by every line, and it holds of all
sessions of a run (`Sound.sessions`): a session is the text of the lines
accepted, it is a program, and it binds all that was bound before.

That a session is a program decides how commands are answered, and
`answers_of_program` collects what follows: no command is refused for the
session's sake, and a line of source is judged by its own text alone.
-/
import Mathlib.Control.Monad.Basic
import Bindcheck.Interactive
import Bindcheck.Proofs.Completed
import Bindcheck.Proofs.Concatenation

namespace Bindcheck

/-! ## A program that is extended -/

section Extension

variable {session : Text} {code : Code}

/-- The table that a program leaves holds all of the table over which it is read. -/
theorem Checker.subset_readProgram (source : Text) (table : SymbolTable) :
    table.Subset (withSymbols source table).readProgram.2.code.symbols := by
  show table.Subset (Progress.read table (Cursor.start source)).symbols
  rw [Progress.symbols_read]
  exact table.subset_bindAll _

/-- The table grows exactly if a statement assigns a name that was not bound. -/
theorem Checker.size_readProgram_eq_iff (source : Text) (table : SymbolTable) :
    let r := (withSymbols source table).readProgram
    r.2.code.symbols.size = table.size ↔
      ∀ s ∈ r.2.code.statements, ∀ name ∈ s.target?, table.contains name = true := by
  intro r
  have hsymbols : r.2.code.symbols
      = table.bindAll (Progress.read table (Cursor.start source)).statements :=
    Progress.symbols_read table (Cursor.start source)
  have hstatements : r.2.code.statements
      = (Progress.read table (Cursor.start source)).statements.map .assignment := rfl
  rw [hsymbols, table.size_bindAll_eq_iff, hstatements]
  simp [Statement.target?]

/-- A text that is no program over the names of a program is refused behind it, for what stands in
the text. -/
theorem ofProgram_extended_error (h : Code.ofProgram session = .ok code) {text : Text}
    (hr : (Checker.withSymbols text code.symbols).readProgram.1 ≠ .ok true) :
    ∃ f, Code.ofProgram (Interactive.extended session text) = .error f ∧
      session.length + 1 ≤ f.span.start := by
  unfold Interactive.extended
  cases hread : (Checker.withSymbols text code.symbols).readProgram.1 with
  | error f =>
    rw [ofProgram_append_of_error h hread]
    exact ⟨_, rfl, Nat.le_add_left _ f.span.start⟩
  | ok ended =>
    cases ended with
    | true => exact absurd hread hr
    | false =>
      rw [ofProgram_append_of_rest h hread]
      exact ⟨_, rfl, Nat.le_add_left _ _⟩

end Extension

namespace Interactive

/-! ## Runs -/

/-- The sessions of a dialogue: as each line is about to be read, and at the end of the input. -/
def sessions (session : Text) : List (List UInt8) → List Text
  | [] => [session]
  | line :: lines =>
    session :: match (respond session line).session with
      | some next => sessions next lines
      | none => []

/-- What is printed from a prompt on, for a line or at the end of the input. -/
def turn (session : Text) : Option (List UInt8) → List Emission
  | some line => .out prompt :: (respond session line).emissions
  | none => [.out prompt, .out "\n"]

/-- The output of a dialogue is what each of its sessions answers to the line read there. -/
theorem converse_eq (session : Text) (lines : List (List UInt8)) :
    converse session lines
      = ((sessions session lines).zip (lines.map some ++ [none])).flatMap
          fun (s, line) => turn s line := by
  induction lines generalizing session with
  | nil => simp [converse, sessions, turn]
  | cons line lines ih =>
    simp only [converse, sessions, List.map_cons, List.cons_append, List.zip_cons_cons,
      List.flatMap_cons]
    cases (respond session line).session with
    | none => simp [turn]
    | some next => simp [turn, ih next]

/-- The text that a line adds to a session: all of it, without the spaces around it, if it is
source and nothing is reported. -/
def accepted? (session : Text) (line : List UInt8) : Option Text :=
  (String.fromUTF8? ⟨line.toArray⟩).bind fun text =>
    let source := Text.trim text.toList
    if Command.ofLine text.toList = .extend source ∧
        Emission.reports (respond session line).emissions = [] then some source
    else none

/-- A line of source is checked without the spaces around it. -/
theorem Command.eq_trim_of_extend {line text : Text} (h : Command.ofLine line = .extend text) :
    text = Text.trim line := by
  simp only [Command.ofLine] at h
  split at h
  · cases h
  · split at h
    · cases h
    · split at h
      · cases h
      · split at h <;> cases h
        rfl

/-! ## Answers -/

/-- How commands are answered where the session is a program. -/
structure Answers (session : Text) (code : Code) : Prop where
  /-- The bindings are listed, and nothing is reported. -/
  bindings : perform session .bindings = ⟨[.out code.listing], some session⟩
  /-- A type is never refused because of the session. -/
  typeOf : ∀ expr failure, inferTypeAfter session expr ≠ .error (.program failure)
  /-- The names that a line is compared with are those of the session. -/
  bound : boundNames session = code.symbols.size
  /-- Source is reported unless it is a program over the names of the session. -/
  judged : ∀ text, Emission.reports (perform session (.extend text)).emissions = [] ↔
    (Checker.withSymbols text code.symbols).readProgram.1 = .ok true
  /-- Source that is accepted joins the session, with a note if it binds no new name. -/
  accepted : ∀ text, let r := (Checker.withSymbols text code.symbols).readProgram
    r.1 = .ok true → perform session (.extend text) =
      ⟨if ∀ s ∈ r.2.code.statements, ∀ name ∈ s.target?, code.symbols.contains name = true then
          [.out nothingNew] else [],
        some (extended session text)⟩
  /-- Source that is refused leaves the session, and is blamed on no text of the session. -/
  refused : ∀ text, (Checker.withSymbols text code.symbols).readProgram.1 ≠ .ok true →
    ∃ f, Code.ofProgram (extended session text) = .error f ∧
      perform session (.extend text) = ⟨complain f (extended session text), some session⟩ ∧
      session.length + 1 ≤ f.span.start

section

variable {session : Text} {code : Code}

theorem boundNames_of_program (h : Code.ofProgram session = .ok code) :
    boundNames session = code.symbols.size := by
  unfold boundNames
  rw [h]

/-- The answer to source that is a program over the names of the session. -/
theorem perform_extend_ok (h : Code.ofProgram session = .ok code) {text : Text}
    (hr : (Checker.withSymbols text code.symbols).readProgram.1 = .ok true) :
    perform session (.extend text) =
      ⟨if ∀ s ∈ (Checker.withSymbols text code.symbols).readProgram.2.code.statements,
            ∀ name ∈ s.target?, code.symbols.contains name = true then
          [.out nothingNew] else [],
        some (extended session text)⟩ := by
  have hnew : Code.ofProgram (extended session text) = _ := ofProgram_append_of_ok h hr
  have hsize := Checker.size_readProgram_eq_iff text code.symbols
  simp only [perform, hnew, boundNames_of_program h, hsize]

/-- The answer to source that is none. -/
theorem perform_extend_error (h : Code.ofProgram session = .ok code) {text : Text}
    (hr : (Checker.withSymbols text code.symbols).readProgram.1 ≠ .ok true) :
    ∃ f, Code.ofProgram (extended session text) = .error f ∧
      perform session (.extend text) = ⟨complain f (extended session text), some session⟩ ∧
      session.length + 1 ≤ f.span.start := by
  obtain ⟨f, hf, hstart⟩ := ofProgram_extended_error h hr
  exact ⟨f, hf, by simp only [perform, hf], hstart⟩

/-- Nothing is reported of source exactly if it is a program over the names of the session. -/
theorem reports_extend_eq_nil_iff (h : Code.ofProgram session = .ok code) (text : Text) :
    Emission.reports (perform session (.extend text)).emissions = [] ↔
      (Checker.withSymbols text code.symbols).readProgram.1 = .ok true := by
  by_cases hr : (Checker.withSymbols text code.symbols).readProgram.1 = .ok true
  · simp only [perform_extend_ok h hr, hr]
    split <;> simp [Emission.reports]
  · obtain ⟨f, -, hf, -⟩ := perform_extend_error h hr
    simp [hf, hr, complain, Emission.reports]

/-- Where the session is a program, every command is answered as it should be. -/
theorem answers_of_program (h : Code.ofProgram session = .ok code) : Answers session code where
  bindings := by simp only [perform, h]
  typeOf := by
    intro expr failure
    simp only [inferTypeAfter, h]
    split <;> simp
  bound := boundNames_of_program h
  judged := reports_extend_eq_nil_iff h
  accepted := fun _ hr => perform_extend_ok h hr
  refused := fun _ hr => perform_extend_error h hr

/-! ## One line -/

/-- Only source can change the session. -/
theorem eq_of_perform {command : Command} {next : Text} (hc : ∀ text, command ≠ .extend text)
    (hnext : (perform session command).session = some next) : next = session := by
  cases command with
  | skip =>
    cases hnext
    rfl
  | leave => cases hnext
  | bindings =>
    simp only [perform] at hnext
    split at hnext <;> cases hnext <;> rfl
  | typeOf expr =>
    simp only [perform] at hnext
    split at hnext <;> cases hnext <;> rfl
  | extend text => exact absurd rfl (hc text)

/-- A line of source that is accepted joins the session; otherwise the session stays. -/
theorem next_session (h : Code.ofProgram session = .ok code) {line : List UInt8} {next : Text}
    (hnext : (respond session line).session = some next) :
    (accepted? session line = none ∧ next = session) ∨
    ∃ text new, accepted? session line = some text ∧ next = extended session text ∧
      Code.ofProgram next = .ok new ∧ code.symbols.Subset new.symbols := by
  cases hline : String.fromUTF8? ⟨line.toArray⟩ with
  | none =>
    unfold respond at hnext
    rw [hline] at hnext
    cases hnext
  | some text =>
    have hanswer : respond session line = perform session (Command.ofLine text.toList) := by
      unfold respond
      rw [hline]
    rw [hanswer] at hnext
    by_cases hsource : ∃ source, Command.ofLine text.toList = .extend source
    · obtain ⟨source, hcommand⟩ := hsource
      obtain rfl := Command.eq_trim_of_extend hcommand
      rw [hcommand] at hnext hanswer
      have hjudged := reports_extend_eq_nil_iff h (Text.trim text.toList)
      by_cases hr :
          (Checker.withSymbols (Text.trim text.toList) code.symbols).readProgram.1 = .ok true
      · right
        rw [perform_extend_ok h hr] at hnext
        cases hnext
        refine ⟨Text.trim text.toList, _, ?_, rfl, ofProgram_append_of_ok h hr, ?_⟩
        · simp [accepted?, hline, hcommand, hanswer, hjudged, hr]
        · exact Checker.subset_readProgram _ code.symbols
      · left
        obtain ⟨f, -, hf, -⟩ := perform_extend_error h hr
        rw [hf] at hnext
        cases hnext
        exact ⟨by simp [accepted?, hline, hanswer, hjudged, hr], rfl⟩
    · left
      have hcommand : ∀ source, Command.ofLine text.toList ≠ .extend source :=
        fun source heq => hsource ⟨source, heq⟩
      exact ⟨by simp [accepted?, hline, hcommand], eq_of_perform hcommand hnext⟩

/-! ## Whole runs -/

/-- After some turns the session is the text of the lines accepted in them. It is a program, and it
binds whatever the sessions before it have bound. -/
structure Sound (past : List (Text × List UInt8)) (session : Text) : Prop where
  text : session = (past.filterMap fun (s, line) => accepted? s line).flatMap ('\n' :: ·)
  program : ∃ code, Code.ofProgram session = .ok code ∧
    ∀ earlier ∈ past, ∃ old, Code.ofProgram earlier.1 = .ok old ∧ old.symbols.Subset code.symbols

theorem sound_start : Sound [] [] := by
  refine ⟨rfl, ⟨[], SymbolTable.empty⟩, ?_, by simp⟩
  decide +kernel

/-- Every line keeps the session sound. -/
theorem Sound.step {past : List (Text × List UInt8)} {line : List UInt8} {next : Text}
    (h : Sound past session) (hnext : (respond session line).session = some next) :
    Sound (past ++ [(session, line)]) next := by
  obtain ⟨code, hcode, hpast⟩ := h.program
  rcases next_session hcode hnext with ⟨hnone, rfl⟩ | ⟨text, new, hsome, rfl, hnew, hsubset⟩
  · refine ⟨?_, code, hcode, ?_⟩
    · simpa [hnone] using h.text
    · intro earlier hmem
      rcases List.mem_append.mp hmem with hold | hlast
      · exact hpast earlier hold
      · obtain rfl := List.mem_singleton.mp hlast
        exact ⟨code, hcode, SymbolTable.Subset.refl _⟩
  · refine ⟨?_, new, hnew, ?_⟩
    · have htext : extended session text = session ++ '\n' :: text := rfl
      rw [htext]
      conv => lhs; rw [h.text]
      simp [hsome]
    · intro earlier hmem
      rcases List.mem_append.mp hmem with hold | hlast
      · obtain ⟨old, hprogram, hbound⟩ := hpast earlier hold
        exact ⟨old, hprogram, hbound.trans hsubset⟩
      · obtain rfl := List.mem_singleton.mp hlast
        exact ⟨code, hcode, hsubset⟩

/-- All sessions of a run are sound. -/
theorem Sound.sessions {past : List (Text × List UInt8)} (h : Sound past session)
    (lines : List (List UInt8)) {k : Nat} {later : Text}
    (hk : (Interactive.sessions session lines)[k]? = some later) :
    Sound (past ++ ((Interactive.sessions session lines).zip lines).take k) later := by
  induction lines generalizing past session k with
  | nil =>
    cases k with
    | zero =>
      obtain rfl : session = later := Option.some.inj hk
      simpa using h
    | succ k => simp [Interactive.sessions] at hk
  | cons line lines ih =>
    cases k with
    | zero =>
      obtain rfl : session = later := Option.some.inj hk
      simpa using h
    | succ k =>
      cases hnext : (respond session line).session with
      | none => simp [Interactive.sessions, hnext] at hk
      | some next =>
        simp only [Interactive.sessions, hnext, List.getElem?_cons_succ] at hk
        have hrun := ih (h.step hnext) hk
        simpa [Interactive.sessions, hnext] using hrun

end

/-- At every moment of a dialogue the session is the text of the lines accepted so far. It is a
program, it binds whatever it bound before, and commands are answered as it should be. -/
theorem session_of_dialogue (input : List UInt8) :
    let lines := inputLines input
    let all := sessions [] lines
    dialogue input = .out banner ::
      (all.zip (lines.map some ++ [none])).flatMap (fun (s, line) => turn s line) ∧
    ∀ (k : Nat) (session : Text), all[k]? = some session →
      let past := (all.zip lines).take k
      session = (past.filterMap fun (s, line) => accepted? s line).flatMap ('\n' :: ·) ∧
      ∃ code, Code.ofProgram session = .ok code ∧
        (∀ earlier ∈ past, ∃ old, Code.ofProgram earlier.1 = .ok old ∧
          old.symbols.Subset code.symbols) ∧
        Answers session code := by
  intro lines all
  refine ⟨congrArg _ (converse_eq [] lines), ?_⟩
  intro k session hk past
  obtain ⟨htext, code, hcode, hpast⟩ := sound_start.sessions lines hk
  exact ⟨htext, code, hcode, hpast, answers_of_program hcode⟩

/-- The line behind a comment is accepted, and the one refused in between leaves no trace. -/
theorem session_behind_comment :
    let input := "a=1;//c\nb=;\nb=a;\n".toUTF8.data.toList
    let session := "\na=1;//c\nb=a;".toList
    (sessions [] (inputLines input))[3]? = some session ∧
      ∃ code, Code.ofProgram session = .ok code ∧ Answers session code := by
  intro input session
  have hk : (sessions [] (inputLines input))[3]? = some session := by decide +kernel
  obtain ⟨-, code, hcode, -, hanswers⟩ := (session_of_dialogue input).2 3 session hk
  exact ⟨hk, code, hcode, hanswers⟩

end Interactive

end Bindcheck
