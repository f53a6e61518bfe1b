/-
Bindcheck.Proofs.ExitCode — what the exit code of a run tells.

The options among the arguments decide what is run: an expression goes
before a dialogue, and a dialogue before a file (`Settings.Asks`,
`invocationFrom_cases`). A check of an expression or of a file then ends
in one of two ways, and the exit code tells which. `Result.IsCheck` is
the law of both: one diagnostic and nothing on standard output, or no
diagnostic and what was found. For a file that is the list of its names,
each with the type of its first assignment (`Code.Lists`).

`run_outcome` puts the two together, for every list of arguments and
whatever is found under the name of a file: text, other bytes or an error
of the system.
-/
import Mathlib.Control.Monad.Basic
import Bindcheck.CommandLine
import Bindcheck.Proofs.Query
import Bindcheck.Proofs.Typing

namespace Bindcheck

open Grammar

/-- Whether a piece of output is a diagnostic: a report, or other text on standard error. -/
def Emission.isDiagnostic : Emission → Bool
  | out _ => false
  | report _ => true
  | err _ => true

/-! ## What is found -/

/-- The text lists the names that some code assigns, a line for each, in strictly increasing order
and with the type of the first assignment. -/
def Code.Lists (code : Code) (text : String) : Prop :=
  ∃ bindings : List (String × Ty),
    text = String.join (bindings.map fun (name, ty) => name ++ ": " ++ ty.name ++ "\n") ∧
      bindings.Pairwise (·.1 < ·.1) ∧
      ∀ name ty, (name, ty) ∈ bindings ↔
        (code.statements.find? fun s => s.target? = some name).map (·.expr.ty) = some ty

/-- The listing of a program is the list of its names. -/
theorem lists_listing {source : Text} {code : Code} (h : Code.ofProgram source = .ok code) :
    code.Lists code.listing := by
  obtain ⟨assignments, hstatements, hsymbols, -⟩ := exists_located h
  refine ⟨code.symbols.toList.map fun b => (b.1, b.2.ty), ?_, ?_, ?_⟩
  · simp [Code.listing, Function.comp_def]
  · exact List.pairwise_map.mpr code.symbols.sorted
  · intro name ty
    have htarget : ((fun s : Statement => decide (s.target? = some name)) ∘ .assignment)
        = fun a : Assignment => decide (a.name = name) := by
      funext a
      simp [Statement.target?]
    have hlisted : (name, ty) ∈ code.symbols.toList.map (fun b => (b.1, b.2.ty)) ↔
        ∃ entry, code.symbols.get? name = some entry ∧ entry.ty = ty := by
      simp only [← SymbolTable.mem_toList_iff, List.mem_map, Prod.mk.injEq, Prod.exists]
      constructor
      · rintro ⟨key, entry, hmem, rfl, rfl⟩
        exact ⟨entry, hmem, rfl⟩
      · rintro ⟨entry, hmem, rfl⟩
        exact ⟨name, entry, hmem, rfl, rfl⟩
    rw [hlisted, hsymbols, SymbolTable.get?_bindAll, SymbolTable.get?_empty, Option.none_or,
      hstatements, List.find?_map, htarget, Option.map_map]
    simp [Option.map_eq_some_iff, Statement.expr]

/-- Over no names an expression has the type of a literal. -/
theorem int_or_str_of_inferType {source : Text} {ty : Ty}
    (h : inferType source SymbolTable.empty = .ok ty) : ty = .int ∨ ty = .str := by
  simp only [inferType] at h
  split at h
  · rename_i s d hread
    cases h
    obtain ⟨before, t, trailing, ty, -, -, -, -, -, hty, rfl⟩ := ExprTree.exists_of_wholeExpr hread
    have hsame : (t.elaborate SymbolTable.empty.scope before.length trailing.length).ty = ty :=
      ExprTree.ty_elaborate t hty _ _
    simp only [Statement.expr, hsame]
    refine hty.int_or_str fun name ty hname => ?_
    rw [SymbolTable.scope_empty] at hname
    cases hname
  · cases h

namespace CommandLine

/-! ## What is asked for -/

/-- The settings are those that some items ask for. -/
structure Settings.Asks (s : Settings) (asked : List Item) : Prop where
  expr : ∀ source, s.expr = some source ↔ .expr source ∈ asked
  interactive : s.interactive = true ↔ .interactive ∈ asked
  file : ∀ name, s.file = some name ↔ .file name ∈ asked

namespace Settings

theorem asks_none : none.Asks [] := by
  constructor <;> simp [none]

variable {s : Settings} {asked : List Item}

/-- An expression is asked for once. -/
theorem Asks.expr_cons (h : s.Asks asked) (hs : ¬ s.expr.isSome = true) (source : String) :
    { s with expr := some source }.Asks (asked ++ [Item.expr source]) where
  expr other := by
    have hnew : Item.expr other ∉ asked := by
      rw [← h.expr]
      intro heq
      simp [heq] at hs
    simp [hnew, eq_comm]
  interactive := by simp [h.interactive]
  file name := by simp [h.file]

theorem Asks.interactive_cons (h : s.Asks asked) :
    { s with interactive := true }.Asks (asked ++ [Item.interactive]) where
  expr source := by simp [h.expr]
  interactive := by simp
  file name := by simp [h.file]

/-- A file is asked for once. -/
theorem Asks.file_cons (h : s.Asks asked) (hs : ¬ s.file.isSome = true) (name : String) :
    { s with file := some name }.Asks (asked ++ [Item.file name]) where
  expr source := by simp [h.expr]
  interactive := by simp [h.interactive]
  file other := by
    have hnew : Item.file other ∉ asked := by
      rw [← h.file]
      intro heq
      simp [heq] at hs
    simp [hnew, eq_comm]

end Settings

/-- Items ask for the version or for help, or for what the settings come to in which all of them
are taken in, or one of them is a mistake. -/
theorem invocationFrom_cases {s : Settings} {asked : List Item} (h : s.Asks asked)
    (later : List Item) :
    (∃ error, invocationFrom s later = .refuse error) ∨
      (invocationFrom s later = .showVersion ∧ .version ∈ asked ++ later) ∨
      (invocationFrom s later = .showHelp ∧ .help ∈ asked ++ later) ∨
      ∃ t : Settings, t.Asks (asked ++ later) ∧ invocationFrom s later = t.invocation := by
  induction later generalizing s asked with
  | nil => exact .inr (.inr (.inr ⟨s, by rwa [List.append_nil], rfl⟩))
  | cons item later ih =>
    have hsplit : asked ++ item :: later = (asked ++ [item]) ++ later := by simp
    rw [hsplit]
    cases item with
    | expr source =>
      simp only [invocationFrom]
      split
      · exact .inl ⟨_, rfl⟩
      · rename_i hs
        exact ih (h.expr_cons hs source)
    | interactive =>
      simp only [invocationFrom]
      split
      · exact .inl ⟨_, rfl⟩
      · exact ih h.interactive_cons
    | version => exact .inr (.inl ⟨rfl, by simp⟩)
    | help => exact .inr (.inr (.inl ⟨rfl, by simp⟩))
    | file name =>
      simp only [invocationFrom]
      split
      · exact .inl ⟨_, rfl⟩
      · rename_i hs
        split
        · exact .inl ⟨_, rfl⟩
        · exact ih (h.file_cons hs name)
    | mistake error => exact .inl ⟨error, rfl⟩

/-- What arguments ask for, if they make sense: an expression goes before a dialogue, and a dialogue
before a file. -/
theorem asked_of_ofArguments (arguments : List String) :
    let asked := items arguments
    match Invocation.ofArguments arguments with
    | .refuse _ => True
    | .showVersion => .version ∈ asked
    | .showHelp => .help ∈ asked
    | .checkExpression source => .expr source ∈ asked
    | .converse =>
      (∀ source, .expr source ∉ asked) ∧ (.interactive ∈ asked ∨ ∀ name, .file name ∉ asked)
    | .check name =>
      (∀ source, .expr source ∉ asked) ∧ .interactive ∉ asked ∧ .file name ∈ asked := by
  intro asked
  have hcases := invocationFrom_cases Settings.asks_none asked
  rw [List.nil_append] at hcases
  have hsame : Invocation.ofArguments arguments = invocationFrom Settings.none asked := rfl
  rw [hsame]
  rcases hcases with ⟨error, hcase⟩ | ⟨hcase, hversion⟩ | ⟨hcase, hhelp⟩ | ⟨⟨e, i, f⟩, ht, hcase⟩
  · rw [hcase]
    trivial
  · rw [hcase]
    exact hversion
  · rw [hcase]
    exact hhelp
  · obtain ⟨hexpr, hinteractive, hfile⟩ := ht
    rw [hcase]
    cases e with
    | some source =>
      cases f with
      | some name => trivial
      | none => exact (hexpr source).mp rfl
    | none =>
      have hnone : ∀ source, .expr source ∉ asked := by simp [← hexpr]
      cases i with
      | true => exact ⟨hnone, .inl (hinteractive.mp rfl)⟩
      | false =>
        cases f with
        | some name => exact ⟨hnone, by simp [← hinteractive], (hfile name).mp rfl⟩
        | none => exact ⟨hnone, .inr (by simp [← hfile])⟩

/-! ## Checks -/

/-- What a run puts on standard output. -/
def Result.output (r : Result) : String := Emission.outText r.emissions

/-- The diagnostics of a run. -/
def Result.diagnostics (r : Result) : List Emission := r.emissions.filter Emission.isDiagnostic

/-- A run gives the exit code one exactly if it has one diagnostic, which is then all that it
prints; else the exit code is zero, and something is found. -/
structure Result.IsCheck (r : Result) (refusal : Emission → Prop) (found : String → Prop) :
    Prop where
  exit : r.exit = 0 ∨ r.exit = 1
  exit_iff : r.exit = 1 ↔ r.diagnostics.length = 1
  refused : r.exit = 1 → r.output = "" ∧ ∃ d, r.diagnostics = [d] ∧ refusal d
  accepted : r.exit = 0 → r.diagnostics = [] ∧ found r.output

namespace Result

variable {refusal : Emission → Prop} {found : String → Prop}

/-- A diagnostic that prints nothing on standard output makes a check. -/
theorem isCheck_refused {d : Emission} (hdiagnostic : d.isDiagnostic = true)
    (hout : Emission.outText [d] = "") (h : refusal d) :
    (⟨1, [d]⟩ : Result).IsCheck refusal found := by
  have hall : (⟨1, [d]⟩ : Result).diagnostics = [d] := List.filter_cons_of_pos hdiagnostic
  refine ⟨.inr rfl, by simp [hall], fun _ => ⟨hout, d, hall, h⟩, ?_⟩
  intro hzero
  cases hzero

/-- Text on standard output makes a check. -/
theorem isCheck_accepted {text : String} (h : found text) :
    (⟨0, [.out text]⟩ : Result).IsCheck refusal found := by
  have hnone : (⟨0, [.out text]⟩ : Result).diagnostics = [] := rfl
  have hout : (⟨0, [.out text]⟩ : Result).output = text := by simp [output, Emission.outText]
  refine ⟨.inl rfl, by simp [hnone], ?_, fun _ => ⟨hnone, by rwa [hout]⟩⟩
  intro hone
  cases hone

end Result

/-- The report of the failure for which an expression is refused. -/
def RefusesExpression (source : String) (d : Emission) : Prop :=
  ∃ f, inferType source.toList SymbolTable.empty = .error f ∧
    d = .report (f.diagnostic.report source.toList (some "<expr>"))

/-- The report of the failure for which the program in a file is refused, or a line that tells why
the file cannot be read. -/
def RefusesFile (name : String) (contents : FileContents) (d : Emission) : Prop :=
  (∃ e, contents.text = .error e ∧
    d = .err ("Error reading file '" ++ name ++ "': " ++ e.message ++ "\n")) ∨
  ∃ source f, contents.text = .ok source ∧ Code.ofProgram source = .error f ∧
    d = .report (f.diagnostic.report source (some name))

theorem isCheck_expression (source : String) :
    (Result.ofVerdict (Verdict.ofExpression source.toList)).IsCheck (RefusesExpression source)
      fun text => (text = "int\n" ∧ inferType source.toList SymbolTable.empty = .ok .int) ∨
        (text = "str\n" ∧ inferType source.toList SymbolTable.empty = .ok .str) := by
  cases hty : inferType source.toList SymbolTable.empty with
  | ok ty =>
    simp only [Verdict.ofExpression, hty, Result.ofVerdict, if_true]
    refine Result.isCheck_accepted ?_
    rcases int_or_str_of_inferType hty with rfl | rfl
    · exact .inl ⟨by decide, rfl⟩
    · exact .inr ⟨by decide, rfl⟩
  | error f =>
    simp only [Verdict.ofExpression, hty, Result.ofVerdict, Verdict.refused]
    exact Result.isCheck_refused rfl rfl ⟨f, hty, rfl⟩

theorem isCheck_file (name : String) (contents : FileContents) :
    (checkFile name contents).IsCheck (RefusesFile name contents) fun text =>
      ∃ source code, contents.text = .ok source ∧ Code.ofProgram source = .ok code ∧
        code.Lists text := by
  cases htext : contents.text with
  | error e =>
    simp only [checkFile, htext]
    exact Result.isCheck_refused rfl rfl (.inl ⟨e, htext, rfl⟩)
  | ok source =>
    cases hcode : Code.ofProgram source with
    | ok code =>
      simp only [checkFile, htext, Verdict.ofProgram, hcode, Result.ofVerdict, if_true]
      exact Result.isCheck_accepted ⟨source, code, rfl, hcode, lists_listing hcode⟩
    | error f =>
      simp only [checkFile, htext, Verdict.ofProgram, hcode, Result.ofVerdict, Verdict.refused]
      exact Result.isCheck_refused rfl rfl (.inr ⟨source, f, htext, hcode, rfl⟩)

/-- What a run that arguments ask for comes to. A mistake in them is told and nothing else, and the
version and help are told without a diagnostic. A dialogue ends well; a check does so exactly if
there is nothing to report. -/
theorem run_outcome (arguments : List String) (files : String → FileContents)
    (input : List UInt8) :
    let asked := items arguments
    let r := run files input (Invocation.ofArguments arguments)
    match Invocation.ofArguments arguments with
    | .refuse _ => r.exit = 2 ∧ r.output = "" ∧ r.diagnostics.length = 1
    | .showVersion => .version ∈ asked ∧ r.exit = 0 ∧ r.diagnostics = []
    | .showHelp => .help ∈ asked ∧ r.exit = 0 ∧ r.diagnostics = []
    | .checkExpression source =>
      .expr source ∈ asked ∧
        r.IsCheck (RefusesExpression source) fun text =>
          (text = "int\n" ∧ inferType source.toList SymbolTable.empty = .ok .int) ∨
            (text = "str\n" ∧ inferType source.toList SymbolTable.empty = .ok .str)
    | .converse =>
      (∀ source, .expr source ∉ asked) ∧
        (.interactive ∈ asked ∨ ∀ name, .file name ∉ asked) ∧ r.exit = 0
    | .check name =>
      (∀ source, .expr source ∉ asked) ∧ .interactive ∉ asked ∧ .file name ∈ asked ∧
        r.IsCheck (RefusesFile name (files name)) fun text =>
          ∃ source code, (files name).text = .ok source ∧ Code.ofProgram source = .ok code ∧
            code.Lists text := by
  intro asked r
  have hasked := asked_of_ofArguments arguments
  cases hinvocation : Invocation.ofArguments arguments with
  | refuse error =>
    simp only [r, hinvocation]
    exact ⟨rfl, rfl, rfl⟩
  | showVersion =>
    simp only [hinvocation] at hasked
    simp only [r, hinvocation]
    exact ⟨hasked, rfl, rfl⟩
  | showHelp =>
    simp only [hinvocation] at hasked
    simp only [r, hinvocation]
    exact ⟨hasked, rfl, rfl⟩
  | checkExpression source =>
    simp only [hinvocation] at hasked
    refine ⟨hasked, ?_⟩
    simp only [r, hinvocation]
    exact isCheck_expression source
  | converse =>
    simp only [hinvocation] at hasked
    refine ⟨hasked.1, hasked.2, ?_⟩
    simp only [r, hinvocation, run]
  | check name =>
    simp only [hinvocation] at hasked
    refine ⟨hasked.1, hasked.2.1, hasked.2.2, ?_⟩
    simp only [r, hinvocation]
    exact isCheck_file name (files name)

/-- An expression goes before a dialogue, and a dialogue before a file. A file alone is checked: one
that assigns a name twice is accepted and listed with the first type, and a directory is refused. -/
theorem run_outcome_in_order :
    let program := "b=1;a='x';b=a;"
    let files : String → FileContents := fun name =>
      if name = "a.txt" then .bytes program.toUTF8.toList else .directory
    let answer := fun arguments => run files [] (Invocation.ofArguments arguments)
    (Invocation.ofArguments ["-i", "-e", "1"] = .checkExpression "1" ∧
      (answer ["-i", "-e", "1"]).exit = 0 ∧ (answer ["-i", "-e", "1"]).diagnostics = [] ∧
      inferType "1".toList SymbolTable.empty = .ok .int) ∧
    (Invocation.ofArguments ["-i", "a.txt"] = .converse ∧ (answer ["-i", "a.txt"]).exit = 0) ∧
    (Invocation.ofArguments ["a.txt"] = .check "a.txt" ∧ (answer ["a.txt"]).exit = 0 ∧
      ∃ code, Code.ofProgram program.toList = .ok code ∧ code.Lists "a: str\nb: int\n") ∧
    (Invocation.ofArguments ["."] = .check "." ∧ (answer ["."]).exit = 1 ∧
      (answer ["."]).output = "" ∧
      (answer ["."]).diagnostics =
        [.err "Error reading file '.': Is a directory (os error 21)\n"]) := by
  intro program files answer
  have hexpression : Invocation.ofArguments ["-i", "-e", "1"] = .checkExpression "1" := by decide
  have hdialogue : Invocation.ofArguments ["-i", "a.txt"] = .converse := by decide
  have hfile : Invocation.ofArguments ["a.txt"] = .check "a.txt" := by decide
  have hdirectory : Invocation.ofArguments ["."] = .check "." := by decide
  refine ⟨⟨hexpression, ?_⟩, ⟨hdialogue, ?_⟩, ⟨hfile, ?_⟩, hdirectory, ?_⟩
  · have houtcome := run_outcome ["-i", "-e", "1"] files []
    simp only [answer, hexpression] at houtcome ⊢
    obtain ⟨-, hcheck⟩ := houtcome
    have hexit : (run files [] (.checkExpression "1")).exit = 0 := by decide +kernel
    obtain ⟨hnone, ⟨-, hint⟩ | ⟨hstr, -⟩⟩ := hcheck.accepted hexit
    · exact ⟨hexit, hnone, hint⟩
    · exact absurd hstr (by decide +kernel)
  · have houtcome := run_outcome ["-i", "a.txt"] files []
    simp only [answer, hdialogue] at houtcome ⊢
    exact houtcome.2.2
  · have houtcome := run_outcome ["a.txt"] files []
    simp only [answer, hfile] at houtcome ⊢
    obtain ⟨-, -, -, hcheck⟩ := houtcome
    have hexit : (run files [] (.check "a.txt")).exit = 0 := by decide +kernel
    have houtput : (run files [] (.check "a.txt")).output = "a: str\nb: int\n" := by
      decide +kernel
    have htext : (files "a.txt").text.toOption = some program.toList := by decide +kernel
    obtain ⟨-, source, code, hsource, hcode, hlists⟩ := hcheck.accepted hexit
    rw [hsource] at htext
    obtain rfl : source = program.toList := Option.some.inj htext
    exact ⟨hexit, code, hcode, houtput ▸ hlists⟩
  · have houtcome := run_outcome ["."] files []
    simp only [answer, hdirectory] at houtcome ⊢
    obtain ⟨-, -, -, hcheck⟩ := houtcome
    have hexit : (run files [] (.check ".")).exit = 1 := by decide +kernel
    have htext : (files ".").text = .error (.system ⟨"Is a directory", 21⟩) := rfl
    obtain ⟨houtput, d, hall, ⟨e, he, rfl⟩ | ⟨source, f, hsource, -⟩⟩ := hcheck.refused hexit
    · obtain rfl : _ = e := Except.error.inj (htext.symm.trans he)
      exact ⟨hexit, houtput, hall.trans (by decide)⟩
    · cases htext.symm.trans hsource

end CommandLine

end Bindcheck
