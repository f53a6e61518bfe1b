/-
Bindcheck.Proofs.Language — the language of programs, exactly.

A source is a program if and only if it has a derivation, it has at most
one, and the statements of the program are those that the derivation
stands for. One direction is `Derivation.ofProgram_eq`, by reading the
text of the derivation back; the other is `exists_derivation`, by taking
apart what the readers took.
-/
import Bindcheck.Proofs.Grammar.Soundness
import Bindcheck.Proofs.Grammar.Unambiguous

namespace Bindcheck

open Grammar

/-- The programs are the sources with a derivation, which is unique and gives the statements. -/
theorem program_iff_derivation (source : Text) :
    ((∃ code, Code.ofProgram source = .ok code) ↔ Nonempty (Derivation source)) ∧
      Subsingleton (Derivation source) ∧
      ∀ d : Derivation source,
        ∃ code, Code.ofProgram source = .ok code ∧ code.statements = d.statements := by
  refine ⟨⟨?_, ?_⟩, subsingleton_derivation source, ?_⟩
  · rintro ⟨code, hcode⟩
    exact exists_derivation hcode
  · rintro ⟨d⟩
    exact ⟨_, d.ofProgram_eq⟩
  · intro d
    exact ⟨_, d.ofProgram_eq, rfl⟩

end Bindcheck
