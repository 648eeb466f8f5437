import PipelineLang.Proofs.Grammar.Source

/-! Reading against the grammar: a text has no findings just when its tokens are a program of the
grammar, and then the program that was read is the only one that they stand for. -/

namespace PipelineLang

namespace Parsed

/-- A text has no findings just when its tokens are a program of the grammar. That program is then
the only one they stand for, it is what is read, and nothing in it has failed. -/
theorem clean_iff_phrase (source : String) :
    ((ofSource source).findings = [] ↔
      (Scan.ofSource source).faults = [] ∧ ∃ p, ProgramPhrase (Scan.ofSource source).lexemes p) ∧
    ((ofSource source).findings = [] → ∃ p, (ofSource source).program = some p ∧
      (∀ q, ProgramPhrase (Scan.ofSource source).lexemes q ↔ q = p) ∧
      p.component.definition.Intact) ∧
    ∀ l ∈ (Scan.ofSource source).lexemes, ∀ qualifier name, l.token = .qualified qualifier name →
      l.text = qualifier ++ "." ++ name ∧ '.' ∉ name.toList := by
  refine ⟨⟨phrase_of_clean, ?_⟩, ?_, ?_⟩
  · rintro ⟨hfaults, p, hp⟩
    exact (program_of_phrase hp).2 hfaults
  · intro hclean
    obtain ⟨-, p, hp⟩ := phrase_of_clean hclean
    have hprogram := (program_of_phrase hp).1
    refine ⟨p, hprogram, fun q => ⟨fun hq => ?_, fun hq => hq ▸ hp⟩,
      intact_of_clean hprogram hclean⟩
    exact Option.some.inj ((program_of_phrase hq).1.symm.trans hprogram)
  · intro l hl qualifier name htoken
    obtain ⟨htext, hword, -⟩ := (spelled_of_mem hl).qualified qualifier name htoken
    exact ⟨htext, hword.not_mem (by decide)⟩

end Parsed

end PipelineLang
