import PipelineLang.Diagnostic

/-! Which problems are problems of the program, and how they show among the diagnostics. -/

namespace PipelineLang

namespace Problem

/-- Does the problem lie in the program or its imports, and not in writing code for it? -/
def ofProgram : Problem → Bool
  | generation _ => false
  | _ => true

theorem code_ne_of_ofProgram {p : Problem} (h : p.ofProgram = true) : p.code ≠ "E0400" := by
  cases p <;> simp [ofProgram, code] at h ⊢

end Problem

namespace Finding

structure Wrong (f : Finding) : Prop where
  isError : f.isError = true
  ofProgram : f.problem.ofProgram = true

end Finding

namespace Diagnostic

theorem isError_ofFinding (f : Finding) : (ofFinding f).isError = f.isError := by
  cases h : f.isError <;> simp [ofFinding, isError, h]

theorem hasErrors_map_ofFinding (findings : List Finding) :
    hasErrors (findings.map ofFinding) = findings.any Finding.isError := by
  simp only [hasErrors, List.any_map]
  exact congrArg findings.any (funext isError_ofFinding)

end Diagnostic

end PipelineLang
