import PipelineLang.Proofs.Symbols.Findings
import PipelineLang.Proofs.Symbols.Header

/-! Warnings about names that are not used: one for each name that the program introduces and
mentions nowhere, in the order of the text, and none else. -/

namespace PipelineLang

namespace Entity

end Entity

namespace Entry

def names (es : List (Entry × Bool)) : List String := es.map fun x => x.1.name

def add (es : List (Entry × Bool)) (e : Entry) : List (Entry × Bool) :=
  if e.name ∈ names es then es else es ++ [(e, false)]

end Entry

namespace Program

end Program

namespace Resolution

def Unremarked (r : Resolution) : Prop := ∀ f ∈ r.findings, f.problem.tellsUnused = false

variable {r r' : Resolution}

theorem Unremarked.foldl {α : Type} {f : Resolution → α → Resolution} (h : r.Unremarked)
    (hstep : ∀ r x, r.Unremarked → (f r x).Unremarked) (xs : List α) :
    (xs.foldl f r).Unremarked := by
  induction xs generalizing r with
  | nil => exact h
  | cons x xs ih => exact ih (hstep r x h)

end Resolution

namespace Program

variable (p : Program) (file : String) (registry : Registry) (files : FileTree)

end Program

end PipelineLang
