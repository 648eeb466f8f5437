/-! The passes of a compilation, and what each of them needs. -/

namespace PipelineLang

inductive Pass where
  | resolve | layOut | infer | analyze | lower | generate
deriving DecidableEq

inductive Artifact where
  | symbols | arena | lowered | generated
deriving DecidableEq

inductive Dialect where
  | any | arrow | leaf
deriving DecidableEq

namespace Pass

def all : List Pass := [resolve, layOut, infer, analyze, lower, generate]

def name : Pass → String
  | resolve => "resolve"
  | layOut => "build_hir"
  | infer => "type_infer"
  | analyze => "analyze"
  | lower => "build_lir"
  | generate => "codegen"

def ofName? (name : String) : Option Pass := all.find? fun p => p.name = name

def inputs : Pass → List Pass
  | resolve => []
  | layOut => [resolve]
  | infer => [layOut]
  | analyze => [infer]
  | lower => [resolve]
  | generate => [analyze, lower]

def outputs : Pass → List Artifact
  | resolve => [.symbols]
  | layOut => [.arena]
  | infer => [.arena]
  | analyze => [.arena, .symbols]
  | lower => [.lowered]
  | generate => [.generated]

def guarantee : Pass → String
  | resolve => "imports loaded, declarations and do-block scopes bound"
  | layOut => "every non-root node has its parent index"
  | infer => "bottom-up typeable nodes typed"
  | analyze => "context types derived, root matches the declaration"
  | lower => "every do-block operand pre-resolved"
  | generate => "Python module emitted"

def dialect : Pass → Dialect
  | resolve => .any
  | layOut => .arrow
  | infer => .arrow
  | analyze => .arrow
  | lower => .leaf
  | generate => .any

/-- Passes only need passes of lower rank. -/
def rank : Pass → Nat
  | resolve => 0
  | layOut => 1
  | infer => 2
  | analyze => 3
  | lower => 4
  | generate => 5

theorem rank_lt_of_mem_inputs {p q : Pass} (h : q ∈ p.inputs) : q.rank < p.rank := by
  cases p <;> simp [inputs] at h
  case generate => rcases h with rfl | rfl <;> decide
  all_goals
    subst h
    decide

/-- Adds a pass behind all that it needs, leaving out what is there already. -/
def visit (done : List Pass) (p : Pass) : List Pass :=
  if p ∈ done then done
  else p.inputs.attach.foldl (fun done ⟨q, _⟩ => visit done q) done ++ [p]
termination_by p.rank
decreasing_by exact rank_lt_of_mem_inputs ‹_›

/-- The passes that lead to a pass, in the order in which they run. -/
def required (p : Pass) : List Pass := visit [] p

end Pass

namespace Dialect

def applies (d : Dialect) (isLeaf : Bool) : Bool :=
  match d with
  | any => true
  | arrow => !isLeaf
  | leaf => isLeaf

end Dialect

end PipelineLang
