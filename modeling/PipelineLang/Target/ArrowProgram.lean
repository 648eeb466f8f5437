import PipelineLang.Arrow.Arena
import PipelineLang.Problem

/-! Arrow expressions as straight-line programs: each step builds one arrow from earlier ones. -/

namespace PipelineLang

inductive ArrowValue where
  | declared (name : String)
  /-- The result of the step with that number. -/
  | temporary (step : Nat)
deriving DecidableEq, Inhabited

inductive ArrowStep where
  | compose (left right : ArrowValue)
  | pairUp (left right : ArrowValue)
  | fanOut (left right : ArrowValue)
  | first (inner : ArrowValue)
  | second (inner : ArrowValue)
  | split
  | merge (entries : List MergeMapping)
  | wire (entries : List Mapping)
  | wirePair (top bottom : List Mapping)
  | choose (condition : Condition) (onTrue onFalse : ArrowValue)
deriving DecidableEq, Inhabited

structure ArrowProgram where
  steps : List ArrowStep
  result : ArrowValue
deriving DecidableEq

namespace ArrowProgram

/-- The values of the nodes so far, in their order, and the steps that make them. -/
structure Progress where
  values : List ArrowValue
  steps : List ArrowStep

namespace Progress

def reuse (p : Progress) (v : ArrowValue) : Progress := { p with values := p.values ++ [v] }

def build (p : Progress) (step : ArrowStep) : Progress :=
  ⟨p.values ++ [.temporary p.steps.length], p.steps ++ [step]⟩

end Progress

private def noValue (node : ArrowNode) : EmissionFault :=
  .noValue node.kind.describe node.span.start

def valueAt (a : Arena) (values : List ArrowValue) (i : Nat) : Except EmissionFault ArrowValue :=
  match values[i]? with
  | some v => .ok v
  | none => .error (noValue ((a.node? i).getD ⟨.failed, none, .endOf 0, .unknown⟩))

/-- Takes one more node into account. Components and parentheses need no step of their own. -/
def addNode (declared : List String) (a : Arena) (p : Progress) (node : ArrowNode) :
    Except EmissionFault Progress := do
  let value := valueAt a p.values
  match node.kind with
  | .use component =>
    if declared.contains component.name then return p.reuse (.declared component.name)
    else .error (noValue node)
  | .paren inner => return p.reuse (← value inner)
  | .compose left right =>
    let left ← value left
    return p.build (.compose left (← value right))
  | .pairUp left right =>
    let left ← value left
    return p.build (.pairUp left (← value right))
  | .fanOut left right =>
    let left ← value left
    return p.build (.fanOut left (← value right))
  | .first inner => return p.build (.first (← value inner))
  | .second inner => return p.build (.second (← value inner))
  | .split => return p.build .split
  | .merge entries => return p.build (.merge entries)
  | .wire entries => return p.build (.wire entries)
  | .wirePair top bottom => return p.build (.wirePair top bottom)
  | .choose condition onTrue onFalse =>
    let onTrue ← value onTrue
    return p.build (.choose condition onTrue (← value onFalse))
  | .failed => .error (noValue node)

/-- The program for an expression over the components that are declared. -/
def ofArena (declared : List String) (a : Arena) : Except EmissionFault ArrowProgram := do
  let p ← a.nodes.foldlM (addNode declared a) ⟨[], []⟩
  return ⟨p.steps, ← valueAt a p.values a.root⟩

end ArrowProgram

end PipelineLang
