import PipelineLang.Arrow.Inference

/-! Types of nodes that follow from the place where a node stands. -/

namespace PipelineLang

namespace SignalType

/-- One half of a pair, as a type of its own. -/
def half? (top : Bool) : Option SignalType → Option SignalType
  | some (pair t b) => some (flat (if top then t else b))
  | _ => none

/-- What passes by a component that works on one half only: the other half, or all of a flat
type. -/
def passing (top : Bool) : SignalType → NameSet
  | flat names => names
  | pair t b => if top then t else b

/-- A flat type beside what passes by; `top` tells on which side it stands. -/
def beside? (top : Bool) : Option SignalType → Option NameSet → Option SignalType
  | some (flat names), some other => some (if top then pair names other else pair other names)
  | _, _ => none

/-- Would a pair stand beside what passes by? -/
def nestsBeside : Option SignalType → Option NameSet → Bool
  | some (pair _ _), some _ => true
  | _, _ => false

end SignalType

namespace Arena

open SignalType in
/-- What flows into a node: what its parent lets through to it. Into the whole expression flow the
declared inputs of the component. -/
def context (a : Arena) (declared : SignalType) (i : Nat) : Option SignalType :=
  match (a.node? i).bind ArrowNode.parent with
  | none => some declared
  | some p =>
    let around := (a.inputs p).or
      (if i < p ∧ p < a.size then a.context declared p else none)
    match (a.node? p).map ArrowNode.kind with
    | some (.compose l r) => if r = i then a.outputs l else around
    | some (.pairUp l _) => half? (l = i) around
    | some (.first _) => half? true around
    | some (.second _) => half? false around
    | some (.fanOut _ _) | some (.choose _ _ _) | some (.paren _) => around
    | _ => none
termination_by a.size - i

open SignalType in
/-- Types of a node that its context gives, and whether it would have to pair a pair. -/
def contextual (a : Arena) (declared : SignalType) (i : Nat) : NodeKind → Option CombinedTypes
  | .first inner =>
    let other := (a.context declared i).map (passing false)
    some ⟨⟨beside? true (a.inputs inner) other, beside? true (a.outputs inner) other⟩,
      nestsBeside (a.inputs inner) other || nestsBeside (a.outputs inner) other⟩
  | .second inner =>
    let other := (a.context declared i).map (passing true)
    some ⟨⟨beside? false (a.inputs inner) other, beside? false (a.outputs inner) other⟩,
      nestsBeside (a.inputs inner) other || nestsBeside (a.outputs inner) other⟩
  | .split =>
    match a.context declared i with
    | some (.flat names) => some ⟨⟨some (.flat names), some (.pair names names)⟩, false⟩
    | other => some ⟨⟨other, none⟩, false⟩
  | .choose _ onTrue onFalse =>
    some ⟨⟨(a.inputs onTrue).or (a.inputs onFalse), (a.outputs onTrue).or (a.outputs onFalse)⟩,
      false⟩
  | _ => none

/-- Types one node from its children and its context, where it is not yet typed. The result tells
whether it would have to pair a pair. -/
def deriveNode (declared : SignalType) (a : Arena) (i : Nat) : Arena × Bool :=
  match a.combined? i with
  | some combined => (if a.isTyped i then a else a.setTypes i combined.types, combined.nested)
  | none =>
    if a.isTyped i then (a, false)
    else
      match (a.node? i).bind fun node => a.contextual declared i node.kind with
      | some found => (a.setTypes i found.types, found.nested)
      | none => (a, false)

/-- Types all nodes in turn, and lists those that would have to pair a pair. -/
def derive (declared : SignalType) (a : Arena) : Arena × List Nat :=
  (List.range a.size).foldl
    (fun (a, nested) i =>
      let (a, isNested) := a.deriveNode declared i
      (a, if isNested then nested ++ [i] else nested))
    (a, [])

end Arena

end PipelineLang
