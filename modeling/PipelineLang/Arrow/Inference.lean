import PipelineLang.Arrow.Arena
import PipelineLang.Problem
import PipelineLang.Symbols

/-! Types of nodes that follow from the nodes themselves and their children. -/

namespace PipelineLang

/-- The target of a mapping that drops its value. -/
def discardName : String := "_"

structure CombinedTypes where
  types : NodeTypes
  nested : Bool
deriving DecidableEq

namespace SignalType

def paired? : Option SignalType → Option SignalType → Option SignalType
  | some (flat top), some (flat bottom) => some (pair top bottom)
  | _, _ => none

/-- Are both halves known, but not both flat? -/
def nestsPair : Option SignalType → Option SignalType → Bool
  | some left, some right => left.isPair || right.isPair
  | _, _ => false

/-- The inputs of two sides that take the same ones, from whatever is known of them. -/
def sharedInputs : Option SignalType → Option SignalType → Option SignalType
  | some (flat left), some (flat right) => some (flat (left.union right))
  | some left, _ => some left
  | none, right => right

end SignalType

namespace Arena

open SignalType in
/-- The types of a combinator from those of its children. Other nodes have none. -/
def combined? (a : Arena) (i : Nat) : Option CombinedTypes :=
  match (a.node? i).map ArrowNode.kind with
  | some (.compose l r) => some ⟨⟨a.inputs l, a.outputs r⟩, false⟩
  | some (.pairUp l r) =>
    some ⟨⟨paired? (a.inputs l) (a.inputs r), paired? (a.outputs l) (a.outputs r)⟩,
      nestsPair (a.inputs l) (a.inputs r) || nestsPair (a.outputs l) (a.outputs r)⟩
  | some (.fanOut l r) =>
    some ⟨⟨sharedInputs (a.inputs l) (a.inputs r), paired? (a.outputs l) (a.outputs r)⟩,
      nestsPair (a.outputs l) (a.outputs r)⟩
  | some (.paren inner) => some ⟨a.types inner, false⟩
  | _ => none

end Arena

/-- The names that a wire reads; constants have none. -/
def wireSources (entries : List Mapping) : List Ident :=
  entries.filterMap fun m =>
    match m.source with
    | .ident id | .state id => some id
    | .literal _ => none

def kept (targets : List Ident) : List Ident := targets.filter fun id => id.name != discardName

def wireTargets (entries : List Mapping) : List Ident := kept (entries.map Mapping.target)

def mergeTops (entries : List MergeMapping) : List Ident :=
  entries.filterMap fun m =>
    match m.source with
    | .top id => some id
    | _ => none

def mergeBottoms (entries : List MergeMapping) : List Ident :=
  entries.filterMap fun m =>
    match m.source with
    | .bottom id => some id
    | _ => none

def mergeTargets (entries : List MergeMapping) : List Ident :=
  kept (entries.map MergeMapping.target)

namespace NodeKind

/-- The types of a node that is no combinator, where its content gives them. -/
def ownTypes (s : Symbols) : NodeKind → NodeTypes
  | use component =>
    match s.leafOf? component.name with
    | some leaf => ⟨some leaf.inputs, some leaf.outputs⟩
    | none => .unknown
  | merge entries =>
    ⟨some (.pair (.ofIdents (mergeTops entries)) (.ofIdents (mergeBottoms entries))),
      some (.flat (.ofIdents (mergeTargets entries)))⟩
  | wire entries =>
    ⟨some (.flat (.ofIdents (wireSources entries))), some (.flat (.ofIdents (wireTargets entries)))⟩
  | wirePair top bottom =>
    ⟨some (.pair (.ofIdents (wireSources top)) (.ofIdents (wireSources bottom))),
      some (.pair (.ofIdents (wireTargets top)) (.ofIdents (wireTargets bottom)))⟩
  | _ => .unknown

/-- The sides of a wire or merge, in the order in which they are checked. -/
def sides : NodeKind → List (MappingSide × List Ident)
  | merge entries =>
    [(.mergeTop, mergeTops entries), (.mergeBottom, mergeBottoms entries),
     (.mergeOutput, mergeTargets entries)]
  | wire entries => [(.wireInput, wireSources entries), (.wireOutput, wireTargets entries)]
  | wirePair top bottom =>
    [(.pairTopInput, wireSources top), (.pairTopOutput, wireTargets top),
     (.pairBottomInput, wireSources bottom), (.pairBottomOutput, wireTargets bottom)]
  | _ => []

/-- A finding for every name that stands twice on one side. -/
def duplicateFindings (kind : NodeKind) : List Finding :=
  kind.sides.flatMap fun (side, ids) =>
    (duplicates ids).map fun id => ⟨id.span, .duplicateMapping side id.name⟩

end NodeKind

namespace Arena

/-- Types one node, if its types are not yet known. -/
def inferNode (s : Symbols) (a : Arena) (i : Nat) : Arena × List Finding :=
  match a.node? i with
  | none => (a, [])
  | some node =>
    if node.types.isKnown then (a, [])
    else
      match a.combined? i with
      | some combined => (a.setTypes i combined.types, [])
      | none => (a.setTypes i (node.kind.ownTypes s), node.kind.duplicateFindings)

/-- Types the nodes from the first to the last, so that children come before their parents. -/
def infer (s : Symbols) (a : Arena) : Arena × List Finding :=
  (List.range a.size).foldl
    (fun (a, findings) i =>
      let (a, found) := a.inferNode s i
      (a, findings ++ found))
    (a, [])

end Arena

end PipelineLang
