import PipelineLang.Signal

/-! Arrow expressions as rows of nodes. Every node comes after its children, and knows its
parent. -/

namespace PipelineLang

/-- The kind of a node; children are given by their places in the row. -/
inductive NodeKind where
  | compose (left right : Nat)
  | pairUp (left right : Nat)
  | fanOut (left right : Nat)
  | first (inner : Nat)
  | second (inner : Nat)
  | split
  | merge (entries : List MergeMapping)
  | wire (entries : List Mapping)
  | wirePair (top bottom : List Mapping)
  | choose (condition : Condition) (onTrue onFalse : Nat)
  | use (component : Ident)
  | paren (inner : Nat)
  | failed
deriving DecidableEq, Inhabited

namespace NodeKind

def describe : NodeKind → String
  | compose _ _ => "composition"
  | pairUp _ _ => "tuple fanout"
  | fanOut _ _ => "scalar fanout"
  | first _ => "first"
  | second _ => "second"
  | split => "split"
  | merge _ => "merge"
  | wire _ => "wire"
  | wirePair _ _ => "tuple wire"
  | choose _ _ _ => "if"
  | use _ => "component"
  | paren _ => "parenthesised expression"
  | failed => "erroneous expression"

def children : NodeKind → List Nat
  | compose left right | pairUp left right | fanOut left right => [left, right]
  | first inner | second inner | paren inner => [inner]
  | choose _ onTrue onFalse => [onTrue, onFalse]
  | split | merge _ | wire _ | wirePair _ _ | use _ | failed => []

end NodeKind

structure NodeTypes where
  inputs : Option SignalType
  outputs : Option SignalType
deriving DecidableEq, Inhabited

namespace NodeTypes

def unknown : NodeTypes := ⟨none, none⟩

def isKnown (t : NodeTypes) : Bool := t.inputs.isSome && t.outputs.isSome

end NodeTypes

structure ArrowNode where
  kind : NodeKind
  parent : Option Nat
  span : Span
  types : NodeTypes
deriving DecidableEq, Inhabited

/-- The node as a child of the one at the given place. -/
def ArrowNode.childOf (place : Nat) (node : ArrowNode) : ArrowNode :=
  { node with parent := some place }

/-- Adds a node behind the others, whose parent is not known yet, and makes it the parent of its
children. -/
def pushNode (kind : NodeKind) (span : Span) : StateM (List ArrowNode) Nat := do
  let here := (← get).length
  modify (· ++ [⟨kind, none, span, .unknown⟩])
  for child in kind.children do
    modify fun nodes => nodes.modify child (.childOf here)
  return here

/-- Adds the nodes of an expression, children first, and gives the place of the last one. -/
def Arrow.lower : Arrow → StateM (List ArrowNode) Nat
  | compose left right span => do pushNode (.compose (← left.lower) (← right.lower)) span
  | pairUp left right span => do pushNode (.pairUp (← left.lower) (← right.lower)) span
  | fanOut left right span => do pushNode (.fanOut (← left.lower) (← right.lower)) span
  | first inner span => do pushNode (.first (← inner.lower)) span
  | second inner span => do pushNode (.second (← inner.lower)) span
  | split span => pushNode .split span
  | merge entries span => pushNode (.merge entries) span
  | wire entries span => pushNode (.wire entries) span
  | wirePair top bottom span => pushNode (.wirePair top bottom) span
  | choose condition onTrue onFalse span => do
    pushNode (.choose condition (← onTrue.lower) (← onFalse.lower)) span
  | use component span => pushNode (.use component) span
  | paren inner span => do pushNode (.paren (← inner.lower)) span
  | failed span => pushNode .failed span

/-- The nodes of an expression; the last one is the expression itself. -/
structure Arena where
  nodes : List ArrowNode
deriving DecidableEq, Inhabited

namespace Arena

def ofArrow (e : Arrow) : Arena := ⟨(e.lower.run []).2⟩

def size (a : Arena) : Nat := a.nodes.length

def root (a : Arena) : Nat := a.size - 1

def node? (a : Arena) (i : Nat) : Option ArrowNode := a.nodes[i]?

def children (a : Arena) (i : Nat) : List Nat :=
  match a.node? i with
  | some node => node.kind.children
  | none => []

def types (a : Arena) (i : Nat) : NodeTypes :=
  match a.node? i with
  | some node => node.types
  | none => .unknown

def inputs (a : Arena) (i : Nat) : Option SignalType := (a.types i).inputs

def outputs (a : Arena) (i : Nat) : Option SignalType := (a.types i).outputs

def isTyped (a : Arena) (i : Nat) : Bool := (a.types i).isKnown

def setTypes (a : Arena) (i : Nat) (types : NodeTypes) : Arena :=
  ⟨a.nodes.modify i fun node => { node with types }⟩

end Arena

end PipelineLang
