import PipelineLang.Arrow
import PipelineLang.Leaf

/-! A program: imports, and one component with its interface and its definition. -/

namespace PipelineLang

structure Import where
  path : Ident
  localName : Ident
  span : Span
deriving DecidableEq, Inhabited

inductive SignalClause where
  | flat (names : List Ident)
  | pair (top bottom : List Ident)
deriving DecidableEq, Inhabited

namespace SignalClause

def names : SignalClause → List Ident
  | flat names => names
  | pair top bottom => top ++ bottom

def contains (clause : SignalClause) (name : String) : Bool :=
  clause.names.any fun id => id.name = name

end SignalClause

/-- `name := new component with settings` -/
structure Declaration where
  name : Ident
  component : Ident
  withClause : Option (List Mapping)
  span : Span
deriving DecidableEq, Inhabited

namespace Declaration

def settings (d : Declaration) : List Mapping := d.withClause.getD []

end Declaration

inductive Definition where
  | arrow (expression : Arrow)
  | leaf (body : DoBlock)

structure Component where
  name : Ident
  inputs : SignalClause
  outputs : SignalClause
  configuration : List Ident
  declarations : List Declaration
  definition : Definition
  span : Span

namespace Component

def isLeaf (c : Component) : Bool :=
  match c.definition with
  | .leaf _ => true
  | .arrow _ => false

end Component

structure Program where
  imports : List Import
  component : Component
  span : Span

end PipelineLang
