import PipelineLang.Term

/-! Arrow expressions: how components are wired into one. -/

namespace PipelineLang

inductive MergeSource where
  | top (id : Ident)
  | bottom (id : Ident)
  | literal (lit : Literal)
deriving DecidableEq, Inhabited

/-- One entry of a merge: a signal of one half, or a constant, under a name. -/
structure MergeMapping where
  source : MergeSource
  target : Ident
  span : Span
deriving DecidableEq, Inhabited

inductive Arrow where
  /-- `left >>> right` -/
  | compose (left right : Arrow) (span : Span)
  /-- `left *** right` -/
  | pairUp (left right : Arrow) (span : Span)
  /-- `left &&& right` -/
  | fanOut (left right : Arrow) (span : Span)
  | first (inner : Arrow) (span : Span)
  | second (inner : Arrow) (span : Span)
  | split (span : Span)
  | merge (entries : List MergeMapping) (span : Span)
  | wire (entries : List Mapping) (span : Span)
  | wirePair (top bottom : List Mapping) (span : Span)
  | choose (condition : Condition) (onTrue onFalse : Arrow) (span : Span)
  /-- A declared component. -/
  | use (component : Ident) (span : Span)
  | paren (inner : Arrow) (span : Span)
  /-- Stands where no expression could be read. -/
  | failed (span : Span)
deriving DecidableEq, Inhabited

namespace Arrow

def span : Arrow → Span
  | compose _ _ span | pairUp _ _ span | fanOut _ _ span => span
  | first _ span | second _ span | split span => span
  | merge _ span | wire _ span | wirePair _ _ span => span
  | choose _ _ _ span => span
  | use _ span | paren _ span | failed span => span

end Arrow

end PipelineLang
