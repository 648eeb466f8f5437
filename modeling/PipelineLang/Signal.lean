import PipelineLang.Collection.NameSet
import PipelineLang.Program

/-! Signal types: what flows into a component and out of it. -/

namespace PipelineLang

def NameSet.ofIdents (ids : List Ident) : NameSet := .ofList (ids.map Ident.name)

/-- A set of named signals, or a pair of such sets. -/
inductive SignalType where
  | flat (names : NameSet)
  | pair (top bottom : NameSet)
deriving DecidableEq, Inhabited

namespace SignalType

def noSignals : SignalType := flat .empty

def ofClause : SignalClause → SignalType
  | .flat names => flat (.ofIdents names)
  | .pair top bottom => pair (.ofIdents top) (.ofIdents bottom)

def isPair : SignalType → Bool
  | flat _ => false
  | pair _ _ => true

def allNames : SignalType → NameSet
  | flat names => names
  | pair top bottom => top.union bottom

def top? : SignalType → Option NameSet
  | flat _ => none
  | pair top _ => some top

def bottom? : SignalType → Option NameSet
  | flat _ => none
  | pair _ bottom => some bottom

private def setText (names : NameSet) : String := "(" ++ ", ".intercalate names.names ++ ")"

def text : SignalType → String
  | flat names => setText names
  | pair top bottom => setText top ++ ", " ++ setText bottom

end SignalType

end PipelineLang
