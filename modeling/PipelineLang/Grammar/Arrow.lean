import PipelineLang.Arrow
import PipelineLang.Grammar.Term

/-! Rules for arrow expressions. -/

namespace PipelineLang

namespace Rule

/-- The tokens at which reading is taken up again after a failure. -/
def resumption : List Token :=
  [.symbol .closeParen, .symbol .compose, .symbol .pairUp, .symbol .fanOut,
   .keyword .aliasAs, .keyword .declare, .keyword .doBlock, .keyword .ifTest, .keyword .returnValue]

def bracketed (r : Rule Ident) : Rule Ident := do
  symbol .openBracket
  let a ← r
  symbol .closeBracket
  return a

def mergeSource : Rule MergeSource := firstOf
  [do
    keyword .top
    return .top (← bracketed ident),
   do
    keyword .bottom
    return .bottom (← bracketed ident),
   MergeSource.literal <$> literal]

def mergeMapping : Rule MergeMapping := spanned do
  let source ← mergeSource
  symbol .mapsTo
  let target ← ident
  return MergeMapping.mk source target

def choice (unary : Rule Arrow) : Rule (Span → Arrow) := do
  keyword .ifTest
  let c ← condition
  let _ ← optional (keyword .thenBranch)
  let onTrue ← unary
  let _ ← optional (keyword .elseBranch)
  let onFalse ← unary
  return Arrow.choose c onTrue onFalse

def wirePair : Rule (Span → Arrow) := do
  keyword .wire
  let top ← inParens mappings
  symbol .comma
  let bottom ← inParens mappings
  return Arrow.wirePair top bottom

def wire : Rule (Span → Arrow) := do
  keyword .wire
  return Arrow.wire (← mappings)

/-- An expression without operators at its top, read up to the next place to resume if it is
wrong. -/
def unaryArrow (arrow : Rule Arrow) : Rule Arrow := fix fun unary =>
  recover
    (spanned (firstOf
      [do
        keyword .first
        return Arrow.first (← unary),
       do
        keyword .second
        return Arrow.second (← unary),
       do
        keyword .split
        return Arrow.split,
       do
        keyword .merge
        return Arrow.merge (← commaSeparated1 mergeMapping),
       wirePair,
       wire,
       choice unary,
       do return Arrow.use (← ident),
       do return Arrow.paren (← inParens arrow)]))
    (spanned do
      let _ ← many1 (skipUnless resumption)
      return Arrow.failed)

def arrow : Rule Arrow := fix fun arrow =>
  let unary := unaryArrow arrow
  let scalar := chain (symbol .fanOut) .fanOut unary
  let tuple := chain (symbol .pairUp) .pairUp scalar
  chain (symbol .compose) .compose tuple

end Rule

end PipelineLang
