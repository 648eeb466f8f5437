import PipelineLang.Grammar.Rule
import PipelineLang.Term

/-! Rules for names, constants and conditions. -/

namespace PipelineLang

namespace Rule

def ident : Rule Ident := accept fun lexeme =>
  match lexeme.token with
  | .ident name => some ⟨name, lexeme.span⟩
  | _ => none

def modulePath : Rule Ident := firstOf
  [ident,
   accept fun lexeme =>
    match lexeme.token with
    | .qualified qualifier name => some ⟨qualifier ++ "." ++ name, lexeme.span⟩
    | _ => none]

/-- A dotted name as a package and the function behind its last dot. -/
def callName : Rule (Ident × Ident) := accept fun lexeme =>
  match lexeme.token with
  | .qualified qualifier name =>
    let dot := lexeme.span.start + qualifier.utf8ByteSize
    some (⟨qualifier, lexeme.span.start, dot⟩, ⟨name, dot + 1, lexeme.span.stop⟩)
  | _ => none

def literal : Rule Literal := accept fun lexeme =>
  match lexeme.token with
  | .constant value => some ⟨value, lexeme.span⟩
  | _ => none

def identOrLiteral : Rule Operand := firstOf [Operand.literal <$> literal, Operand.ident <$> ident]

def operand : Rule Operand := firstOf
  [do
    symbol .stateMark
    return .state (← ident),
   identOrLiteral]

def mapping : Rule Mapping := spanned do
  let source ← identOrLiteral
  symbol .mapsTo
  let target ← ident
  return Mapping.mk source target

def mappings : Rule (List Mapping) := commaSeparated1 mapping

/-- The operators of conditions, from the one that binds closest. -/
def conditionLevels : List (Token × ConditionOp) :=
  [(.symbol .atMost, .le), (.symbol .atLeast, .ge), (.symbol .less, .lt), (.symbol .greater, .gt),
   (.symbol .notEqual, .ne), (.symbol .equal, .eq),
   (.keyword .xor, .xor), (.keyword .and, .and), (.keyword .or, .or)]

/-- What stands between operators; `condition` reads what stands in parentheses. -/
def conditionAtom (condition : Rule Condition) : Rule Condition := firstOf
  [Condition.terminal <$> operand,
   spanned do
    let inner ← inParens condition
    return Condition.paren inner]

def conditionLevel (closer : Rule Condition) (level : Token × ConditionOp) : Rule Condition :=
  chain (token level.1) (.binary level.2) closer

def condition : Rule Condition := fix fun condition =>
  conditionLevels.foldl conditionLevel (conditionAtom condition)

end Rule

end PipelineLang
