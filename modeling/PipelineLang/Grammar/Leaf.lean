import PipelineLang.Grammar.Arrow
import PipelineLang.Leaf

/-! Rules for leaf bodies. -/

namespace PipelineLang

namespace Rule

def call : Rule Call := spanned do
  let (package, function) ← callName
  let arguments ← inParens (commaSeparated operand)
  return Call.mk package function arguments

def branchResult : Rule BranchResult := do
  keyword .returnValue
  firstOf
    [spanned do
      symbol .openParen
      symbol .closeParen
      return BranchResult.unit,
     BranchResult.value <$> operand]

/-- `name <-` -/
def assignee : Rule Ident := do
  let name ← ident
  symbol .takesFrom
  return name

def letBinding : Rule LetBinding := spanned do
  let target ← assignee
  let c ← call
  return LetBinding.mk target c

def letCommand (target : Option Ident) : Rule (Span → Command) := do
  keyword .letBind
  let bindings ← many1 letBinding
  keyword .inBody
  let body ← call
  return Command.letIn target bindings body

def block (command : Rule Command) : Rule Block := spanned do
  let commands ← many command
  let result ← branchResult
  return Block.mk commands result

def branchCommand (command : Rule Command) (target : Option Ident) : Rule (Span → Command) := do
  keyword .ifTest
  let c ← condition
  keyword .thenBranch
  let onTrue ← block command
  keyword .elseBranch
  let onFalse ← block command
  keyword .endIf
  return Command.branch target c onTrue onFalse

/-- The tokens that follow commands, and so cannot be skipped as a wrong one. -/
def commandEnds : List Token :=
  [.keyword .returnValue, .keyword .elseBranch, .keyword .endIf, .keyword .inBody]

def command : Rule Command := fix fun command =>
  recover
    (spanned do
      let target ← optional assignee
      firstOf
        [letCommand target,
         branchCommand command target,
         do return Command.call target (← call)])
    (spanned do
      skipUnless commandEnds
      let _ ← many (skipUnless resumption)
      return Command.failed)

def returnMapping : Rule ReturnMapping := spanned do
  let target ← assignee
  let source ← operand
  return ReturnMapping.mk target source

def doBlock : Rule DoBlock := spanned do
  let commands ← many command
  let returnSpan ← spanned do
    keyword .returnValue
    return id
  let returns ← commaSeparated1 returnMapping
  return DoBlock.mk commands returns returnSpan

end Rule

end PipelineLang
