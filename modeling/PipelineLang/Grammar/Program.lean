import PipelineLang.Grammar.Leaf
import PipelineLang.Program

/-! Rules for components and whole programs. -/

namespace PipelineLang

namespace Rule

def identList : Rule (List Ident) := commaSeparated1 ident

def signalClause : Rule SignalClause := firstOf
  [do
    let top ← inParens identList
    symbol .comma
    let bottom ← inParens identList
    return .pair top bottom,
   SignalClause.flat <$> identList]

/-- A wrong declaration is skipped and leaves nothing behind. -/
def declaration : Rule (Option Declaration) :=
  recover
    (spanned do
      let name ← ident
      symbol .assign
      keyword .new
      let component ← ident
      let withClause ← optional do
        keyword .withMap
        mappings
      return fun span => some ⟨name, component, withClause, span⟩)
    (do
      skipUnless [.keyword .aliasAs, .keyword .doBlock]
      let _ ← many (skipUnless resumption)
      return none)

def declarations : Rule (List Declaration) := do
  keyword .declare
  return (← many1 declaration).filterMap id

def arrowDefinition : Rule (List Declaration × Definition) := do
  let ds ← optional declarations
  keyword .aliasAs
  let expression ← arrow
  return (ds.getD [], .arrow expression)

def leafDefinition : Rule (List Declaration × Definition) := do
  keyword .doBlock
  let body ← doBlock
  return ([], .leaf body)

def component : Rule Component := spanned do
  keyword .component
  let name ← ident
  keyword .inputs
  let inputs ← signalClause
  keyword .outputs
  let outputs ← signalClause
  let configuration ← optional do
    keyword .configuration
    identList
  let (declarations, definition) ← firstOf [arrowDefinition, leafDefinition]
  return Component.mk name inputs outputs (configuration.getD []) declarations definition

def importClause : Rule Import := spanned do
  keyword .importModule
  let path ← modulePath
  keyword .aliasAs
  let localName ← ident
  return Import.mk path localName

def program : Rule Program := spanned do
  let imports ← many importClause
  let component ← component
  finish
  return Program.mk imports component

end Rule

end PipelineLang
