import PipelineLang.Symbols.Resolution

/-! Finding out what the names of a leaf body stand for. -/

namespace PipelineLang

namespace Resolution

def withTables (r : Resolution) (f : LeafTables → LeafTables) : Resolution :=
  { r with symbols := { r.symbols with tables := f r.symbols.tables } }

def pushFrame (r : Resolution) : Resolution :=
  r.withTables fun t => { t with scopes := t.scopes.push }

def popFrame (r : Resolution) : Resolution :=
  r.withTables fun t => { t with scopes := t.scopes.pop }

def refer (r : Resolution) (span : Span) (ref : Reference) : Resolution :=
  r.withTables fun t => { t with references := t.references.insert span ref }

/-- What a name means here: a variable, or else an input. -/
def meaning? (c : Component) (r : Resolution) (name : String) : Option Reference :=
  match r.symbols.tables.scopes.lookup name with
  | some v => some (.bound v)
  | none => if c.inputs.contains name then some .input else none

/-- Records what a state name refers to and marks it as used, or reports that it is not known. -/
def readState (r : Resolution) (id : Ident) (unknown : Problem) : Resolution :=
  if r.symbols.hasConfiguration id.name then
    { r with symbols := r.symbols.useConfiguration id.name }.refer id.span .state
  else r.report id.span unknown

def readName (c : Component) (r : Resolution) (id : Ident) (unknown : Problem) : Resolution :=
  match r.meaning? c id.name with
  | some ref => r.refer id.span ref
  | none => r.report id.span unknown

/-- Records what an operand refers to; the problems are those of unknown states and unknown
names. -/
def readOperand (c : Component) (unknownState unknownName : Ident → Problem) (r : Resolution) :
    Operand → Resolution
  | .state id => r.readState id (unknownState id)
  | .ident id => readName c r id (unknownName id)
  | .literal lit => r.refer lit.span .literal

/-- Binds a new variable. Inputs and outputs cannot be assigned, nor a variable of the same
frame. -/
def assign (c : Component) (r : Resolution) (target : Ident) : Resolution :=
  let r := r.reportIf (c.inputs.contains target.name) target.span (.writtenInput target.name)
  let r := r.reportIf (c.outputs.contains target.name) target.span (.writtenOutput target.name)
  match r.symbols.tables.scopes.bind? target.name with
  | some (v, scopes) =>
    r.withTables fun t => { t with scopes, targets := t.targets.insert target.span v }
  | none => r.report target.span (.reassigned target.name)

/-- The problem with the number of arguments of a call, if there is one. -/
def arityProblem? (call : Call) (f : FunctionSignature) : Option Problem :=
  let given := call.arguments.length
  if f.isVariadic then
    if given < f.leastArguments then
      some (.tooFewArguments call.qualifiedName given f.leastArguments)
    else none
  else if given != f.params.length then
    some (.wrongArguments call.qualifiedName given f.params.length)
  else none

def calleeFinding? (s : Symbols) (call : Call) : Option Finding :=
  match s.import? call.package.name with
  | none => some ⟨call.package.span, .unknownPackage call.package.name⟩
  | some entry =>
    let function? := match entry.kind with
      | .package functions => functions.get? call.function.name
      | .component _ => none
    match function? with
    | none => some ⟨call.span, .unknownFunction call.qualifiedName⟩
    | some f => (arityProblem? call f).map fun p => ⟨call.span, p⟩

def resolveCall (c : Component) (r : Resolution) (call : Call) : Resolution :=
  let finding? := calleeFinding? r.symbols call
  let r := { r with symbols := r.symbols.useImport call.package.name }
  let r := r.reportAll finding?.toList
  call.arguments.foldl
    (readOperand c (fun id => .unknownArgument ("@" ++ id.name))
      (fun id => .unknownArgument id.name)) r

def resolveCondition (c : Component) (r : Resolution) (condition : Condition) : Resolution :=
  condition.terminals.foldl
    (readOperand c (fun id => .conditionState id.name)
        (fun id => .unknownConditionVariable id.name)) r

def unknownReturnedState (id : Ident) : Problem := .unknownReturnState ("@" ++ id.name)

def unknownReturnedName (id : Ident) : Problem := .unknownReturnVariable id.name

/-- A branch returns anything but an output. -/
def resolveBranchResult (c : Component) (r : Resolution) : BranchResult → Resolution
  | .unit _ => r
  | .value (.ident id) =>
    if c.outputs.contains id.name then r.report id.span (.outputReturned id.name)
    else readName c r id (unknownReturnedName id)
  | .value operand => readOperand c unknownReturnedState unknownReturnedName r operand

def resolveLetBinding (c : Component) (r : Resolution) (b : LetBinding) : Resolution :=
  assign c (resolveCall c r b.call) b.target

/-- Keeps the value of a command, after all that the command itself reads. -/
def assignTarget (c : Component) (target : Option Ident) (r : Resolution) : Resolution :=
  match target with
  | some id => assign c r id
  | none => r

def enterCommand (r : Resolution) (span : Span) : Resolution :=
  r.withTables fun t => { t with commandFrames := t.commandFrames.insert span t.scopes.current }

mutual

def resolveCommand (c : Component) : Command → Resolution → Resolution
  | .call target call span, r => assignTarget c target (resolveCall c (r.enterCommand span) call)
  | .letIn target bindings body span, r =>
    let r := bindings.foldl (resolveLetBinding c) (r.enterCommand span).pushFrame
    assignTarget c target (resolveCall c r body).popFrame
  | .branch target condition onTrue onFalse span, r =>
    let r := resolveCondition c (r.enterCommand span) condition
    let r := (resolveBlock c onTrue r.pushFrame).popFrame
    let r := (resolveBlock c onFalse r.pushFrame).popFrame
    assignTarget c target r
  | .failed span, r => r.enterCommand span

def resolveBlock (c : Component) : Block → Resolution → Resolution
  | .mk commands result _, r => resolveBranchResult c (resolveCommands c commands r) result

def resolveCommands (c : Component) : List Command → Resolution → Resolution
  | [], r => r
  | command :: commands, r => resolveCommands c commands (resolveCommand c command r)

end

/-- The returned names that are not outputs, each where it comes first; `seen` came before. -/
def resolveReturns (c : Component) (seen : List String) :
    List ReturnMapping → Resolution → Resolution
  | [], r => r
  | m :: ms, r =>
    let name := m.target.name
    let foreign := !c.outputs.contains name
    let r := r.reportIf (foreign && !seen.contains name) m.target.span (.unknownReturn name)
    let r := readOperand c unknownReturnedState unknownReturnedName r m.source
    resolveReturns c (if foreign then name :: seen else seen) ms r

/-- Every output is returned once, and nothing else. -/
def checkReturns (c : Component) (body : DoBlock) (r : Resolution) : Resolution :=
  let r := r.reportAll
    ((duplicates (body.returns.map ReturnMapping.target)).map fun id =>
      ⟨id.span, .duplicateReturn id.name⟩)
  let absent := c.outputs.names.filter fun output =>
    !body.returns.any fun m => m.target.name = output.name
  r.reportAll (absent.map fun output => ⟨body.returnSpan, .missingReturn output.name⟩)

def resolveLeaf (c : Component) (body : DoBlock) (r : Resolution) : Resolution :=
  resolveReturns c [] body.returns (checkReturns c body (resolveCommands c body.commands r))

end Resolution

def Program.resolve (p : Program) (file : String) (registry : Registry) (files : FileTree) :
    Resolution :=
  let c := p.component
  let r := p.imports.foldl (Resolution.addImport registry files c.isLeaf) (.start c)
  let r := (r.checkHeader c file).addDeclarations c.declarations
  let r := match c.definition with
    | .arrow expression => r.resolveArrow expression
    | .leaf body => r.resolveLeaf c body
  r.reportUnused

end PipelineLang
