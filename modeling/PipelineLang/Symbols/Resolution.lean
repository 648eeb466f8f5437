import PipelineLang.Interface.Registry
import PipelineLang.Problem
import PipelineLang.Symbols

/-! Finding out what the names of a program stand for: imports, header and declarations. -/

namespace PipelineLang

/-- The symbols found so far, the problems met on the way, and the events to log. -/
structure Resolution where
  symbols : Symbols
  findings : List Finding
  log : List LogEvent

namespace Resolution

def report (r : Resolution) (span : Span) (problem : Problem) : Resolution :=
  { r with findings := r.findings ++ [⟨span, problem⟩] }

def reportAll (r : Resolution) (findings : List Finding) : Resolution :=
  { r with findings := r.findings ++ findings }

def reportIf (r : Resolution) (wrong : Bool) (span : Span) (problem : Problem) : Resolution :=
  if wrong then r.report span problem else r

def start (c : Component) : Resolution where
  symbols := {
    component := c.name.name
    imports := []
    declarations := []
    configuration := []
    tables := .empty
    declaredInputs := .ofClause c.inputs
    declaredOutputs := .ofClause c.outputs
    inputs := none
    outputs := none }
  findings := []
  log := []

/-- An imported component, with a problem for each entry point that its module lacks. -/
def componentImport (path : String) :
    Except InterfaceError ComponentSignature → ImportKind × List Problem
  | .error e => (.component .unavailable, [.importFailed path e])
  | .ok s => (.component (.ofSignature s), s.missing.map (.missingEntryPoint path))

/-- An imported package. Functions with named arguments cannot be called and are dropped. -/
def packageImport (path : String) :
    Except InterfaceError FunctionPackage → ImportKind × List Problem
  | .error e => (.package .empty, [.importFailed path e])
  | .ok package =>
    let (dropped, kept) := package.entries.partition fun (_, f) => f.keywords
    (.package (.ofList kept), dropped.map fun (name, _) => .droppedFunction name path)

/-- Adds an import under its local name, unless that is taken. -/
def addImport (registry : Registry) (files : FileTree) (isLeaf : Bool) (r : Resolution)
    (i : Import) :
    Resolution :=
  let localName := i.localName.name
  let path := i.path.name
  if (r.symbols.import? localName).isSome then r.report i.localName.span (.duplicateAlias localName)
  else
    let (events, kind, problems) :=
      if isLeaf then
        let (events, result) := registry.functions files path
        (events, packageImport path result)
      else
        let (events, result) := registry.component files path
        (events, componentImport path result)
    { symbols := { r.symbols with
        imports := r.symbols.imports ++ [⟨localName, path, i.span, kind, false⟩] }
      findings := r.findings ++ problems.map fun p => ⟨i.span, p⟩
      log := r.log ++ events ++ [.imported path localName] }

def duplicateFindings (clause : Clause) (ids : List Ident) : List Finding :=
  (duplicates ids).map fun id => ⟨id.span, .duplicateName clause id.name⟩

def clauseFindings (clause : Clause) : SignalClause → List Finding
  | .flat names => duplicateFindings clause names
  | .pair top bottom => duplicateFindings clause top ++ duplicateFindings clause bottom

def isPairClause : SignalClause → Bool
  | .flat _ => false
  | .pair _ _ => true

def addConfiguration (r : Resolution) (id : Ident) : Resolution :=
  if r.symbols.hasConfiguration id.name then r
  else
    { r with
      symbols := { r.symbols with
        configuration := r.symbols.configuration ++ [⟨id.name, id.span, false⟩] } }

/-- A component stands in a file of its name, leaf components have no pairs of signals, and no
clause has a name twice. -/
def checkHeader (c : Component) (file : String) (r : Resolution) : Resolution :=
  let r := r.reportIf (Path.stem file != c.name.name) c.name.span (.misnamedFile c.name.name)
  let r := r.reportIf (c.isLeaf && isPairClause c.inputs) c.span .inputPair
  let r := r.reportIf (c.isLeaf && isPairClause c.outputs) c.span .outputPair
  let r := r.reportAll (clauseFindings .input c.inputs)
  let r := r.reportAll (clauseFindings .output c.outputs)
  let r := r.reportAll (duplicateFindings .configuration c.configuration)
  let r := c.configuration.foldl addConfiguration r
  if c.isLeaf then
    { r with symbols := { r.symbols with
        inputs := some r.symbols.declaredInputs
        outputs := some r.symbols.declaredOutputs } }
  else r

/-- Marks a configuration name as used, or reports that there is none. -/
def useConfiguration (r : Resolution) (id : Ident) (unknown : Problem) : Resolution :=
  if r.symbols.hasConfiguration id.name then
    { r with symbols := r.symbols.useConfiguration id.name }
  else r.report id.span unknown

/-- Takes into account what a setting passes on: a configuration name of the component, or a
constant. -/
def useSource (r : Resolution) : Operand → Resolution
  | .ident id | .state id => r.useConfiguration id (.unknownConfiguration id.name)
  | .literal _ => r

/-- A setting stands under a configuration name of the instance's module. -/
def checkSetting (leaf : Option (LeafSignature × String)) (r : Resolution) (m : Mapping) :
    Resolution :=
  let r := r.useSource m.source
  match leaf with
  | some (signature, path) =>
    r.reportIf (signature.loaded && !signature.configuration.contains m.target.name) m.target.span
      (.foreignSetting m.target.name path)
  | none => r

/-- The configuration names that a with-clause leaves out. -/
def missingSettings (leaf : Option (LeafSignature × String)) (d : Declaration) : List String :=
  match d.withClause, leaf with
  | some settings, some (signature, _) =>
    signature.configuration.filter fun key => !settings.any fun m => m.target.name = key
  | _, _ => []

def componentOf? (s : Symbols) (localName : String) : Option (LeafSignature × String) :=
  match s.import? localName with
  | some ⟨_, path, _, .component signature, _⟩ => some (signature, path)
  | _ => none

/-- Marks what a declaration uses, and reports what is wrong with it. -/
def checkDeclaration (r : Resolution) (d : Declaration) : Resolution :=
  let localName := d.component.name
  let leaf := componentOf? r.symbols localName
  let r := { r with symbols := r.symbols.useImport localName }
  let r := r.reportIf leaf.isNone d.component.span (.unknownImport localName)
  let r := d.settings.foldl (checkSetting leaf) r
  let missing := missingSettings leaf d
  r.reportIf (!missing.isEmpty) d.span (.missingSettings d.name.name localName missing)

def addDeclaration (r : Resolution) (index : Nat) (d : Declaration) : Resolution :=
  let r := r.checkDeclaration d
  if (r.symbols.declaration? d.name.name).isSome then r
  else
    { r with symbols := { r.symbols with
        declarations :=
          r.symbols.declarations ++ [⟨d.name.name, d.component.name, index, d.span, false⟩] } }

def addDeclarations (ds : List Declaration) (r : Resolution) : Resolution :=
  let r := r.reportAll (duplicateFindings .component (ds.map Declaration.name))
  ds.zipIdx.foldl (fun r (d, index) => r.addDeclaration index d) r

def markState (r : Resolution) : Operand → Resolution
  | .state id => { r with symbols := r.symbols.useConfiguration id.name }
  | _ => r

/-- Marks what an arrow expression uses, and reports the components that it does not know. -/
def resolveArrow : Arrow → Resolution → Resolution
  | .compose left right _, r | .pairUp left right _, r | .fanOut left right _, r =>
    resolveArrow right (resolveArrow left r)
  | .first inner _, r | .second inner _, r | .paren inner _, r => resolveArrow inner r
  | .choose condition onTrue onFalse _, r =>
    resolveArrow onFalse (resolveArrow onTrue (condition.terminals.foldl markState r))
  | .use id _, r =>
    if (r.symbols.declaration? id.name).isSome then
      { r with symbols := r.symbols.useDeclaration id.name }
    else r.report id.span (.unknownComponent id.name)
  | .split _, r | .merge _ _, r | .wire _ _, r | .wirePair _ _ _, r | .failed _, r => r

def reportUnused (r : Resolution) : Resolution :=
  let s := r.symbols
  let r := r.reportAll
    ((s.imports.filter fun i => !i.used).map fun i => ⟨i.span, .unusedImport i.path⟩)
  let r := r.reportAll
    ((s.declarations.filter fun d => !d.used).map fun d => ⟨d.span, .unusedComponent d.name⟩)
  r.reportAll
    ((s.configuration.filter fun c => !c.used).map fun c => ⟨c.span, .unusedConfiguration c.name⟩)

end Resolution

end PipelineLang
