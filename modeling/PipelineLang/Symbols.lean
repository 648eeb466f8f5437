import PipelineLang.Interface.Signature
import PipelineLang.Scope

/-! The names of a program and what they stand for. -/

namespace PipelineLang

/-- The interface of an imported component. One that could not be loaded has no signals. -/
structure LeafSignature where
  inputs : SignalType
  outputs : SignalType
  configuration : List String
  loaded : Bool
deriving DecidableEq, Inhabited

namespace LeafSignature

def unavailable : LeafSignature := ⟨.noSignals, .noSignals, [], false⟩

/-- What a module does not define reads as empty. -/
def ofSignature (s : ComponentSignature) : LeafSignature where
  inputs := (s.inputs.map SignalShape.toType).getD .noSignals
  outputs := (s.outputs.map SignalShape.toType).getD .noSignals
  configuration := s.configuration.getD []
  loaded := true

end LeafSignature

/-- Arrow components import components, leaf components import functions. -/
inductive ImportKind where
  | component (leaf : LeafSignature)
  | package (functions : FunctionPackage)

structure ImportEntry where
  localName : String
  path : String
  span : Span
  kind : ImportKind
  used : Bool

structure DeclarationEntry where
  name : String
  importName : String
  index : Nat
  span : Span
  used : Bool
deriving DecidableEq

structure ConfigurationEntry where
  name : String
  span : Span
  used : Bool
deriving DecidableEq

inductive Reference where
  | input
  | bound (number : Nat)
  | state
  | literal
deriving DecidableEq

/-- The scopes of a leaf body, and how its commands and names stand in them, by their spans. -/
structure LeafTables where
  scopes : Scopes
  commandFrames : Table Span Nat
  targets : Table Span Nat
  references : Table Span Reference

namespace LeafTables

def empty : LeafTables := ⟨.root, .empty, .empty, .empty⟩

end LeafTables

/-- Entries stand in the order of the program; of a name that occurs again the first counts. -/
structure Symbols where
  component : String
  imports : List ImportEntry
  declarations : List DeclarationEntry
  configuration : List ConfigurationEntry
  tables : LeafTables
  declaredInputs : SignalType
  declaredOutputs : SignalType
  /-- The types of the definition, as far as they are known to agree with the declared ones. -/
  inputs : Option SignalType
  outputs : Option SignalType

namespace Symbols

def import? (s : Symbols) (localName : String) : Option ImportEntry :=
  s.imports.find? fun i => i.localName = localName

def declaration? (s : Symbols) (name : String) : Option DeclarationEntry :=
  s.declarations.find? fun d => d.name = name

/-- The interface of the component that a declaration makes an instance of. -/
def leafOf? (s : Symbols) (name : String) : Option LeafSignature := do
  let declaration ← s.declaration? name
  match (← s.import? declaration.importName).kind with
  | .component leaf => some leaf
  | .package _ => none

def hasConfiguration (s : Symbols) (name : String) : Bool :=
  s.configuration.any fun c => c.name = name

def useImport (s : Symbols) (localName : String) : Symbols :=
  { s with
    imports := s.imports.map fun i =>
      if i.localName = localName then { i with used := true } else i }

def useDeclaration (s : Symbols) (name : String) : Symbols :=
  { s with
    declarations := s.declarations.map fun d =>
      if d.name = name then { d with used := true } else d }

def useConfiguration (s : Symbols) (name : String) : Symbols :=
  { s with
    configuration :=
      s.configuration.map fun c => if c.name = name then { c with used := true } else c }

end Symbols

/-- The second occurrences of names that occur more than once; `seen` are the names before. -/
def duplicatesAfter (seen : List String) : List Ident → List Ident
  | [] => []
  | id :: ids =>
    let rest := duplicatesAfter (id.name :: seen) ids
    if seen.count id.name = 1 then id :: rest else rest

def duplicates (ids : List Ident) : List Ident := duplicatesAfter [] ids

end PipelineLang
