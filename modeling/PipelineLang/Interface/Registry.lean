import PipelineLang.Interface.Manifest
import PipelineLang.Interface.Scan
import PipelineLang.Log

/-! The interfaces that are known: those of manifests, and those of modules on the search path. -/

namespace PipelineLang

/-- Interfaces by module path, each with the place that it comes from, and the directories in which
further modules are looked for. -/
structure Registry where
  components : Table String (ComponentSignature × String)
  packages : Table String (FunctionPackage × String)
  searchPaths : List String

namespace Registry

def empty : Registry := ⟨.empty, .empty, []⟩

def withSearchPaths (paths : List String) : Registry := { empty with searchPaths := paths }

def insertComponent (r : Registry) (module : String) (s : ComponentSignature) : Registry :=
  { r with components := r.components.insert module (s, "<memory>") }

def insertPackage (r : Registry) (module : String) (p : FunctionPackage) : Registry :=
  { r with packages := r.packages.insert module (p, "<memory>") }

def size (r : Registry) : Nat := r.components.size + r.packages.size

/-- Inserts entries in turn up to the first whose key is taken; that one is reported. -/
def insertNew {α : Type} (origin : String) (t : Table String (α × String)) :
    List (String × α) → Table String (α × String) × Option InterfaceError
  | [] => (t, none)
  | (module, a) :: entries =>
    match t.get? module with
    | some (_, first) => (t, some (.duplicate module first origin))
    | none => insertNew origin (t.insert module (a, origin)) entries

/-- Adds the entries of a manifest, components first. Those before a duplicate stay. -/
def loadManifest (r : Registry) (m : Manifest) (origin : String) :
    Registry × Except InterfaceError Nat :=
  match insertNew origin r.components m.components.entries with
  | (components, some e) => ({ r with components }, .error e)
  | (components, none) =>
    match insertNew origin r.packages m.packages.entries with
    | (packages, some e) => ({ r with components, packages }, .error e)
    | (packages, none) =>
      ({ r with components, packages }, .ok (m.components.size + m.packages.size))

def loadText (r : Registry) (text origin : String) : Registry × Except InterfaceError Nat :=
  match Manifest.read? text with
  | none => (r, .error (.badManifest origin))
  | some m => r.loadManifest m origin

def loadFile (r : Registry) (files : FileTree) (path : String) :
    Registry × Except InterfaceError Nat :=
  match files.readText path with
  | .error cause => (r, .error (.unreadable path cause))
  | .ok text => r.loadText text path

def manifest (r : Registry) : Manifest :=
  ⟨r.components.mapValues Prod.fst, r.packages.mapValues Prod.fst⟩

/-- One text for all registries with the same entries. -/
def canonicalText (r : Registry) : String := r.manifest.toJson.compact

def prettyText (r : Registry) : String := r.manifest.toJson.pretty

/-- The files that a module may stand in: in each directory one with its name, and then the one that
makes a directory of that name a package. -/
def candidates (r : Registry) (module : String) : List String :=
  r.searchPaths.flatMap fun dir =>
    let path := Path.join dir (Path.ofDotted module)
    [Path.withExtension path "py", Path.join path "__init__.py"]

def locate (r : Registry) (files : FileTree) (module : String) : Option String :=
  (r.candidates module).find? files.isFile

def readModule (r : Registry) (files : FileTree) (module : String) :
    Except InterfaceError (String × String) :=
  match r.locate files module with
  | none => .error (.notFound module)
  | some path =>
    match files.readText path with
    | .ok text => .ok (text, path)
    | .error cause => .error (.unreadable path cause)

def component (r : Registry) (files : FileTree) (module : String) :
    List LogEvent × Except InterfaceError ComponentSignature :=
  match r.components.get? module with
  | some (s, _) => ([.componentKnown module], .ok s)
  | none =>
    match r.readModule files module with
    | .error e => ([], .error e)
    | .ok (text, path) => ([.componentScanned module path], ComponentSignature.scan text path)

def functions (r : Registry) (files : FileTree) (module : String) :
    List LogEvent × Except InterfaceError FunctionPackage :=
  match r.packages.get? module with
  | some (p, _) => ([.packageKnown module], .ok p)
  | none =>
    match r.readModule files module with
    | .error e => ([], .error e)
    | .ok (text, path) => ([.packageScanned module path], .ok (scanFunctions text))

end Registry

end PipelineLang
