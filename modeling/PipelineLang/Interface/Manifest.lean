import PipelineLang.Interface.Signature
import PipelineLang.Json.Reader

/-! Manifests: interfaces of modules, written in JSON. -/

namespace PipelineLang

structure Manifest where
  components : Table String ComponentSignature
  packages : Table String FunctionPackage

namespace Manifest

/-- The fields of a record, given by name or as a list in their order. A list may be too short but
not too long, and no field may be given twice; other fields are passed over. -/
def record? (fields : List String) : Json → Option (String → Option Json)
  | .array items =>
    if items.length ≤ fields.length then
      some fun name => ((fields.zip items).find? fun f => f.1 = name).map Prod.snd
    else none
  | .object given =>
    if fields.all fun name => given.countP (fun f => f.1 = name) ≤ 1 then
      some fun name => (given.find? fun f => f.1 = name).map Prod.snd
    else none
  | _ => none

def string? : Json → Option String
  | .string s => some s
  | _ => none

def strings? : Json → Option (List String)
  | .array items => items.mapM string?
  | _ => none

/-- A list of names, or a list of two such lists. -/
def shape? (v : Json) : Option SignalShape :=
  match strings? v, v with
  | some names, _ => some (.flat names)
  | none, .array [top, bottom] => do return .pair (← strings? top) (← strings? bottom)
  | none, _ => none

/-- A field that may be missing or null. -/
def optionally {α : Type} (read : Json → Option α) : Option Json → Option (Option α)
  | none | some .null => some none
  | some v => (read v).map some

/-- A field with a value of its own when it is missing. -/
def withDefault {α : Type} (value : α) (read : Json → Option α) : Option Json → Option α
  | none => some value
  | some v => read v

def boolean? : Json → Option Bool
  | .boolean b => some b
  | _ => none

/-- A plain numeral below `2 ^ 64`. -/
def count? : Json → Option UInt64
  | .number numeral =>
    let digits := numeral.toList
    let n := digits.foldl (fun n d => 10 * n + (d.toNat - '0'.toNat)) 0
    if digits.all Char.isDigit && n < UInt64.size then some (.ofNat n) else none
  | _ => none

def component? (v : Json) : Option ComponentSignature := do
  let field ← record? ["inputs", "outputs", "configuration", "configure", "initialise"] v
  return {
    inputs := ← optionally shape? (field "inputs")
    outputs := ← optionally shape? (field "outputs")
    configuration := ← optionally strings? (field "configuration")
    configure := ← withDefault true boolean? (field "configure")
    initialise := ← withDefault true boolean? (field "initialise") }

def function? (v : Json) : Option FunctionSignature := do
  let field ← record? ["params", "defaults", "varargs", "keywords"] v
  return {
    params := ← strings? (← field "params")
    defaults := ← withDefault 0 count? (field "defaults")
    varargs := ← withDefault false boolean? (field "varargs")
    keywords := ← withDefault false boolean? (field "keywords") }

/-- An object with any keys; of a key that occurs again the last value counts. -/
def table? {α : Type} (read : Json → Option α) : Json → Option (Table String α)
  | .object fields => do
    let entries ← fields.mapM fun (k, v) => (read v).map fun a => (k, a)
    return .ofList entries
  | _ => none

def package? : Json → Option FunctionPackage := table? function?

def ofJson? (v : Json) : Option Manifest := do
  let field ← record? ["components", "packages"] v
  return {
    components := ← withDefault .empty (table? component?) (field "components")
    packages := ← withDefault .empty (table? package?) (field "packages") }

def read? (text : String) : Option Manifest := do ofJson? (← Json.read? text)

def stringsJson (names : List String) : Json := .array (names.map .string)

def shapeJson : SignalShape → Json
  | .flat names => stringsJson names
  | .pair top bottom => .array [stringsJson top, stringsJson bottom]

def componentJson (s : ComponentSignature) : Json := .object
  [("inputs", .ofOption shapeJson s.inputs),
   ("outputs", .ofOption shapeJson s.outputs),
   ("configuration", .ofOption stringsJson s.configuration),
   ("configure", .boolean s.configure),
   ("initialise", .boolean s.initialise)]

def functionJson (f : FunctionSignature) : Json := .object
  [("params", stringsJson f.params),
   ("defaults", .ofNat f.defaults.toNat),
   ("varargs", .boolean f.varargs),
   ("keywords", .boolean f.keywords)]

def tableJson {α : Type} (write : α → Json) (t : Table String α) : Json :=
  .object (t.entries.map fun (k, a) => (k, write a))

def toJson (m : Manifest) : Json := .object
  [("components", tableJson componentJson m.components),
   ("packages", tableJson (tableJson functionJson) m.packages)]

end Manifest

end PipelineLang
