import PipelineLang.Arrow.Inference
import PipelineLang.Target.ArrowProgram
import PipelineLang.Target.Literal
import PipelineLang.Target.Statement
import PipelineLang.Text.Lines

/-! Code for arrow components: instances of the declared components, joined step by step. -/

namespace PipelineLang

namespace Target

/-- What a condition of an arrow reads: names from the value `a`, configuration from the state
`s`. -/
def arrowCondition : Condition → String
  | .binary op left right _ => binary op (arrowCondition left) (arrowCondition right)
  | .paren inner _ => "(" ++ arrowCondition inner ++ ")"
  | .terminal (.state id) => lookup "s" id.name
  | .terminal (.ident id) => lookup "a" id.name
  | .terminal (.literal lit) => constant lit.value

/-- Where a generated dictionary takes a value from: a dictionary and a key of it, or a constant. -/
inductive FieldSource where
  | key (dict name : String)
  | constant (value : Constant)
deriving DecidableEq, Inhabited

def FieldSource.code : FieldSource → String
  | key dict name => lookup dict name
  | constant value => Target.constant value

abbrev Field : Type := String × FieldSource

def fieldEntries (fields : List Field) : List DictEntry := fields.map fun f => (f.1, f.2.code)

/-- The value of an operand, names being read from a dictionary. -/
def operandFrom (dict : String) : Operand → FieldSource
  | .ident id | .state id => .key dict id.name
  | .literal lit => .constant lit.value

def isKept (target : Ident) : Bool := target.name != discardName

def wireFields (entries : List Mapping) : List Field :=
  (entries.filter fun m => isKept m.target).map fun m => (m.target.name, operandFrom "a" m.source)

def wireCode (entries : List Mapping) : String :=
  "cons_wire(lambda a, s: " ++ dictionary (fieldEntries (wireFields entries)) ++ ")"

/-- Entries from the top half come first, then those from the bottom half, then constants. -/
def mergeFields (entries : List MergeMapping) : List Field :=
  let kept := entries.filter fun m => isKept m.target
  let top := kept.filterMap fun m =>
    match m.source with
    | .top id => some (m.target.name, .key "t" id.name)
    | _ => none
  let bottom := kept.filterMap fun m =>
    match m.source with
    | .bottom id => some (m.target.name, .key "b" id.name)
    | _ => none
  let constants := kept.filterMap fun m =>
    match m.source with
    | .literal lit => some (m.target.name, .constant lit.value)
    | _ => none
  top ++ bottom ++ constants

def mergeCode (entries : List MergeMapping) : String :=
  "cons_unsplit_wire(lambda t, b: " ++ dictionary (fieldEntries (mergeFields entries)) ++ ")"

def valueCode : ArrowValue → String
  | .declared name => name
  | .temporary step => "____tmp_" ++ NumeralStyle.decimalDigits step

def stepCode : ArrowStep → String
  | .compose left right => valueCode left ++ " >> " ++ valueCode right
  | .pairUp left right => valueCode left ++ " ** " ++ valueCode right
  | .fanOut left right => valueCode left ++ " & " ++ valueCode right
  | .first inner => valueCode inner ++ ".first()"
  | .second inner => valueCode inner ++ ".second()"
  | .split => "cons_split_wire()"
  | .merge entries => mergeCode entries
  | .wire entries => wireCode entries
  | .wirePair top bottom => wireCode top ++ " ** " ++ wireCode bottom
  | .choose condition onTrue onFalse =>
    "cons_if_component(lambda a, s: " ++ arrowCondition condition ++ ", " ++ valueCode onTrue
      ++ ", " ++ valueCode onFalse ++ ")"

def stepStatements (steps : List ArrowStep) : List Statement :=
  steps.zipIdx.map fun (step, i) => .line (valueCode (.temporary i) ++ " = " ++ stepCode step)

/-- Tells on the error channel when an instance starts and finishes. -/
def tracingLines (id localName : String) (line : Nat) : List String :=
  let event (what : String) : String :=
    "cons_function_component(lambda a, s: ____instr_component('" ++ id ++ "', " ++ id ++ "_id, '"
      ++ what ++ "', a, s))"
  [id ++ "_id = id(" ++ id ++ ")",
   "____instr_component_construction('" ++ id ++ "', " ++ id ++ "_id, " ++ id ++ "_configuration, "
     ++ moduleName localName ++ ".get_name(), " ++ NumeralStyle.decimalDigits line ++ ")",
   id ++ " = ((" ++ event "starting" ++ " >> " ++ id ++ ") >> " ++ event "finishing" ++ ")"]

def settingEntries (dict : String) (d : Declaration) : List DictEntry :=
  fieldEntries (d.settings.map fun m => (m.target.name, operandFrom dict m.source))

/-- Runs an instance with its settings as state, and gives the state back behind it. -/
def stateLine (d : Declaration) : String :=
  let id := d.name.name
  let entries := settingEntries "s" d ++ [("____prev_", "s")]
  id ++ " = ((cons_function_component(lambda a, s: a, state_mutator = lambda s: " ++
  dictionary entries
    ++ ")) >> " ++ id ++ ") >> cons_function_component(lambda a, s: a, state_mutator = lambda s: "
    ++ lookup "s" "____prev_" ++ ")"

/-- Makes an instance of the component that a declaration names. -/
def declarationLines (instrument : Bool) (line : Nat) (d : Declaration) (localName : String) :
    List String :=
  let id := d.name.name
  let module := moduleName localName
  [id ++ "_configuration = " ++ dictionary (settingEntries "config" d),
   id ++ " = " ++ module ++ ".initialise(" ++ module ++ ".configure(" ++ id ++ "_configuration))",
   id ++ " = " ++ id ++ " if isinstance(" ++ id ++ ", KleisliArrow) else cons_function_component("
     ++ id ++ ")"]
    ++ (if instrument then tracingLines id localName line else [])
    ++ (if d.settings.isEmpty then [] else [stateLine d])

/-- The declarations for which there are symbols: of several with one name, the first. -/
def known (s : Symbols) (ds : List Declaration) : List (Declaration × DeclarationEntry) :=
  ds.filterMap fun d =>
    match s.declaration? d.name.name with
    | some entry => if entry.span = d.span then some (d, entry) else none
    | none => none

def declarationCode (s : Symbols) (lines : LineIndex) (instrument : Bool)
    (d : Declaration) (entry : DeclarationEntry) : Except EmissionFault (List String) :=
  match s.import? entry.importName with
  | some i => .ok (declarationLines instrument (lines.lineOf d.span.start) d i.localName)
  | none => .error (.unknownImport entry.name entry.importName)

/-- The program of an expression over the declared components of `c`. -/
def arrowProgram (c : Component) (s : Symbols) (a : Arena) : Except EmissionFault ArrowProgram :=
  ArrowProgram.ofArena ((known s c.declarations).map fun (d, _) => d.name.name) a

def arrowBody (c : Component) (s : Symbols) (lines : LineIndex) (instrument : Bool) (a : Arena) :
    Except EmissionFault (List Statement × Nat) := do
  let instances ← (known s c.declarations).mapM fun (d, entry) =>
    declarationCode s lines instrument d entry
  let program ← arrowProgram c s a
  return (instances.flatten.map .line ++ [.blank] ++ stepStatements program.steps
      ++ [.blank, .line ("return " ++ valueCode program.result)],
    program.steps.length)

end Target

end PipelineLang
