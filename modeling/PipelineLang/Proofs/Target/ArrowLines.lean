import PipelineLang.Proofs.Leaf.Numbers
import PipelineLang.Proofs.Target.Module
import PipelineLang.Proofs.Target.Names

/-! The code of an arrow, line by line, with what its names stand for. A line uses nothing of the
function that it stands in but what was assigned before. -/

namespace PipelineLang

namespace Target

/-- What the code of arrows reads from the language and from the library that runs it. -/
inductive Support where
  | isInstance
  | identify
  | truth
  | infinity
  | notNumber
  | kleisliArrow
  | functionComponent
  | wire
  | splitWire
  | unsplitWire
  | ifComponent
  | trace
  | traceConstruction
deriving DecidableEq

def Support.text : Support → String
  | isInstance => "isinstance"
  | identify => "id"
  | truth => "bool"
  | infinity => "inf"
  | notNumber => "NaN"
  | kleisliArrow => "KleisliArrow"
  | functionComponent => "cons_function_component"
  | wire => "cons_wire"
  | splitWire => "cons_split_wire"
  | unsplitWire => "cons_unsplit_wire"
  | ifComponent => "cons_if_component"
  | trace => "____instr_component"
  | traceConstruction => "____instr_component_construction"

/-- What a name in the code of an arrow stands for. -/
inductive Referent where
  /-- The configuration that the function is called with. -/
  | config
  /-- The instance that a declaration makes. -/
  | component (declared : String)
  /-- The configuration of that instance. -/
  | configuration (declared : String)
  /-- The identity of that instance, by which it is traced. -/
  | identity (declared : String)
  | temporary (step : Nat)
  | imported (localName : String)
  | support (s : Support)
deriving DecidableEq

namespace Referent

def name : Referent → String
  | config => "config"
  | component d => d
  | configuration d => d ++ "_configuration"
  | identity d => d ++ "_id"
  | temporary step => numbered "tmp" step
  | imported localName => moduleName localName
  | support s => s.text

/-- What stands outside of the function. -/
def isGlobal : Referent → Bool
  | imported _ | support _ => true
  | _ => false

end Referent

/-- A part of a line: a name, with what it stands for, or other text. -/
inductive Fragment where
  | name (r : Referent)
  | text (s : String)

namespace Fragment

def code : Fragment → String
  | name r => r.name
  | text s => s

end Fragment

def codeOf : List Fragment → String
  | [] => ""
  | f :: fs => f.code ++ codeOf fs

def usesOf : List Fragment → List Referent
  | [] => []
  | .name r :: fs => r :: usesOf fs
  | .text _ :: fs => usesOf fs

inductive CodeLine where
  | blank
  | assign (target : Referent) (value : List Fragment)
  | run (fragments : List Fragment)

namespace CodeLine

def target? : CodeLine → Option Referent
  | assign target _ => some target
  | _ => none

def fragments : CodeLine → List Fragment
  | blank => []
  | assign _ value => value
  | run fragments => fragments

def uses (l : CodeLine) : List Referent := usesOf l.fragments

def statement : CodeLine → Statement
  | blank => .blank
  | assign target value => .line (target.name ++ (" = " ++ codeOf value))
  | run fragments => .line (codeOf fragments)

end CodeLine

def targets (lines : List CodeLine) : List Referent := lines.filterMap CodeLine.target?

def dictionaryFragments (entries : List (String × List Fragment)) : List Fragment :=
  .text "\x7b" :: ([Fragment.text ", "].intercalate
      (entries.map fun e => .text (quote e.1 ++ " : ") :: e.2)
    ++ [.text "\x7d"])

/-- Floats without digits are written as names. -/
def constantFragments : Constant → List Fragment
  | .float x =>
    if !x.isNumber then [.name (.support .notNumber)]
    else if x.isInfinite then [.text (if x.negative then "-" else ""), .name (.support .infinity)]
    else [.text (constant (.float x))]
  | value => [.text (constant value)]

/-- A dictionary that is not the configuration is the parameter of a function. -/
def sourceFragments : FieldSource → List Fragment
  | .key dict name =>
    [if dict = "config" then .name .config else .text dict, .text ("[" ++ quote name ++ "]")]
  | .constant value => constantFragments value

def fieldFragments (fields : List Field) : List (String × List Fragment) :=
  fields.map fun f => (f.1, sourceFragments f.2)

def settingFields (dict : String) (d : Declaration) : List Field :=
  d.settings.map fun m => (m.target.name, operandFrom dict m.source)

def traceFragments (id what : String) : List Fragment :=
  [.name (.support .functionComponent), .text "(lambda a, s: ", .name (.support .trace),
    .text ("('" ++ id ++ "', "),
   .name (.identity id), .text (", '" ++ what ++ "', a, s))")]

def tracingCode (id localName : String) (line : Nat) : List CodeLine :=
  [.assign (.identity id) [.name (.support .identify), .text "(", .name (.component id), .text ")"],
   .run [.name (.support .traceConstruction), .text ("('" ++ id ++ "', "), .name (.identity id),
     .text ", ", .name (.configuration id), .text ", ", .name (.imported localName),
     .text (".get_name(), " ++ NumeralStyle.decimalDigits line ++ ")")],
   .assign (.component id) (.text
       "((" :: (traceFragments id "starting" ++ (.text " >> " :: .name (.component id)
     :: .text ") >> " :: (traceFragments id "finishing" ++ [.text ")"]))))]

def stateCode (d : Declaration) : CodeLine :=
  .assign (.component d.name.name) (.text "((" :: .name (.support .functionComponent)
    :: .text "(lambda a, s: a, state_mutator = lambda s: "
    :: (dictionaryFragments (fieldFragments (settingFields "s" d) ++ [("____prev_", [.text "s"])])
      ++ [.text ")) >> ", .name (.component d.name.name), .text ") >> ",
        .name (.support .functionComponent),
        .text ("(lambda a, s: a, state_mutator = lambda s: " ++ lookup "s" "____prev_" ++ ")")]))

def instanceCode (instrument : Bool) (line : Nat) (d : Declaration) : List CodeLine :=
  let id := d.name.name
  let module := Fragment.name (.imported d.component.name)
  [.assign (.configuration id) (dictionaryFragments (fieldFragments (settingFields "config" d))),
   .assign (.component id) [module, .text ".initialise(", module, .text ".configure(",
     .name (.configuration id), .text "))"],
   .assign (.component id) [.name (.component id), .text " if ", .name (.support .isInstance),
     .text "(", .name (.component id), .text ", ", .name (.support .kleisliArrow), .text ") else ",
     .name (.support .functionComponent), .text "(", .name (.component id), .text ")"]]
    ++ (if instrument then tracingCode id d.component.name line else [])
    ++ (if d.settings.isEmpty then [] else [stateCode d])

def conditionFragments : Condition → List Fragment
  | .binary op left right _ =>
    if op = .xor then
      [.text "(", .name (.support .truth), .text "("] ++ conditionFragments left
        ++ [.text ") ^ ", .name (.support .truth), .text "("] ++ conditionFragments right ++
        [.text "))"]
    else
      [.text "("] ++ conditionFragments left ++ [.text (" " ++ opText op ++ " ")]
        ++ conditionFragments right ++ [.text ")"]
  | .paren inner _ => [.text "("] ++ conditionFragments inner ++ [.text ")"]
  | .terminal (.literal lit) => constantFragments lit.value
  | .terminal operand => [.text (arrowCondition (.terminal operand))]

def valueReferent : ArrowValue → Referent
  | .declared name => .component name
  | .temporary step => .temporary step

def wireFragments (entries : List Mapping) : List Fragment :=
  .name (.support .wire) :: .text
    "(lambda a, s: " :: (dictionaryFragments (fieldFragments (wireFields entries))
    ++ [.text ")"])

def stepFragments : ArrowStep → List Fragment
  | .compose left right => [.name (valueReferent left), .text " >> ", .name (valueReferent right)]
  | .pairUp left right => [.name (valueReferent left), .text " ** ", .name (valueReferent right)]
  | .fanOut left right => [.name (valueReferent left), .text " & ", .name (valueReferent right)]
  | .first inner => [.name (valueReferent inner), .text ".first()"]
  | .second inner => [.name (valueReferent inner), .text ".second()"]
  | .split => [.name (.support .splitWire), .text "()"]
  | .merge entries =>
    .name (.support .unsplitWire) :: .text "(lambda t, b: "
      :: (dictionaryFragments (fieldFragments (mergeFields entries)) ++ [.text ")"])
  | .wire entries => wireFragments entries
  | .wirePair top bottom => wireFragments top ++ .text " ** " :: wireFragments bottom
  | .choose condition onTrue onFalse =>
    .name (.support .ifComponent) :: .text "(lambda a, s: " :: (conditionFragments condition
      ++ [.text ", ", .name (valueReferent onTrue), .text ", ", .name (valueReferent onFalse),
        .text ")"])

def numberedStep (x : ArrowStep × Nat) : CodeLine := .assign (.temporary x.2) (stepFragments x.1)

def stepCodes (steps : List ArrowStep) : List CodeLine := steps.zipIdx.map numberedStep

def arrowLines (instrument : Bool) (lines : LineIndex) (ds : List Declaration)
    (program : ArrowProgram) :
    List CodeLine :=
  ds.flatMap (fun d => instanceCode instrument (lines.lineOf d.span.start) d) ++ [.blank] ++
    stepCodes program.steps
    ++ [.blank, .run [.text "return ", .name (valueReferent program.result)]]

theorem codeOf_append (fs gs : List Fragment) : codeOf (fs ++ gs) = codeOf fs ++ codeOf gs := by
  induction fs with
  | nil => simp [codeOf]
  | cons f fs ih => simp [codeOf, ih, String.append_assoc]

theorem codeOf_intercalate (separator : String) (fss : List (List Fragment)) :
    codeOf ([Fragment.text separator].intercalate fss) =
      separator.intercalate (fss.map codeOf) := by
  induction fss with
  | nil => rfl
  | cons fs fss ih =>
    cases fss with
    | nil => simp
    | cons gs fss =>
      rw [List.intercalate_cons_cons, List.map_cons, List.map_cons, String.intercalate_cons_cons,
        codeOf_append, codeOf_append, ih]
      simp [codeOf, Fragment.code]

theorem append_merge {a b c : String} (h : a ++ b = c) (s : String) : a ++ (b ++ s) = c ++ s := by
  rw [← String.append_assoc, h]

section Written

attribute [local simp] codeOf codeOf_append Fragment.code Referent.name Support.text
  String.append_assoc

theorem codeOf_dictionaryFragments (entries : List (String × List Fragment)) :
    codeOf (dictionaryFragments entries) = dictionary (entries.map fun e => (e.1, codeOf e.2)) := by
  simp [dictionaryFragments, codeOf_intercalate, dictionary, commaList, dictEntry,
    Function.comp_def]

theorem codeOf_constantFragments (value : Constant) :
    codeOf (constantFragments value) = constant value := by
  cases value with
  | float x =>
    cases hnumber : x.isNumber <;> cases hinfinite : x.isInfinite <;>
      simp [constantFragments, constant, NumeralStyle.text, hnumber, hinfinite]
  | integer | text | boolean => simp [constantFragments]

theorem codeOf_sourceFragments (f : FieldSource) : codeOf (sourceFragments f) = f.code := by
  cases f with
  | key dict name =>
    by_cases hdict : dict = "config" <;>
      simp only [sourceFragments, hdict, if_true, if_false, codeOf, Fragment.code, Referent.name,
        FieldSource.code, lookup, String.append_empty, String.append_assoc]
  | constant value => exact codeOf_constantFragments value

theorem entries_fieldFragments (fields : List Field) :
    (fieldFragments fields).map (fun e => (e.1, codeOf e.2)) = fieldEntries fields := by
  simp [fieldFragments, fieldEntries, codeOf_sourceFragments, Function.comp_def]

theorem valueCode_eq (v : ArrowValue) : valueCode v = (valueReferent v).name := by
  cases v with
  | declared name => rfl
  | temporary step => simp [valueCode, valueReferent, numbered]

theorem codeOf_conditionFragments (c : Condition) :
    codeOf (conditionFragments c) = arrowCondition c := by
  have hbool := append_merge (show "bool" ++ "(" = "bool(" by decide)
  have hopen := append_merge (show "(" ++ "bool(" = "(bool(" by decide)
  have hnext := append_merge (show ") ^ " ++ "bool(" = ") ^ bool(" by decide)
  induction c with
  | binary op left right span ihl ihr =>
    by_cases hop : op = .xor
    · simp [conditionFragments, arrowCondition, binary, hop, ihl, ihr, hbool, hopen, hnext]
    · simp [conditionFragments, arrowCondition, binary, hop, ihl, ihr]
  | paren inner span ih => simp [conditionFragments, arrowCondition, ih]
  | terminal operand =>
    cases operand with
    | literal lit => exact codeOf_constantFragments lit.value
    | ident | state => simp [conditionFragments]

theorem codeOf_wireFragments (entries : List Mapping) :
    codeOf (wireFragments entries) = wireCode entries := by
  have hwire := append_merge
    (show "cons_wire" ++ "(lambda a, s: " = "cons_wire(lambda a, s: " by decide)
  unfold wireFragments wireCode
  simp [hwire, codeOf_dictionaryFragments, entries_fieldFragments]

theorem codeOf_stepFragments (step : ArrowStep) : codeOf (stepFragments step) = stepCode step := by
  unfold stepFragments stepCode
  cases step with
  | compose left right | pairUp left right | fanOut left right | first inner | second inner =>
    simp [valueCode_eq]
  | split => simp
  | merge entries =>
    have hmerge := append_merge
      (show "cons_unsplit_wire" ++ "(lambda t, b: " = "cons_unsplit_wire(lambda t, b: " by decide)
    unfold mergeCode
    simp [hmerge, codeOf_dictionaryFragments, entries_fieldFragments]
  | wire entries => exact codeOf_wireFragments entries
  | wirePair top bottom => simp [codeOf_wireFragments]
  | choose condition onTrue onFalse =>
    have hif := append_merge
      (show "cons_if_component" ++ "(lambda a, s: " = "cons_if_component(lambda a, s: " by decide)
    simp [codeOf_conditionFragments, valueCode_eq, hif]

theorem codeOf_traceFragments (id what : String) : codeOf (traceFragments id what) =
    "cons_function_component(lambda a, s: ____instr_component('" ++ id ++ "', " ++ id ++ "_id, '"
      ++ what ++ "', a, s))" := by
  have hcomponent := append_merge
    (show "cons_function_component" ++ "(lambda a, s: " =
      "cons_function_component(lambda a, s: " by decide)
  have htrace := append_merge (show "cons_function_component(lambda a, s: " ++ "____instr_component"
    = "cons_function_component(lambda a, s: ____instr_component" by decide)
  have hquote := append_merge
    (show "cons_function_component(lambda a, s: ____instr_component" ++ "('"
    = "cons_function_component(lambda a, s: ____instr_component('" by decide)
  have hid := append_merge (show "_id" ++ ", '" = "_id, '" by decide)
  unfold traceFragments
  simp [hcomponent, htrace, hquote, hid]

theorem statement_tracingCode (id localName : String) (line : Nat) :
    (tracingCode id localName line).map CodeLine.statement =
      (tracingLines id localName line).map .line := by
  have hidentify := append_merge (show "_id" ++ " = " = "_id = " by decide)
  have hargument := append_merge (show "_id = " ++ "id" = "_id = id" by decide)
  have hopen := append_merge (show "_id = id" ++ "(" = "_id = id(" by decide)
  have hid := append_merge (show "_id" ++ ", " = "_id, " by decide)
  have hconfiguration := append_merge (show "_configuration" ++ ", " = "_configuration, " by decide)
  have hconstruction := append_merge
    (show "____instr_component_construction" ++ "('" =
      "____instr_component_construction('" by decide)
  have hassign := append_merge (show " = " ++ "((" = " = ((" by decide)
  have hstarting := append_merge
    (show "_id, 'starting', a, s))" ++ " >> " = "_id, 'starting', a, s)) >> " by decide)
  unfold tracingCode tracingLines
  simp [codeOf_traceFragments, CodeLine.statement, hidentify, hargument, hopen, hid, hconfiguration,
    hconstruction, hassign, hstarting]

theorem statement_stateCode (d : Declaration) : (stateCode d).statement = .line (stateLine d) := by
  have hassign := append_merge (show " = " ++ "((" = " = ((" by decide)
  have hopen := append_merge
    (show " = ((" ++ "cons_function_component" = " = ((cons_function_component" by decide)
  have hnext := append_merge
    (show ") >> " ++ "cons_function_component" = ") >> cons_function_component" by decide)
  have hfirst := append_merge
    (show " = ((cons_function_component" ++ "(lambda a, s: a, state_mutator = lambda s: "
    = " = ((cons_function_component(lambda a, s: a, state_mutator = lambda s: " by decide)
  have hsecond := append_merge
    (show ") >> cons_function_component" ++ "(lambda a, s: a, state_mutator = lambda s: "
    = ") >> cons_function_component(lambda a, s: a, state_mutator = lambda s: " by decide)
  unfold stateCode stateLine
  simp [CodeLine.statement, codeOf_dictionaryFragments, entries_fieldFragments, settingEntries,
    settingFields, hassign, hopen, hnext, hfirst, hsecond]

theorem statement_instanceCode (instrument : Bool) (line : Nat) (d : Declaration) :
    (instanceCode instrument line d).map CodeLine.statement =
      (declarationLines instrument line d d.component.name).map .line := by
  have htail : ((if d.settings.isEmpty then [] else [stateCode d]).map CodeLine.statement) =
      (if d.settings.isEmpty then [] else [stateLine d]).map .line := by
    cases d.settings.isEmpty <;> simp [statement_stateCode]
  have htracing : ((if instrument then tracingCode d.name.name d.component.name line else []).map
      CodeLine.statement) =
      (if instrument then tracingLines d.name.name d.component.name line else []).map .line := by
    cases instrument <;> simp [statement_tracingCode]
  have hconfiguration := append_merge
    (show "_configuration" ++ " = " = "_configuration = " by decide)
  have hif := append_merge (show " if " ++ "isinstance" = " if isinstance" by decide)
  have hinstance := append_merge (show " if isinstance" ++ "(" = " if isinstance(" by decide)
  have harrow := append_merge (show ", " ++ "KleisliArrow" = ", KleisliArrow" by decide)
  have helse := append_merge
    (show ", KleisliArrow" ++ ") else " = ", KleisliArrow) else " by decide)
  have hcomponent := append_merge
    (show ", KleisliArrow) else " ++ "cons_function_component"
      = ", KleisliArrow) else cons_function_component" by decide)
  have hopen := append_merge
    (show ", KleisliArrow) else cons_function_component" ++ "("
      = ", KleisliArrow) else cons_function_component(" by decide)
  unfold instanceCode declarationLines
  rw [List.map_append, List.map_append, htail, htracing, List.map_append, List.map_append]
  simp [CodeLine.statement, codeOf_dictionaryFragments, entries_fieldFragments, settingEntries,
    settingFields, hconfiguration, hif, hinstance, harrow, helse, hcomponent, hopen]

theorem statement_stepCodes (steps : List ArrowStep) :
    (stepCodes steps).map CodeLine.statement = stepStatements steps := by
  simp [stepCodes, numberedStep, stepStatements, CodeLine.statement, codeOf_stepFragments,
    valueCode_eq, valueReferent]

end Written

theorem eq_map_of_mapM {α β ε : Type} {f : α → Except ε β} {g : α → β} {xs : List α} {ys : List β}
    (hf : ∀ x ∈ xs, ∀ y, f x = .ok y → y = g x) (h : xs.mapM f = .ok ys) : ys = xs.map g := by
  induction xs generalizing ys with
  | nil =>
    cases h
    rfl
  | cons x xs ih =>
    rw [List.forall_mem_cons] at hf
    rw [List.mapM_cons] at h
    obtain ⟨y, hy, h⟩ := exists_of_bind_eq_ok h
    obtain ⟨ys', hys, h⟩ := exists_of_bind_eq_ok h
    cases h
    rw [hf.1 y hy, ih hf.2 hys, List.map_cons]

section Known

variable {s : Symbols} {ds : List Declaration}
  (hentries : ∀ d ∈ ds, ∃ entry, s.declaration? d.name.name = some entry ∧
    entry.importName = d.component.name ∧ entry.span = d.span)
include hentries

theorem map_fst_known : (known s ds).map Prod.fst = ds := by
  induction ds with
  | nil => rfl
  | cons d ds ih =>
    rw [List.forall_mem_cons] at hentries
    obtain ⟨⟨entry, hfound, -, hspan⟩, hrest⟩ := hentries
    have hcons : known s (d :: ds) = (d, entry) :: known s ds := by simp [known, hfound, hspan]
    rw [hcons, List.map_cons, ih hrest]

theorem importName_of_known {x : Declaration × DeclarationEntry} (hx : x ∈ known s ds) :
    x.2.importName = x.1.component.name := by
  obtain ⟨hd, hfound, -⟩ := mem_known.mp hx
  obtain ⟨entry, hentry, himport, -⟩ := hentries _ hd
  cases hfound.symm.trans hentry
  exact himport

theorem statements_of_arrowBody {c : Component} (hds : c.declarations = ds) {lines : LineIndex}
    {instrument : Bool} {a : Arena} {statements : List Statement} {n : Nat}
    (h : arrowBody c s lines instrument a = .ok (statements, n)) :
    ∃ program, ArrowProgram.ofArena (ds.map fun d => d.name.name) a = .ok program ∧
      statements = (arrowLines instrument lines ds program).map CodeLine.statement := by
  subst hds
  obtain ⟨instances, hinstances, h⟩ := exists_of_bind_eq_ok h
  obtain ⟨program, hprogram, h⟩ := exists_of_bind_eq_ok h
  cases h
  have hknown := map_fst_known hentries
  have hcode : ∀ x ∈ known s c.declarations, ∀ code,
      declarationCode s lines instrument x.1 x.2 = .ok code →
      code = declarationLines instrument (lines.lineOf x.1.span.start) x.1 x.1.component.name := by
    intro x hx code hok
    rw [declarationCode] at hok
    split at hok
    · rename_i i himport
      have hname : i.localName = x.2.importName := by simpa using List.find?_some himport
      cases hok
      rw [hname, importName_of_known hentries hx]
    · cases hok
  have hinstances := eq_map_of_mapM hcode hinstances
  have hlines : instances = c.declarations.map fun d =>
      declarationLines instrument (lines.lineOf d.span.start) d d.component.name := by
    rw [hinstances]
    nth_rewrite 2 [← hknown]
    rw [List.map_map]
    rfl
  have hdeclared : (known s c.declarations).map (fun x => x.1.name.name) =
      c.declarations.map fun d => d.name.name := by
    nth_rewrite 2 [← hknown]
    rw [List.map_map]
    rfl
  refine ⟨program, ?_, ?_⟩
  · rw [← hdeclared]
    exact hprogram
  · simp only [arrowLines, List.map_append, statement_stepCodes, List.map_flatMap,
      statement_instanceCode, hlines]
    simp [List.flatMap_def, List.map_flatten, Function.comp_def, CodeLine.statement, codeOf,
      Fragment.code, valueCode_eq]

end Known

end Target

end PipelineLang
