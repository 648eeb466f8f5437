import PipelineLang.Digest.Sha256
import PipelineLang.Log
import PipelineLang.Target.ArrowCode
import PipelineLang.Target.LeafCode

/-! The Python module of a component. -/

namespace PipelineLang

/-- Where a module comes from: digests of the program and of the interfaces that it was compiled
against, and the version of the compiler. -/
structure Provenance where
  source : Digest
  interfaces : Digest
  version : String
deriving DecidableEq

structure CodeOptions where
  instrument : Bool
  generatedAt : String
  provenance : Option Provenance
deriving DecidableEq

inductive Body where
  | arrow (arena : Arena)
  | leaf (body : LoweredLeaf)

namespace Target

def headerLines (o : CodeOptions) : List String :=
  let origin := match o.provenance with
    | some p =>
      ["# pclc " ++ p.version, "# source sha256 " ++ p.source.hex,
        "# signatures sha256 " ++ p.interfaces.hex,
       "#"]
    | none => []
  ["#", "# DO NOT EDIT THIS FILE!", "#", "# This file was automatically generated by PCLc on",
   "# " ++ o.generatedAt ++ ".", "#"] ++ origin

def supportImports : List String :=
  ["from pypeline.helpers.parallel_helpers import cons_function_component, cons_wire, "
     ++ "cons_dictionary_wire, cons_split_wire, cons_unsplit_wire, cons_if_component",
   "from pypeline.core.arrows.kleisli_arrow import KleisliArrow",
   "from pypeline.core.arrows.kleisli_arrow_choice import KleisliArrowChoice",
   "from pypeline.core.types.either import Left, Right",
   "from pypeline.core.types.state import return_"]

private def clockText : String :=
  "datetime.datetime.now().strftime('%x %X.%f'), threading.current_thread().name, get_name()"

def tracingFunctions : List String :=
  ["import sys, threading, datetime",
   "def ____instr_component(component_decl_id, component_id, event, a, s):",
   "  sys.stderr.write('%s: %s: Component %s is %s %s (id = %s) with input %s and state %s\\n' % ("
     ++ clockText ++ ", event, component_decl_id, component_id, a, "
     ++ "dict((skey, s[skey]) for skey in s.keys() if skey != '____prev_')))",
   "  return a",
   "def ____instr_component_construction(component_decl_id, component_id, component_config, "
     ++ "invoked_component, decl_line_no):",
   "  sys.stderr.write('%s: %s: Component %s is constructing %s (id = %s) with configuration %s "
     ++ "(%s instance declared at line %d)\\n' % (" ++ clockText
     ++ ", component_decl_id, component_id, component_config, invoked_component, decl_line_no))"]

def importLines (imports : List Import) : List String :=
  imports.map fun i => "import " ++ i.path.name ++ " as " ++ moduleName i.localName.name

/-- The functions by which other programs learn the interface of a component. -/
def interfaceFunctions (c : Component) (s : Symbols) : List Statement :=
  let keys := s.configuration.map ConfigurationEntry.name
  let returning (text : String) : List Statement := [.line ("return " ++ text)]
  Statement.function "get_name" [] (returning (quote c.name.name))
    ++ Statement.function "get_inputs" [] (returning (signalList c.inputs))
    ++ Statement.function "get_outputs" [] (returning (signalList c.outputs))
    ++ Statement.function "get_configuration" [] (returning (list keys))
    ++ Statement.function "configure" ["args"]
      (returning (dictionary (keys.map fun key => (key, lookup "args" key))))

end Target

structure Generated where
  text : String
  log : List LogEvent
deriving DecidableEq

namespace Target

def initialiseBody (c : Component) (s : Symbols) (body : Body) (lines : LineIndex)
    (instrument : Bool) :
    Except EmissionFault (List Statement × List LogEvent) :=
  match c.definition, body with
  | .arrow _, .arrow arena => do
    let (statements, steps) ← arrowBody c s lines instrument arena
    return (statements, [.temporaries steps])
  | .leaf _, .leaf leaf => .ok (leafBody instrument leaf, [])
  | _, _ => .error .definitionMismatch

end Target

open Target in
def Program.generate (p : Program) (s : Symbols) (body : Body) (lines : LineIndex)
    (o : CodeOptions) :
    Except EmissionFault Generated := do
  let (statements, log) ← initialiseBody p.component s body lines o.instrument
  let functions :=
    interfaceFunctions p.component s ++ Statement.function "initialise" ["config"] statements
  let all := headerLines o ++ supportImports ++ (if o.instrument then tracingFunctions else [])
    ++ importLines p.imports ++ ["", ""] ++ Statement.bodyLines 0 functions
  return ⟨String.join (all.map (· ++ "\n")), log⟩

end PipelineLang
