import PipelineLang.Files.Tree
import PipelineLang.Signal

/-! What the modules that a program imports offer to it. -/

namespace PipelineLang

/-- The signals of a leaf component as its module lists them. -/
inductive SignalShape where
  | flat (names : List String)
  | pair (top bottom : List String)
deriving DecidableEq, Inhabited

namespace SignalShape

def toType : SignalShape → SignalType
  | flat names => .flat (.ofList names)
  | pair top bottom => .pair (.ofList top) (.ofList bottom)

end SignalShape

/-- The interface of a component module. What the module does not define is absent. -/
structure ComponentSignature where
  inputs : Option SignalShape
  outputs : Option SignalShape
  configuration : Option (List String)
  configure : Bool
  initialise : Bool
deriving DecidableEq, Inhabited

namespace ComponentSignature

def missing (s : ComponentSignature) : List String :=
  (if s.inputs.isNone then ["get_inputs"] else [])
    ++ (if s.outputs.isNone then ["get_outputs"] else [])
    ++ (if s.configuration.isNone then ["get_configuration"] else [])
    ++ (if s.configure then [] else ["configure"])
    ++ (if s.initialise then [] else ["initialise"])

end ComponentSignature

/-- The parameters of a function; the last `defaults` of them may be left out. -/
structure FunctionSignature where
  params : List String
  defaults : UInt64
  varargs : Bool
  keywords : Bool
deriving DecidableEq, Inhabited

namespace FunctionSignature

def leastArguments (f : FunctionSignature) : Nat := f.params.length - f.defaults.toNat

def isVariadic (f : FunctionSignature) : Bool := 0 < f.defaults || f.varargs

end FunctionSignature

abbrev FunctionPackage : Type := Table String FunctionSignature

inductive ScanFault where
  | noLiteral (function : String)
  | unsupported (function literal : String)
  | configurationPair
deriving DecidableEq

namespace ScanFault

def message : ScanFault → String
  | noLiteral function => function ++ " does not return a literal"
  | unsupported function literal => "unsupported return value in " ++ function ++ ": " ++ literal
  | configurationPair => "get_configuration must return a list"

end ScanFault

inductive InterfaceError where
  | unreadable (path : String) (cause : FileError)
  | badManifest (path : String)
  | scan (file : String) (line : Nat) (fault : ScanFault)
  | duplicate (module first second : String)
  | notFound (module : String)
deriving DecidableEq

namespace InterfaceError

def message : InterfaceError → String
  | unreadable path cause => path ++ ": " ++ cause.message
  | badManifest path => path ++ ": not a manifest"
  | scan file line fault =>
    file ++ ":" ++ NumeralStyle.decimalDigits line ++ ": " ++ fault.message
  | duplicate module first second =>
    "duplicate module '" ++ module ++ "': first defined in " ++ first ++ ", redefined in " ++ second
  | notFound module => "No module named " ++ module

end InterfaceError

end PipelineLang
