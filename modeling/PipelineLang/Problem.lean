import PipelineLang.Interface.Signature
import PipelineLang.Token.Munch

/-! Everything that can be wrong with a program, and how it is said. -/

namespace PipelineLang

/-- The clauses of a component in which a name may stand once. -/
inductive Clause where
  | input | output | configuration | component
deriving DecidableEq

namespace Clause

def text : Clause → String
  | input => "input"
  | output => "output"
  | configuration => "configuration"
  | component => "component"

end Clause

/-- The sides of a wire or merge on which a name may stand once. -/
inductive MappingSide where
  | mergeTop | mergeBottom | mergeOutput
  | wireInput | wireOutput
  | pairTopInput | pairTopOutput | pairBottomInput | pairBottomOutput
deriving DecidableEq

namespace MappingSide

def text : MappingSide → String
  | mergeTop => "merge top mapping contains duplicate identifier"
  | mergeBottom => "merge bottom mapping contains duplicate identifier"
  | mergeOutput => "merge output mapping contains duplicate identifier"
  | wireInput => "wire mapping contains duplicate input identifier"
  | wireOutput => "wire mapping contains duplicate output identifier"
  | pairTopInput => "tuple wire mapping contains duplicate top input identifier"
  | pairTopOutput => "tuple wire mapping contains duplicate top output identifier"
  | pairBottomInput => "tuple wire mapping contains duplicate bottom input identifier"
  | pairBottomOutput => "tuple wire mapping contains duplicate bottom output identifier"

end MappingSide

inductive LoweringFault where
  | failedCommand
  | neverBound (name : String)
  | unresolved (operand : String)
deriving DecidableEq

namespace LoweringFault

def message : LoweringFault → String
  | failedCommand => "erroneous command in do-block"
  | neverBound name => "variable " ++ name ++ " was never bound"
  | unresolved operand => "unresolved reference " ++ operand

end LoweringFault

inductive EmissionFault where
  | noValue (expression : String) (offset : Nat)
  | unknownImport (declaration localName : String)
  | definitionMismatch
deriving DecidableEq

namespace EmissionFault

def message : EmissionFault → String
  | noValue expression offset =>
    "no value generated for " ++ expression ++ " at offset " ++ NumeralStyle.decimalDigits offset
  | unknownImport declaration localName =>
    "declaration " ++ declaration ++ " refers to unknown import " ++ localName
  | definitionMismatch => "component body does not match its definition"

end EmissionFault

inductive GenerationFault where
  | lowering (fault : LoweringFault)
  | emission (fault : EmissionFault)
  | missingInputs (pass : String)
deriving DecidableEq

namespace GenerationFault

def message : GenerationFault → String
  | lowering fault => fault.message
  | emission fault => fault.message
  | missingInputs pass => "pass " ++ pass ++ " ran without its inputs"

end GenerationFault

inductive Problem where
  | lexical (fault : LexicalFault)
  | unexpected (text : String)
  | unexpectedEnd
  | misnamedFile (component : String)
  | duplicateName (clause : Clause) (name : String)
  | inputPair
  | outputPair
  | unknownComponent (name : String)
  | unknownImport (localName : String)
  | unknownConfiguration (name : String)
  | foreignSetting (name module : String)
  | missingSettings (component localName : String) (names : List String)
  | writtenInput (name : String)
  | writtenOutput (name : String)
  | reassigned (name : String)
  | unknownPackage (localName : String)
  | unknownFunction (name : String)
  | wrongArguments (function : String) (given expected : Nat)
  | tooFewArguments (function : String) (given least : Nat)
  | unknownArgument (operand : String)
  | unknownReturnState (operand : String)
  | outputReturned (name : String)
  | unknownReturnVariable (name : String)
  | duplicateReturn (name : String)
  | missingReturn (name : String)
  | unknownReturn (name : String)
  | unknownConditionVariable (name : String)
  | duplicateMapping (side : MappingSide) (name : String)
  | incompatibleComposition (expected got : SignalType)
  | incompatibleFanOut (left right : SignalType)
  | mismatchedBranchInputs (onTrue onFalse : SignalType)
  | mismatchedBranchOutputs (onTrue onFalse : SignalType)
  | conditionState (name : String)
  | conditionInput (name : String)
  | untyped (expression : String)
  | mismatchedInputs (declared got : SignalType)
  | mismatchedOutputs (declared got : SignalType)
  | splitPair (got : SignalType)
  | nestedPair
  | duplicateAlias (localName : String)
  | importFailed (module : String) (cause : InterfaceError)
  | missingEntryPoint (module function : String)
  | generation (fault : GenerationFault)
  | unusedImport (module : String)
  | unusedComponent (name : String)
  | unusedConfiguration (name : String)
  | droppedFunction (name module : String)
deriving DecidableEq

namespace Problem

def code : Problem → String
  | lexical _ => "E0001"
  | unexpected _ | unexpectedEnd => "E0002"
  | misnamedFile _ => "E0100"
  | duplicateName _ _ => "E0101"
  | inputPair | outputPair => "E0102"
  | unknownComponent _ => "E0103"
  | unknownImport _ => "E0104"
  | unknownConfiguration _ => "E0105"
  | foreignSetting _ _ => "E0106"
  | missingSettings _ _ _ => "E0107"
  | writtenInput _ => "E0110"
  | writtenOutput _ => "E0111"
  | reassigned _ => "E0112"
  | unknownPackage _ => "E0113"
  | unknownFunction _ => "E0114"
  | wrongArguments _ _ _ | tooFewArguments _ _ _ => "E0115"
  | unknownArgument _ => "E0116"
  | unknownReturnState _ => "E0117"
  | outputReturned _ => "E0118"
  | unknownReturnVariable _ => "E0119"
  | duplicateReturn _ => "E0120"
  | missingReturn _ => "E0121"
  | unknownReturn _ => "E0122"
  | unknownConditionVariable _ => "E0123"
  | duplicateMapping _ _ => "E0200"
  | incompatibleComposition _ _ => "E0201"
  | incompatibleFanOut _ _ => "E0202"
  | mismatchedBranchInputs _ _ | mismatchedBranchOutputs _ _ => "E0203"
  | conditionState _ => "E0204"
  | conditionInput _ => "E0205"
  | untyped _ => "E0206"
  | mismatchedInputs _ _ | mismatchedOutputs _ _ => "E0207"
  | splitPair _ => "E0208"
  | nestedPair => "E0209"
  | duplicateAlias _ => "E0300"
  | importFailed _ _ => "E0301"
  | missingEntryPoint _ _ => "E0302"
  | generation _ => "E0400"
  | unusedImport _ => "W0001"
  | unusedComponent _ => "W0002"
  | unusedConfiguration _ => "W0003"
  | droppedFunction _ _ => "W0004"

/-- Things that are not used, or cannot be, do not keep a program from being compiled. -/
def isError : Problem → Bool
  | unusedImport _ | unusedComponent _ | unusedConfiguration _ | droppedFunction _ _ => false
  | _ => true

private def number (n : Nat) : String := NumeralStyle.decimalDigits n

private def contrast (what left right : String) (a b : SignalType) : String :=
  what ++ ":\n\t" ++ left ++ " " ++ a.text ++ "\n\t" ++ right ++ " " ++ b.text

def message : Problem → String
  | lexical fault => fault.message
  | unexpected text => "parser failure at or near " ++ text
  | unexpectedEnd => "unexpected end of input"
  | misnamedFile name =>
    "component " ++ name ++ " should be declared in a file called " ++ name ++ ".pcl"
  | duplicateName clause name =>
    clause.text ++ " declaration contains duplicate identifier " ++ name
  | inputPair => "only one input is supported"
  | outputPair => "only one output is supported"
  | unknownComponent name => "unknown component " ++ name
  | unknownImport localName => "import not found in declaration of " ++ localName
  | unknownConfiguration name => "component configuration does not exist " ++ name
  | foreignSetting name module =>
    "configuration " ++ name ++ " used which is not defined in module " ++ module
  | missingSettings name localName keys =>
    "missing configuration in declaration of component " ++ name ++ " with alias " ++ localName
      ++ ": " ++ ", ".intercalate keys
  | writtenInput name => "attempt to write read-only input " ++ name
  | writtenOutput name => "attempt to write output " ++ name ++ " outside a return"
  | reassigned name => "duplicate assignment variable " ++ name
  | unknownPackage localName => "unknown function package alias " ++ localName
  | unknownFunction name => "unknown function " ++ name
  | wrongArguments function given expected =>
    "function " ++ function ++ " called with " ++ number given ++ " arguments, expected "
      ++ number expected
  | tooFewArguments function given least =>
    "function " ++ function ++ " called with " ++ number given ++ " arguments, expected at least "
      ++ number least
  | unknownArgument operand => "unknown function argument " ++ operand
  | unknownReturnState operand => "unknown configuration in return " ++ operand
  | outputReturned name => "output signal used in return " ++ name
  | unknownReturnVariable name => "unknown variable in return " ++ name
  | duplicateReturn name => "duplicate output in return " ++ name
  | missingReturn name => "defined output is missing in return " ++ name
  | unknownReturn name => "unknown output in return " ++ name
  | unknownConditionVariable name => "unknown variable in condition " ++ name
  | duplicateMapping side name => side.text ++ " " ++ name
  | incompatibleComposition expected got =>
    contrast "attempted composition with incompatible components" "expected" "got" expected got
  | incompatibleFanOut left right =>
    contrast "attempted fanout with incompatible components" "left =" "right =" left right
  | mismatchedBranchInputs t e =>
    contrast "if components have mismatched component inputs" "then =" "else =" t e
  | mismatchedBranchOutputs t e =>
    contrast "if components have mismatched component outputs" "then =" "else =" t e
  | conditionState name => "identifier " ++ name ++ " not defined in component configuration"
  | conditionInput name => "identifier " ++ name ++ " not defined in if inputs"
  | untyped expression => "unable to infer the type of " ++ expression
  | mismatchedInputs declared got =>
    contrast "component defines mismatched inputs" "expected" "got" declared got
  | mismatchedOutputs declared got =>
    contrast "component defines mismatched outputs" "expected" "got" declared got
  | splitPair got => "attempted split with tuple inputs:\n\tgot " ++ got.text
  | nestedPair => "tuple fanout of tuple signals is not supported"
  | duplicateAlias localName => "duplicate import alias found " ++ localName
  | importFailed module cause => "error importing module " ++ module ++ ": " ++ cause.message
  | missingEntryPoint module function =>
    "imported Python module " ++ module ++ " does not define " ++ function ++ " function"
  | generation fault => "Code generation failed: " ++ fault.message
  | unusedImport module => "imported component " ++ module ++ " is not used"
  | unusedComponent name => "component " ++ name ++ " is defined but not used"
  | unusedConfiguration name => "component configuration " ++ name ++ " is not used"
  | droppedFunction name module =>
    "dropping function " ++ name ++ " imported from module " ++ module
      ++ " since arguments are unsupported."

end Problem

structure Finding where
  span : Span
  problem : Problem
deriving DecidableEq

namespace Finding

def isError (f : Finding) : Bool := f.problem.isError

end Finding

end PipelineLang
