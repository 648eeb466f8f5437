import PipelineLang.Term

/-! Leaf bodies: commands that run in order and return the outputs. -/

namespace PipelineLang

/-- `package.function(arguments)` -/
structure Call where
  package : Ident
  function : Ident
  arguments : List Operand
  span : Span
deriving DecidableEq, Inhabited

namespace Call

def qualifiedName (c : Call) : String := c.package.name ++ "." ++ c.function.name

end Call

structure LetBinding where
  target : Ident
  call : Call
  span : Span
deriving DecidableEq, Inhabited

inductive BranchResult where
  | unit (span : Span)
  | value (operand : Operand)
deriving DecidableEq, Inhabited

mutual

/-- A command, with the name under which its value is kept, if any. -/
inductive Command where
  | call (target : Option Ident) (call : Call) (span : Span)
  | letIn (target : Option Ident) (bindings : List LetBinding) (body : Call) (span : Span)
  | branch (target : Option Ident) (condition : Condition) (onTrue onFalse : Block) (span : Span)
  /-- Stands where no command could be read. -/
  | failed (span : Span)

inductive Block where
  | mk (commands : List Command) (result : BranchResult) (span : Span)

end

namespace Command

def span : Command → Span
  | call _ _ span | letIn _ _ _ span | branch _ _ _ _ span | failed span => span

def target : Command → Option Ident
  | call target _ _ | letIn target _ _ _ | branch target _ _ _ _ => target
  | failed _ => none

end Command

namespace Block

def commands : Block → List Command
  | mk commands _ _ => commands

def result : Block → BranchResult
  | mk _ result _ => result

def span : Block → Span
  | mk _ _ span => span

end Block

/-- `target <- source`: the value of an output. -/
structure ReturnMapping where
  target : Ident
  source : Operand
  span : Span
deriving DecidableEq, Inhabited

structure DoBlock where
  commands : List Command
  returns : List ReturnMapping
  returnSpan : Span
  span : Span

end PipelineLang
