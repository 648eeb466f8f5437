import PipelineLang.Constant
import PipelineLang.Text.Span

/-! Names, constants and conditions as a program writes them. -/

namespace PipelineLang

structure Ident where
  name : String
  span : Span
deriving DecidableEq, Inhabited

structure Literal where
  value : Constant
  span : Span
deriving DecidableEq, Inhabited

inductive Operand where
  | ident (id : Ident)
  | literal (lit : Literal)
  /-- `@x`, a configuration name. -/
  | state (id : Ident)
deriving DecidableEq, Inhabited

namespace Operand

def span : Operand → Span
  | ident id => id.span
  | literal lit => lit.span
  | state id => id.span

def describe : Operand → String
  | ident id => id.name
  | literal lit => lit.value.describe
  | state id => "@" ++ id.name

end Operand

/-- `source -> target`: a name or constant that is passed on under a name. -/
structure Mapping where
  source : Operand
  target : Ident
  span : Span
deriving DecidableEq, Inhabited

inductive ConditionOp where
  | or | and | xor | eq | ne | gt | lt | ge | le
deriving DecidableEq

namespace ConditionOp

def text : ConditionOp → String
  | or => "or"
  | and => "and"
  | xor => "xor"
  | eq => "=="
  | ne => "!="
  | gt => ">"
  | lt => "<"
  | ge => ">="
  | le => "<="

end ConditionOp

inductive Condition where
  | binary (op : ConditionOp) (left right : Condition) (span : Span)
  | paren (inner : Condition) (span : Span)
  | terminal (operand : Operand)
deriving DecidableEq, Inhabited

namespace Condition

def span : Condition → Span
  | binary _ _ _ span => span
  | paren _ span => span
  | terminal operand => operand.span

/-- What the condition reads, from left to right. -/
def terminals : Condition → List Operand
  | binary _ left right _ => left.terminals ++ right.terminals
  | paren inner _ => inner.terminals
  | terminal operand => [operand]

end Condition

end PipelineLang
