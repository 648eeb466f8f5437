import PipelineLang.Arrow

/-! What stands in the terms of a program, read off the syntax alone: the names of its operands, and
the operands of its conditions. The passes are compared with this and not with their own walks. -/

namespace PipelineLang

namespace Operand

/-- The identifier of an operand, unless it is a constant. -/
def ident? : Operand → Option Ident
  | ident id | state id => some id
  | literal _ => none

def name? (operand : Operand) : Option String := operand.ident?.map Ident.name

/-- The configuration name that is read by `@x`. -/
def state? : Operand → Option String
  | state id => some id.name
  | _ => none

end Operand

namespace MergeSource

def top? : MergeSource → Option Ident
  | top id => some id
  | _ => none

def bottom? : MergeSource → Option Ident
  | bottom id => some id
  | _ => none

def constant? : MergeSource → Option Constant
  | literal lit => some lit.value
  | _ => none

end MergeSource

namespace Condition

/-- The operands that occur in a condition, in the order of the text. -/
def operands : Condition → List Operand
  | binary _ left right _ => left.operands ++ right.operands
  | paren inner _ => inner.operands
  | terminal operand => [operand]

theorem terminals_eq (c : Condition) : c.terminals = c.operands := by
  induction c with
  | binary op left right span ihl ihr => rw [terminals, operands, ihl, ihr]
  | paren inner span ih => exact ih
  | terminal operand => rfl

def marks (c : Condition) : List Span := c.operands.map Operand.span

end Condition

end PipelineLang
