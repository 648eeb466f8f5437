import PipelineLang.Leaf.Lowered
import PipelineLang.Problem
import PipelineLang.Symbols

/-! Lowering leaf bodies by what their names were found to stand for. -/

namespace PipelineLang

structure LoweringError where
  span : Span
  fault : LoweringFault
deriving DecidableEq

namespace LeafTables

def lowerTarget (t : LeafTables) (target : Ident) : Except LoweringError LocalVariable :=
  match t.targets.get? target.span with
  | some number => .ok ⟨target.name, number⟩
  | none => .error ⟨target.span, .neverBound target.name⟩

def lowerName (t : LeafTables) (id : Ident) (shown : String) : Except LoweringError LoweredValue :=
  match t.references.get? id.span with
  | some .input => .ok (.input id.name)
  | some (.bound number) => .ok (.bound ⟨id.name, number⟩)
  | some .state => .ok (.state id.name)
  | some .literal | none => .error ⟨id.span, .unresolved shown⟩

def lowerOperand (t : LeafTables) : Operand → Except LoweringError LoweredValue
  | .literal lit => .ok (.constant lit.value)
  | .ident id => t.lowerName id id.name
  | .state id => t.lowerName id ("@" ++ id.name)

def lowerCall (t : LeafTables) (c : Call) : Except LoweringError LoweredCall := do
  return ⟨c.package.name, c.function.name, ← c.arguments.mapM t.lowerOperand⟩

def lowerCondition (t : LeafTables) : Condition → Except LoweringError LoweredCondition
  | .binary op left right _ => do
    return .binary op (← t.lowerCondition left) (← t.lowerCondition right)
  | .paren inner _ => do return .paren (← t.lowerCondition inner)
  | .terminal operand => do return .value (← t.lowerOperand operand)

def lowerBinding (t : LeafTables) (b : LetBinding) :
    Except LoweringError (LocalVariable × LoweredCall) := do
  let v ← t.lowerTarget b.target
  return (v, ← t.lowerCall b.call)

def lowerOptionalTarget (t : LeafTables) :
    Option Ident → Except LoweringError (Option LocalVariable)
  | some target => do return some (← t.lowerTarget target)
  | none => .ok none

def lowerResult (t : LeafTables) : BranchResult → Except LoweringError (Option LoweredValue)
  | .unit _ => .ok none
  | .value operand => do return some (← t.lowerOperand operand)

mutual

/-- Commands are numbered in the order in which they begin; the next number is returned along. -/
def lowerCommand (t : LeafTables) (number : Nat) :
    Command → Except LoweringError (LoweredCommand × Nat)
  | .call target call _ => do
    let call ← t.lowerCall call
    return (.call number (← t.lowerOptionalTarget target) call, number + 1)
  | .letIn target bindings body _ => do
    let bindings ← bindings.mapM t.lowerBinding
    let body ← t.lowerCall body
    return (.letIn number (← t.lowerOptionalTarget target) bindings body, number + 1)
  | .branch target condition onTrue onFalse _ => do
    let condition ← t.lowerCondition condition
    let (onTrue, next) ← t.lowerBlock (number + 1) onTrue
    let (onFalse, next) ← t.lowerBlock next onFalse
    return (.branch number (← t.lowerOptionalTarget target) condition onTrue onFalse, next)
  | .failed span => .error ⟨span, .failedCommand⟩

def lowerBlock (t : LeafTables) (number : Nat) : Block → Except LoweringError (LoweredBlock × Nat)
  | .mk commands result _ => do
    let (commands, next) ← t.lowerCommands number commands
    return (.mk commands (← t.lowerResult result), next)

def lowerCommands (t : LeafTables) (number : Nat) :
    List Command → Except LoweringError (List LoweredCommand × Nat)
  | [] => .ok ([], number)
  | command :: commands => do
    let (command, next) ← t.lowerCommand number command
    let (commands, next) ← t.lowerCommands next commands
    return (command :: commands, next)

end

end LeafTables

def DoBlock.lower (body : DoBlock) (t : LeafTables) : Except LoweringError LoweredLeaf := do
  let (commands, _) ← t.lowerCommands 0 body.commands
  let returns ← body.returns.mapM fun m => do return (m.target.name, ← t.lowerOperand m.source)
  return ⟨commands, returns⟩

end PipelineLang
