import PipelineLang.Leaf

/-! Leaf bodies in which every name says what it reads, and every command has a number. -/

namespace PipelineLang

/-- A variable of a leaf body. The number tells apart variables of one name. -/
structure LocalVariable where
  name : String
  number : Nat
deriving DecidableEq, Inhabited

inductive LoweredValue where
  | input (name : String)
  | bound (v : LocalVariable)
  | state (name : String)
  | constant (value : Constant)
deriving DecidableEq, Inhabited

structure LoweredCall where
  package : String
  function : String
  arguments : List LoweredValue
deriving DecidableEq, Inhabited

inductive LoweredCondition where
  | binary (op : ConditionOp) (left right : LoweredCondition)
  | paren (inner : LoweredCondition)
  | value (v : LoweredValue)
deriving DecidableEq, Inhabited

mutual

inductive LoweredCommand where
  | call (number : Nat) (target : Option LocalVariable) (call : LoweredCall)
  | letIn (number : Nat) (target : Option LocalVariable)
    (bindings : List (LocalVariable × LoweredCall)) (body : LoweredCall)
  | branch (number : Nat) (target : Option LocalVariable) (condition : LoweredCondition)
    (onTrue onFalse : LoweredBlock)

inductive LoweredBlock where
  | mk (commands : List LoweredCommand) (result : Option LoweredValue)

end

structure LoweredLeaf where
  commands : List LoweredCommand
  returns : List (String × LoweredValue)

namespace LocalVariable

def describe (v : LocalVariable) : String := v.name ++ "%" ++ NumeralStyle.decimalDigits v.number

end LocalVariable

namespace LoweredValue

def describe : LoweredValue → String
  | input name => "in:" ++ name
  | bound v => v.describe
  | state name => "@" ++ name
  | constant value => value.describe

end LoweredValue

namespace LoweredCall

def describe (c : LoweredCall) : String :=
  c.package ++ "." ++ c.function ++ "("
    ++ ", ".intercalate (c.arguments.map LoweredValue.describe) ++ ")"

end LoweredCall

namespace LoweredCondition

def describe : LoweredCondition → String
  | binary op left right => left.describe ++ " " ++ op.text ++ " " ++ right.describe
  | paren inner => "(" ++ inner.describe ++ ")"
  | value v => v.describe

end LoweredCondition

private def margin (depth : Nat) : String := String.ofList (List.replicate (2 * depth) ' ')

private def commandLabel (depth number : Nat) (target : Option LocalVariable) : String :=
  margin depth ++ "#" ++ NumeralStyle.decimalDigits number ++ " "
    ++ match target with
      | some v => v.describe ++ " <- "
      | none => ""

mutual

def LoweredCommand.lines (depth : Nat) : LoweredCommand → List String
  | .call number target call => [commandLabel depth number target ++ call.describe]
  | .letIn number target bindings body =>
    [commandLabel depth number target ++ "let"]
      ++ bindings.map (fun (v, call) =>
        margin depth ++ "    " ++ v.describe ++ " <- " ++ call.describe)
      ++ [margin depth ++ "  in " ++ body.describe]
  | .branch number target condition onTrue onFalse =>
    [commandLabel depth number target ++ "if " ++ condition.describe, margin depth ++ "then"]
      ++ onTrue.lines depth ++ [margin depth ++ "else"] ++ onFalse.lines depth

def LoweredBlock.lines (depth : Nat) : LoweredBlock → List String
  | .mk commands result =>
    let returned := match result with
      | some v => v.describe
      | none => "()"
    commandsLines (depth + 1) commands ++ [margin depth ++ "  return " ++ returned]

def commandsLines (depth : Nat) : List LoweredCommand → List String
  | [] => []
  | command :: commands => command.lines depth ++ commandsLines depth commands

end

namespace LoweredLeaf

def lines (leaf : LoweredLeaf) : List String :=
  let returned := leaf.returns.map fun (name, v) => name ++ " <- " ++ v.describe
  ["leaf \x7b"] ++ commandsLines 1 leaf.commands
    ++ ["  return " ++ ", ".intercalate returned, "\x7d"]

def text (leaf : LoweredLeaf) : String := String.join (leaf.lines.map (· ++ "\n"))

end LoweredLeaf

end PipelineLang
