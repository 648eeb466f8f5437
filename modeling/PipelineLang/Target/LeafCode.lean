import PipelineLang.Leaf.Lowered
import PipelineLang.Target.Literal
import PipelineLang.Target.Statement

/-! Code for leaf components: one function for each command, called where the command runs. -/

namespace PipelineLang

namespace Target

def numbered (stem : String) (n : Nat) : String :=
  "____" ++ stem ++ "_" ++ NumeralStyle.decimalDigits n

def variableName (v : LocalVariable) : String := numbered v.name v.number

def commandName (n : Nat) : String := numbered "cmd" n

def letName (n : Nat) : String := numbered "let" n

def thenName (n : Nat) : String := numbered "then" n

def elseName (n : Nat) : String := numbered "else" n

def leafValue : LoweredValue → String
  | .input name => lookup "a" name
  | .bound v => variableName v
  | .state name => lookup "s" name
  | .constant value => constant value

def leafCondition : LoweredCondition → String
  | .binary op left right => binary op (leafCondition left) (leafCondition right)
  | .paren inner => "(" ++ leafCondition inner ++ ")"
  | .value v => leafValue v

def callCode (c : LoweredCall) : String :=
  moduleName c.package ++ "." ++ c.function ++ "(" ++ commaList (c.arguments.map leafValue) ++ ")"

def traceCode (shown function what value : String) : Statement :=
  .line ("____instr_component(" ++ shown ++ ", id(" ++ function ++ "), '" ++ what ++ "', " ++
      value ++ ", s)")

/-- Defines the function of a command and calls it, keeping its value if the command does. -/
def runCommand (instrument : Bool) (n : Nat) (target : Option LocalVariable)
    (body : List Statement) :
    List Statement :=
  let name := commandName n
  let trace := if instrument then [traceCode ("'" ++ name ++ "'") name "starting" "a"] else []
  let run := match target with
    | some v => variableName v ++ " = " ++ name ++ "()"
    | none => name ++ "()"
  [.define (name ++ "()") (trace ++ body), .line run]

mutual

def commandCode (instrument : Bool) : LoweredCommand → List Statement
  | .call n target call => runCommand instrument n target [.line ("return " ++ callCode call)]
  | .letIn n target bindings body =>
    let assignments := bindings.map fun (v, call) =>
      Statement.line (variableName v ++ " = " ++ callCode call)
    runCommand instrument n target
      [.define (letName n ++ "()") (assignments ++ [.line ("return " ++ callCode body)]),
       .line ("return " ++ letName n ++ "()")]
  | .branch n target condition onTrue onFalse =>
    runCommand instrument n target
      [.define (thenName n ++ "()") (blockCode instrument onTrue),
       .define (elseName n ++ "()") (blockCode instrument onFalse),
       .line ("return " ++ thenName n ++ "() if " ++ leafCondition condition ++ " else "
         ++ elseName n ++ "()")]

def blockCode (instrument : Bool) : LoweredBlock → List Statement
  | .mk commands result =>
    let returned := match result with
      | some v => leafValue v
      | none => "None"
    commandsCode instrument commands ++ [.line ("return " ++ returned)]

def commandsCode (instrument : Bool) : List LoweredCommand → List Statement
  | [] => []
  | command :: commands => commandCode instrument command ++ commandsCode instrument commands

end

def outputEntries (leaf : LoweredLeaf) : List DictEntry :=
  leaf.returns.map fun (name, v) => (name, leafValue v)

def leafBody (instrument : Bool) (leaf : LoweredLeaf) : List Statement :=
  let outputs := dictionary (outputEntries leaf)
  let trace := traceCode "get_name()" "____leaf"
  let body :=
    if instrument then
      [trace "starting" "a"] ++ commandsCode instrument leaf.commands
        ++ [.line ("____outputs = " ++ outputs), trace "finishing" "____outputs",
          .line "return ____outputs"]
    else commandsCode instrument leaf.commands ++ [.line ("return " ++ outputs)]
  [.define "____leaf(a, s)" body, .blank, .line "return ____leaf"]

end Target

end PipelineLang
