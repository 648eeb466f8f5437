import PipelineLang.Dump.Outline
import PipelineLang.Program
import PipelineLang.Text.Quoted

/-! The outline of a program. -/

namespace PipelineLang

def Span.outline (s : Span) : Outline :=
  .atom (NumeralStyle.decimalDigits s.start ++ ".." ++ NumeralStyle.decimalDigits s.stop)

def Ident.outline (id : Ident) : Outline :=
  .record "Ident" [("name", .atom (Quoted.text id.name)), ("span", id.span.outline)]

def Constant.outline : Constant → Outline
  | integer n => .tagged "Integer" [.atom (NumeralStyle.integerText n)]
  | float x => .tagged "Float" [.atom (NumeralStyle.literal.text x)]
  | text s => .tagged "Str" [.atom (Quoted.text s)]
  | boolean b => .tagged "Bool" [.atom (if b then "true" else "false")]

def Literal.outline (l : Literal) : Outline :=
  .record "Literal" [("value", l.value.outline), ("span", l.span.outline)]

def Operand.outline : Operand → Outline
  | ident id => .tagged "Ident" [id.outline]
  | literal lit => .tagged "Literal" [lit.outline]
  | state id => .tagged "State" [id.outline]

/-- A mapping, under the name of the clause that it belongs to. -/
def Mapping.outline (name : String) (m : Mapping) : Outline :=
  .record name [("from", m.source.outline), ("to", m.target.outline), ("span", m.span.outline)]

def ConditionOp.outline : ConditionOp → Outline
  | or => .atom "Or"
  | and => .atom "And"
  | xor => .atom "Xor"
  | eq => .atom "Eq"
  | ne => .atom "Ne"
  | gt => .atom "Gt"
  | lt => .atom "Lt"
  | ge => .atom "Ge"
  | le => .atom "Le"

def Condition.outline : Condition → Outline
  | binary op left right span =>
    .record "Binary"
      [("op", op.outline), ("left", left.outline), ("right", right.outline), ("span", span.outline)]
  | paren inner span => .tagged "Paren" [inner.outline, span.outline]
  | terminal operand => .tagged "Terminal" [operand.outline]

def MergeSource.outline : MergeSource → Outline
  | top id => .tagged "Top" [id.outline]
  | bottom id => .tagged "Bottom" [id.outline]
  | literal lit => .tagged "Literal" [lit.outline]

def MergeMapping.outline (m : MergeMapping) : Outline :=
  .record "MergeMapping"
    [("source", m.source.outline), ("to", m.target.outline), ("span", m.span.outline)]

/-- An expression: its kind with its parts, and its place. -/
def Arrow.outline : Arrow → Outline
  | compose left right span => expr span (.tagged "Composition" [left.outline, right.outline])
  | pairUp left right span => expr span (.tagged "ParallelTuple" [left.outline, right.outline])
  | fanOut left right span => expr span (.tagged "ParallelScalar" [left.outline, right.outline])
  | first inner span => expr span (.tagged "First" [inner.outline])
  | second inner span => expr span (.tagged "Second" [inner.outline])
  | split span => expr span (.atom "Split")
  | merge entries span => expr span (.tagged "Merge" [.ofList MergeMapping.outline entries])
  | wire entries span => expr span (.tagged "Wire" [wires entries])
  | wirePair top bottom span => expr span (.tagged "WireTuple" [wires top, wires bottom])
  | choose condition onTrue onFalse span =>
    expr span (.record "If" [("condition", condition.outline), ("then_branch", onTrue.outline),
      ("else_branch", onFalse.outline)])
  | use component span => expr span (.tagged "Identifier" [component.outline])
  | paren inner span => expr span (.tagged "Paren" [inner.outline])
  | failed span => expr span (.atom "Error")
where
  expr (span : Span) (kind : Outline) : Outline :=
    .record "Expr" [("kind", kind), ("span", span.outline)]
  wires (entries : List Mapping) : Outline := .ofList (Mapping.outline "WireMapping") entries

def Call.outline (c : Call) : Outline :=
  .record "FunctionCall" [("package", c.package.outline), ("function", c.function.outline),
    ("args", .ofList Operand.outline c.arguments), ("span", c.span.outline)]

def LetBinding.outline (b : LetBinding) : Outline :=
  .record "LetBinding" [("target", b.target.outline), ("call", b.call.outline),
    ("span", b.span.outline)]

def BranchResult.outline : BranchResult → Outline
  | unit span => .tagged "Unit" [span.outline]
  | value operand => .tagged "Value" [operand.outline]

/-- A command: its target, its kind with its parts, and its place. -/
def commandOutline (target : Option Ident) (kind : Outline) (span : Span) : Outline :=
  .record "Command"
    [("target", .ofOption Ident.outline target), ("kind", kind), ("span", span.outline)]

mutual

def Command.outline : Command → Outline
  | .call target call span => commandOutline target (.tagged "Call" [call.outline]) span
  | .letIn target bindings body span =>
    commandOutline target
      (.record "Let" [("bindings", .ofList LetBinding.outline bindings), ("body", body.outline)])
        span
  | .branch target condition onTrue onFalse span =>
    commandOutline target
      (.record "If" [("condition", condition.outline), ("then_block", onTrue.outline),
        ("else_block", onFalse.outline)]) span
  | .failed span => commandOutline none (.atom "Error") span

def Block.outline : Block → Outline
  | .mk commands result span =>
    .record "Block" [("commands", .list (commandOutlines commands)), ("ret", result.outline),
      ("span", span.outline)]

def commandOutlines : List Command → List Outline
  | [] => []
  | command :: commands => command.outline :: commandOutlines commands

end

def ReturnMapping.outline (m : ReturnMapping) : Outline :=
  .record "ReturnMapping"
    [("to", m.target.outline), ("from", m.source.outline), ("span", m.span.outline)]

def DoBlock.outline (d : DoBlock) : Outline :=
  .record "DoBlock" [("commands", .list (commandOutlines d.commands)),
    ("returns", .ofList ReturnMapping.outline d.returns), ("return_span", d.returnSpan.outline),
    ("span", d.span.outline)]

def SignalClause.outline : SignalClause → Outline
  | flat names => .tagged "Flat" [.ofList Ident.outline names]
  | pair top bottom => .tagged "Tuple" [.ofList Ident.outline top, .ofList Ident.outline bottom]

def Declaration.outline (d : Declaration) : Outline :=
  .record "Declaration" [("name", d.name.outline), ("component", d.component.outline),
    ("with_clause", .ofOption (.ofList (Mapping.outline "ConfigMapping")) d.withClause),
    ("span", d.span.outline)]

def Definition.outline : Definition → Outline
  | arrow expression => .tagged "Arrow" [expression.outline]
  | leaf body => .tagged "Do" [body.outline]

def Component.outline (c : Component) : Outline :=
  .record "Component" [("name", c.name.outline), ("inputs", c.inputs.outline),
    ("outputs", c.outputs.outline), ("configuration", .ofList Ident.outline c.configuration),
    ("declarations", .ofList Declaration.outline c.declarations),
    ("definition", c.definition.outline), ("span", c.span.outline)]

def Import.outline (i : Import) : Outline :=
  .record "Import" [("module_path", i.path.outline), ("alias", i.localName.outline),
    ("span", i.span.outline)]

def Program.outline (p : Program) : Outline :=
  .record "Module" [("imports", .ofList Import.outline p.imports),
    ("component", p.component.outline), ("span", p.span.outline)]

end PipelineLang
