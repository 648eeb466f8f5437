import PipelineLang.Arrow.Context

/-! Checking the types of an arrow expression against each other and against the declared ones. -/

namespace PipelineLang

namespace Arena

/-- Is there a node at or below `i` on which reading or resolution has failed? -/
def holdsFailure (a : Arena) (i : Nat) : Bool :=
  match a.node? i with
  | none => false
  | some node =>
    match node.kind with
    | .failed => true
    | .use _ => !node.types.isKnown
    | kind => kind.children.any fun c => if c < i then a.holdsFailure c else false
termination_by i

/-- Does a failure stand beside the node, or beside a node around it? -/
def failureAround (a : Arena) (i : Nat) : Bool :=
  match (a.node? i).bind ArrowNode.parent with
  | none => false
  | some p =>
    (a.children p).any (fun c => c != i && a.holdsFailure c)
      || (if i < p ∧ p < a.size then a.failureAround p else false)
termination_by a.size - i

/-- A finding when both types are known and differ. -/
def unequal (span : Span) (problem : SignalType → SignalType → Problem) :
    Option SignalType → Option SignalType → List Finding
  | some s, some t => if s = t then [] else [⟨span, problem s t⟩]
  | _, _ => []

/-- A condition reads configuration names, and names that flow into it. -/
def conditionFindings (s : Symbols) (inputs : Option SignalType) (c : Condition) : List Finding :=
  c.terminals.flatMap fun operand =>
    match operand with
    | .state id =>
      if s.hasConfiguration id.name then [] else [⟨id.span, .conditionState id.name⟩]
    | .ident id =>
      match inputs with
      | some type =>
        if type.allNames.contains id.name then [] else [⟨id.span, .conditionInput id.name⟩]
      | none => []
    | .literal _ => []

/-- What is wrong between a node and its children. -/
def agreementFindings (s : Symbols) (a : Arena) (node : ArrowNode) : List Finding :=
  match node.kind with
  | .compose l r => unequal node.span .incompatibleComposition (a.outputs l) (a.inputs r)
  | .fanOut l r => unequal node.span .incompatibleFanOut (a.inputs l) (a.inputs r)
  | .choose condition t e =>
    unequal node.span .mismatchedBranchInputs (a.inputs t) (a.inputs e)
      ++ unequal node.span .mismatchedBranchOutputs (a.outputs t) (a.outputs e)
      ++ conditionFindings s node.types.inputs condition
  | _ => []

def splitsPair (node : ArrowNode) : Option SignalType :=
  match node.kind, node.types.inputs with
  | .split, some (.pair t b) => some (.pair t b)
  | _, _ => none

/-- Is this where types cease to be known: its children have theirs, it has not, and no earlier
failure explains it? -/
def startsGap (a : Arena) (i : Nat) (node : ArrowNode) : Bool :=
  let explained := match node.kind with
    | .failed | .use _ => true
    | _ => false
  !node.types.isKnown && !explained && (node.kind.children.all a.isTyped) && !a.failureAround i

def nodeFindings (s : Symbols) (a : Arena) (nested : List Nat) (i : Nat) : List Finding :=
  match a.node? i with
  | none => []
  | some node =>
    match splitsPair node with
    | some got => [⟨node.span, .splitPair got⟩]
    | none =>
      agreementFindings s a node
        ++ if nested.contains i then [⟨node.span, .nestedPair⟩]
          else if a.startsGap i node then [⟨node.span, .untyped node.kind.describe⟩]
          else []

/-- The type of the whole expression if it does not differ from the declared one. -/
def agreed? (declared : SignalType) : Option SignalType → Option SignalType
  | some got => if got = declared then some got else none
  | none => none

/-- Types all that can be typed, checks it, and notes in the symbols how far the types of the whole
expression agree with the declared ones. -/
def analyze (a : Arena) (s : Symbols) : Arena × Symbols × List Finding :=
  let (a, nested) := a.derive s.declaredInputs
  let findings := (List.range a.size).flatMap (a.nodeFindings s nested)
  let span := ((a.node? a.root).map ArrowNode.span).getD default
  let inputs := a.inputs a.root
  let outputs := a.outputs a.root
  let rootFindings :=
    unequal span .mismatchedInputs (some s.declaredInputs) inputs
      ++ unequal span .mismatchedOutputs (some s.declaredOutputs) outputs
  (a, { s with
      inputs := agreed? s.declaredInputs inputs
      outputs := agreed? s.declaredOutputs outputs },
    findings ++ rootFindings)

end Arena

end PipelineLang
