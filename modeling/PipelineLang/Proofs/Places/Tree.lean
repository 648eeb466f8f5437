import PipelineLang.Program
import PipelineLang.Proofs.Leaf.Body
import PipelineLang.Proofs.Token.Coverage

/-!
Programs as trees of places. Each node has the place of a piece of syntax, with a name if it is an
identifier; under it stand its parts in the order of the text. A tree is faithful to a source if
names are what is written at their places, and parts stand inside of their whole, one behind the
other.
-/

namespace PipelineLang

inductive SyntaxTree where
  | node (span : Span) (name : Option String) (parts : List SyntaxTree)

namespace SyntaxTree

def span : SyntaxTree → Span
  | node span _ _ => span

mutual

/-- The places of the nodes without parts. -/
def leaves : SyntaxTree → List Span
  | node span _ [] => [span]
  | node _ _ (part :: parts) => part.leaves ++ leavesOf parts

def leavesOf : List SyntaxTree → List Span
  | [] => []
  | tree :: trees => tree.leaves ++ leavesOf trees

end

inductive Faithful (source : String) : SyntaxTree → Prop where
  | node {span : Span} {name : Option String} {parts : List SyntaxTree} :
      span.start < span.stop →
      (∀ word ∈ name, ∃ before after, span.Cuts source.toList before word.toList after) →
      (∀ part ∈ parts, span.start ≤ part.span.start ∧ part.span.stop ≤ span.stop) →
      (parts.Pairwise fun a b => a.span.stop ≤ b.span.start) →
      (∀ part ∈ parts, part.Faithful source) → Faithful source (node span name parts)

end SyntaxTree

def Ident.tree (id : Ident) : SyntaxTree := .node id.span id.name []

def Literal.tree (lit : Literal) : SyntaxTree := .node lit.span none []

def Operand.tree : Operand → SyntaxTree
  | ident id => id.tree
  | literal lit => lit.tree
  | state id => id.tree

def Mapping.tree (m : Mapping) : SyntaxTree := .node m.span none [m.source.tree, m.target.tree]

def Condition.tree : Condition → SyntaxTree
  | binary _ left right span => .node span none [left.tree, right.tree]
  | paren inner span => .node span none [inner.tree]
  | terminal operand => operand.tree

def MergeSource.tree : MergeSource → SyntaxTree
  | top id => id.tree
  | bottom id => id.tree
  | literal lit => lit.tree

def MergeMapping.tree (m : MergeMapping) : SyntaxTree :=
  .node m.span none [m.source.tree, m.target.tree]

def Arrow.tree : Arrow → SyntaxTree
  | compose left right span => .node span none [left.tree, right.tree]
  | pairUp left right span => .node span none [left.tree, right.tree]
  | fanOut left right span => .node span none [left.tree, right.tree]
  | first inner span => .node span none [inner.tree]
  | second inner span => .node span none [inner.tree]
  | split span => .node span none []
  | merge entries span => .node span none (entries.map MergeMapping.tree)
  | wire entries span => .node span none (entries.map Mapping.tree)
  | wirePair top bottom span => .node span none (top.map Mapping.tree ++ bottom.map Mapping.tree)
  | choose condition onTrue onFalse span =>
    .node span none [condition.tree, onTrue.tree, onFalse.tree]
  | use component span => .node span none [component.tree]
  | paren inner span => .node span none [inner.tree]
  | failed span => .node span none []

def Call.tree (c : Call) : SyntaxTree :=
  .node c.span none (c.package.tree :: c.function.tree :: c.arguments.map Operand.tree)

def LetBinding.tree (b : LetBinding) : SyntaxTree := .node b.span none [b.target.tree, b.call.tree]

def BranchResult.tree : BranchResult → SyntaxTree
  | unit span => .node span none []
  | value operand => operand.tree

def targetTrees (target : Option Ident) : List SyntaxTree := (target.map Ident.tree).toList

mutual

def Command.tree : Command → SyntaxTree
  | .call target call span => .node span none (targetTrees target ++ [call.tree])
  | .letIn target bindings body span =>
    .node span none (targetTrees target ++ (bindings.map LetBinding.tree ++ [body.tree]))
  | .branch target condition onTrue onFalse span =>
    .node span none (targetTrees target ++ [condition.tree, onTrue.tree, onFalse.tree])
  | .failed span => .node span none []

def Block.tree : Block → SyntaxTree
  | .mk commands result span => .node span none (commandTrees commands ++ [result.tree])

def commandTrees : List Command → List SyntaxTree
  | [] => []
  | command :: commands => command.tree :: commandTrees commands

end

def ReturnMapping.tree (m : ReturnMapping) : SyntaxTree :=
  .node m.span none [m.target.tree, m.source.tree]

/-- The word before the returned values has a place of its own. -/
def DoBlock.tree (b : DoBlock) : SyntaxTree :=
  .node b.span none (commandTrees b.commands ++ .node b.returnSpan none [] :: b.returns.map
      ReturnMapping.tree)

def SignalClause.trees (clause : SignalClause) : List SyntaxTree := clause.names.map Ident.tree

def Declaration.tree (d : Declaration) : SyntaxTree :=
  .node d.span none (d.name.tree :: d.component.tree :: d.settings.map Mapping.tree)

def Definition.tree : Definition → SyntaxTree
  | arrow expression => expression.tree
  | leaf body => body.tree

def Component.tree (c : Component) : SyntaxTree :=
  .node c.span none (c.name.tree :: (c.inputs.trees ++
      (c.outputs.trees ++ (c.configuration.map Ident.tree ++
    (c.declarations.map Declaration.tree ++ [c.definition.tree])))))

def Import.tree (i : Import) : SyntaxTree := .node i.span none [i.path.tree, i.localName.tree]

def Program.tree (p : Program) : SyntaxTree :=
  .node p.span none (p.imports.map Import.tree ++ [p.component.tree])

theorem commandTrees_eq_map (commands : List Command) :
    commandTrees commands = commands.map Command.tree := by
  induction commands with
  | nil => rfl
  | cons command commands ih => rw [commandTrees, ih, List.map_cons]

/-- Faithful trees one behind the other, between two places. -/
structure Stand (source : String) (lo hi : Nat) (trees : List SyntaxTree) : Prop where
  inside : ∀ tree ∈ trees, lo ≤ tree.span.start ∧ tree.span.stop ≤ hi
  ordered : trees.Pairwise fun a b => a.span.stop ≤ b.span.start
  faithful : ∀ tree ∈ trees, tree.Faithful source

section Stand

variable {source : String} {lo hi lo' hi' : Nat} {trees trees' : List SyntaxTree}
  {tree : SyntaxTree}

theorem SyntaxTree.Faithful.start_lt_stop (h : tree.Faithful source) :
    tree.span.start < tree.span.stop := by
  cases h with
  | node hspan => exact hspan

theorem SyntaxTree.Faithful.stand {span : Span} {name : Option String}
    (h : (SyntaxTree.node span name trees).Faithful source) :
    Stand source span.start span.stop trees := by
  cases h with
  | node _ _ hinside hordered hparts => exact ⟨hinside, hordered, hparts⟩

theorem stand_nil : Stand source lo hi [] where
  inside := fun _ h => absurd h List.not_mem_nil
  ordered := .nil
  faithful := fun _ h => absurd h List.not_mem_nil

theorem Stand.mono (h : Stand source lo hi trees) (hlo : lo' ≤ lo) (hhi : hi ≤ hi') :
    Stand source lo' hi' trees where
  inside := fun t ht => ⟨Nat.le_trans hlo (h.inside t ht).1, Nat.le_trans (h.inside t ht).2 hhi⟩
  ordered := h.ordered
  faithful := h.faithful

theorem Stand.append {mid mid' : Nat} (h : Stand source lo mid trees)
    (h' : Stand source mid' hi trees') (hmid : mid ≤ mid') (hlo : lo ≤ mid') (hhi : mid ≤ hi) :
    Stand source lo hi (trees ++ trees') where
  inside := by
    intro t ht
    rcases List.mem_append.mp ht with ht | ht
    · have hin := h.inside t ht
      omega
    · have hin := h'.inside t ht
      omega
  ordered := by
    refine List.pairwise_append.mpr ⟨h.ordered, h'.ordered, fun a ha b hb => ?_⟩
    have hina := h.inside a ha
    have hinb := h'.inside b hb
    omega
  faithful := fun t ht => (List.mem_append.mp ht).elim (h.faithful t) (h'.faithful t)

theorem stand_singleton (h : tree.Faithful source) (hlo : lo ≤ tree.span.start)
    (hhi : tree.span.stop ≤ hi) :
    Stand source lo hi [tree] where
  inside := fun t ht => by
    rw [List.mem_singleton.mp ht]
    exact ⟨hlo, hhi⟩
  ordered := List.pairwise_singleton _ _
  faithful := fun t ht => by
    rw [List.mem_singleton.mp ht]
    exact h

theorem Stand.named {span : Span} {name : Option String}
    (h : Stand source span.start span.stop trees) (hlt : span.start < span.stop)
    (hname : ∀ word ∈ name, ∃ before after, span.Cuts source.toList before word.toList after) :
    Stand source span.start span.stop [.node span name trees] :=
  stand_singleton (.node hlt hname h.inside h.ordered h.faithful) (Nat.le_refl _) (Nat.le_refl _)

theorem Stand.node (h : Stand source lo hi trees) (hlt : lo < hi) :
    Stand source lo hi [.node ⟨lo, hi⟩ none trees] := by
  have hrow : Stand source (Span.mk lo hi).start (Span.mk lo hi).stop trees := h
  exact hrow.named hlt fun _ hword => absurd hword (Option.not_mem_none _)

theorem Stand.left (h : Stand source lo hi (trees ++ trees')) : Stand source lo hi trees where
  inside := fun t ht => h.inside t (List.mem_append_left _ ht)
  ordered := (List.pairwise_append.mp h.ordered).1
  faithful := fun t ht => h.faithful t (List.mem_append_left _ ht)

theorem Stand.right (h : Stand source lo hi (trees ++ trees')) : Stand source lo hi trees' where
  inside := fun t ht => h.inside t (List.mem_append_right _ ht)
  ordered := (List.pairwise_append.mp h.ordered).2.1
  faithful := fun t ht => h.faithful t (List.mem_append_right _ ht)

theorem Stand.head (h : Stand source lo hi (tree :: trees)) : tree.Faithful source :=
  h.faithful tree List.mem_cons_self

theorem Stand.tail (h : Stand source lo hi (tree :: trees)) :
    Stand source tree.span.stop hi trees where
  inside := fun t ht =>
    ⟨(List.pairwise_cons.mp h.ordered).1 t ht, (h.inside t (List.mem_cons_of_mem _ ht)).2⟩
  ordered := (List.pairwise_cons.mp h.ordered).2
  faithful := fun t ht => h.faithful t (List.mem_cons_of_mem _ ht)

end Stand

end PipelineLang
