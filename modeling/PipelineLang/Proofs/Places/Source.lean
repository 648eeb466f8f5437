import PipelineLang.Grammar.Source
import PipelineLang.Proofs.Places.Grammar

/-!
The places in a program that was read, also from a wrong text. Its tree is faithful to the text, and
so places can stand for what is there: no two operands or targets of a leaf body, commands or
declarations have the same one.
-/

namespace PipelineLang

theorem Lexeme.stands_of_mem {source : String} {l : Lexeme}
    (h : l ∈ (Scan.ofSource source).lexemes) :
    l.Stands source := by
  obtain ⟨p, hp, hl⟩ := List.mem_filterMap.mp h
  obtain ⟨htext, hspan, -⟩ := Piece.of_lexeme? hl
  obtain ⟨before, after, hplaced⟩ := exists_placed hp
  refine ⟨⟨before, after, ?_⟩, ?_, spelled_of_mem h, fun hname => qualifier_ne_empty_of_mem h hname⟩
  · rw [htext, hspan, String.toList_ofList]
    exact hplaced.cuts
  · rw [hspan]
    exact Piece.start_lt_stop hp

theorem Cursor.sound_ofSource (source : String) :
    (ofLexemes (Scan.ofSource source).lexemes).Sound source where
  tokens := fun _ hl => Lexeme.stands_of_mem hl
  ordered := by
    refine List.pairwise_filterMap.mpr ((stop_le_start_pieces 0 source.toList).imp ?_)
    intro p q hpq a ha b hb
    rw [(Piece.of_lexeme? ha).2.1, (Piece.of_lexeme? hb).2.1]
    exact hpq
  behind := fun _ _ => Nat.zero_le _

theorem Parsed.faithful_program {source : String} {p : Program}
    (h : (ofSource source).program = some p) :
    p.tree.Faithful source := by
  unfold ofSource at h
  dsimp only at h
  split at h
  · rename_i c trail hrun
    cases h
    obtain ⟨trees, htrees, hleads⟩ :=
      Rule.lays_program (s := true) (Cursor.sound_ofSource source) hrun
    rw [htrees] at hleads
    exact hleads.stand.head
  · cases h

/-- Places that begin one behind the other, from one place on and before another. -/
structure Rising (lo hi : Nat) (spans : List Span) : Prop where
  inside : ∀ s ∈ spans, lo ≤ s.start ∧ s.start < hi
  ordered : spans.Pairwise fun a b => a.start < b.start

section Rising

variable {source : String} {lo hi mid : Nat} {spans spans' : List Span}
  {trees trees' : List SyntaxTree} {tree : SyntaxTree}

theorem rising_nil : Rising lo hi [] := ⟨fun _ h => absurd h List.not_mem_nil, .nil⟩

theorem Rising.mono {lo' hi' : Nat} (h : Rising lo hi spans) (hlo : lo' ≤ lo) (hhi : hi ≤ hi') :
    Rising lo' hi' spans :=
  ⟨fun s hs => ⟨Nat.le_trans hlo (h.inside s hs).1, Nat.lt_of_lt_of_le (h.inside s hs).2 hhi⟩,
    h.ordered⟩

theorem Rising.cons {s : Span} (h : Rising (s.start + 1) hi spans) (hlo : lo ≤ s.start)
    (hhi : s.start < hi) :
    Rising lo hi (s :: spans) where
  inside := by
    refine List.forall_mem_cons.mpr ⟨⟨hlo, hhi⟩, fun t ht => ?_⟩
    have hin := h.inside t ht
    omega
  ordered := List.pairwise_cons.mpr ⟨fun t ht => (h.inside t ht).1, h.ordered⟩

theorem Rising.append (h : Rising lo mid spans) (h' : Rising mid hi spans') (hlo : lo ≤ mid)
    (hhi : mid ≤ hi) :
    Rising lo hi (spans ++ spans') where
  inside := List.forall_mem_append.mpr
      ⟨(h.mono (Nat.le_refl _) hhi).inside, (h'.mono hlo (Nat.le_refl _)).inside⟩
  ordered := by
    refine List.pairwise_append.mpr ⟨h.ordered, h'.ordered, fun a ha b hb => ?_⟩
    exact Nat.lt_of_lt_of_le (h.inside a ha).2 (h'.inside b hb).1

theorem Rising.nodup (h : Rising lo hi spans) : spans.Nodup :=
  h.ordered.imp fun hlt heq => absurd (congrArg Span.start heq) (Nat.ne_of_lt hlt)

theorem Stand.nodup (h : Stand source lo hi trees) : (trees.map SyntaxTree.span).Nodup := by
  refine List.pairwise_map.mpr (h.ordered.imp_of_mem fun {a b} ha _ hle heq => ?_)
  have hlt := (h.faithful a ha).start_lt_stop
  rw [heq] at hlt hle
  omega

theorem Stand.rising_leaves (h : Stand source lo hi trees)
    (hleaves : ∀ t ∈ trees, Rising t.span.start t.span.stop t.leaves) :
    Rising lo hi (SyntaxTree.leavesOf trees) := by
  induction trees generalizing lo with
  | nil => exact rising_nil
  | cons t ts ih =>
    have hin := h.inside t List.mem_cons_self
    have hlt := h.head.start_lt_stop
    have hhead := (hleaves t List.mem_cons_self).mono hin.1 (Nat.le_refl _)
    exact hhead.append (ih h.tail fun t ht => hleaves t (List.mem_cons_of_mem _ ht)) (by omega)
      hin.2

theorem SyntaxTree.Faithful.rising_leaves (h : tree.Faithful source) :
    Rising tree.span.start tree.span.stop tree.leaves := by
  induction h with
  | @node span name parts hlt _ hinside hordered hparts ih =>
    cases parts with
    | nil => exact rising_nil.cons (Nat.le_refl _) hlt
    | cons part parts => exact Stand.rising_leaves ⟨hinside, hordered, hparts⟩ ih

end Rising

namespace SyntaxTree

theorem leavesOf_append (trees trees' : List SyntaxTree) :
    leavesOf (trees ++ trees') = leavesOf trees ++ leavesOf trees' := by
  induction trees with
  | nil => rfl
  | cons tree trees ih => rw [List.cons_append, leavesOf, leavesOf, ih, List.append_assoc]

theorem leavesOf_singleton (tree : SyntaxTree) : leavesOf [tree] = tree.leaves := List.append_nil _

theorem leaves_node {span : Span} {name : Option String} {parts : List SyntaxTree}
    (h : parts ≠ []) :
    (node span name parts).leaves = leavesOf parts := by
  cases parts with
  | nil => exact absurd rfl h
  | cons part parts => rfl

theorem sublist_leavesOf {α : Type} {tree : α → SyntaxTree} {marks : α → List Span}
    (h : ∀ a, (marks a).Sublist (tree a).leaves) (as : List α) :
    (as.flatMap marks).Sublist (leavesOf (as.map tree)) := by
  induction as with
  | nil => exact .refl _
  | cons a as ih => exact (h a).append ih

end SyntaxTree

open SyntaxTree

theorem Operand.leaves_tree (o : Operand) : o.tree.leaves = [o.span] := by cases o <;> rfl

theorem Operand.sublist_leaves (o : Operand) : [o.span].Sublist o.tree.leaves := by
  rw [o.leaves_tree]

theorem Condition.leaves_tree (c : Condition) : c.tree.leaves = c.marks := by
  induction c with
  | binary op left right span ihl ihr =>
    rw [tree, leaves_node (List.cons_ne_nil _ _), leavesOf, leavesOf_singleton, ihl, ihr]
    exact (List.map_append ..).symm
  | paren inner span ih =>
    rw [tree, leaves_node (List.cons_ne_nil _ _), leavesOf_singleton, ih]; rfl
  | terminal operand => exact operand.leaves_tree

theorem Call.sublist_leaves (c : Call) : c.marks.Sublist c.tree.leaves := by
  have harguments := sublist_leavesOf Operand.sublist_leaves c.arguments
  rw [← List.map_eq_flatMap] at harguments
  exact (harguments.cons _).cons _

theorem LetBinding.sublist_leaves (b : LetBinding) : b.marks.Sublist b.tree.leaves := by
  rw [tree, leaves_node (List.cons_ne_nil _ _), leavesOf, leavesOf_singleton]
  exact b.call.sublist_leaves.cons_cons _

theorem BranchResult.sublist_leaves (b : BranchResult) : b.marks.Sublist b.tree.leaves := by
  cases b with
  | unit span => exact List.nil_sublist _
  | value operand => exact operand.sublist_leaves

theorem leavesOf_targetTrees (target : Option Ident) :
    leavesOf (targetTrees target) = targetMarks target := by
  cases target <;> rfl

theorem sublist_leaves_commands :
    (∀ command : Command, command.marks.Sublist command.tree.leaves) ∧
      (∀ block : Block, block.marks.Sublist block.tree.leaves) ∧
      ∀ commands, (commandsMarks commands).Sublist (leavesOf (commandTrees commands)) := by
  refine Command.induct ?call ?letIn ?branch ?failed ?block ?nil ?cons
  case call =>
    intro target call span
    rw [Command.tree, leaves_node (by simp), leavesOf_append, leavesOf_targetTrees,
      leavesOf_singleton]
    exact List.Sublist.append (.refl _) call.sublist_leaves
  case letIn =>
    intro target bindings body span
    rw [Command.tree, leaves_node (by simp), leavesOf_append, leavesOf_targetTrees, leavesOf_append,
      leavesOf_singleton]
    have hbindings := sublist_leavesOf LetBinding.sublist_leaves bindings
    exact List.Sublist.append (.refl _) (hbindings.append body.sublist_leaves)
  case branch =>
    intro target condition onTrue onFalse span iht ihf
    rw [Command.tree, leaves_node (by simp), leavesOf_append, leavesOf_targetTrees, leavesOf,
      leavesOf, leavesOf_singleton, condition.leaves_tree]
    exact List.Sublist.append (.refl _) (List.Sublist.append (.refl _) (iht.append ihf))
  case failed => exact fun span => List.nil_sublist _
  case block =>
    intro commands result span ih
    rw [Block.tree, leaves_node (by simp), leavesOf_append, leavesOf_singleton]
    exact ih.append result.sublist_leaves
  case nil => exact .refl _
  case cons => exact fun command commands ihc ihs => ihc.append ihs

namespace DoBlock

/-- Where a leaf body has an operand, binds a name or gives a value to an output. -/
def places (b : DoBlock) : List Span :=
  commandsMarks b.commands ++ b.returns.flatMap fun m => [m.target.span, m.source.span]

theorem sublist_leaves (b : DoBlock) : b.places.Sublist b.tree.leaves := by
  rw [tree, leaves_node (by simp), leavesOf_append]
  have hreturn : ∀ m : ReturnMapping, [m.target.span, m.source.span].Sublist m.tree.leaves := by
    intro m
    rw [ReturnMapping.tree, leaves_node (List.cons_ne_nil _ _), leavesOf, leavesOf_singleton,
      m.source.leaves_tree]
    exact .refl _
  exact (sublist_leaves_commands.2.2 b.commands).append
    ((sublist_leavesOf hreturn b.returns).cons _)

theorem sublist_places (b : DoBlock) : b.marks.Sublist b.places := by
  refine List.Sublist.append (.refl _) ?_
  rw [List.map_eq_flatMap]
  induction b.returns with
  | nil => exact .refl _
  | cons m ms ih => exact ((List.sublist_cons_self _ _).append ih)

end DoBlock

mutual

def Command.nested : Command → List Command
  | .branch _ _ onTrue onFalse _ => onTrue.nested ++ onFalse.nested
  | .call _ _ _ | .letIn _ _ _ _ | .failed _ => []

def Block.nested : Block → List Command
  | .mk commands _ _ => withNested commands

def withNested : List Command → List Command
  | [] => []
  | command :: commands => command :: (command.nested ++ withNested commands)

end

theorem Command.span_tree (c : Command) : c.tree.span = c.span := by cases c <;> rfl

theorem rising_commands (source : String) :
    (∀ command : Command, command.tree.Faithful source →
      Rising (command.span.start + 1) command.span.stop (command.nested.map Command.span)) ∧
    (∀ block : Block, block.tree.Faithful source →
      Rising block.tree.span.start block.tree.span.stop (block.nested.map Command.span)) ∧
    ∀ commands lo hi, Stand source lo hi (commandTrees commands) →
      Rising lo hi ((withNested commands).map Command.span) := by
  refine Command.induct ?call ?letIn ?branch ?failed ?block ?nil ?cons
  case call => exact fun target call span _ => rising_nil
  case letIn => exact fun target bindings body span _ => rising_nil
  case branch =>
    intro target condition onTrue onFalse span iht ihf h
    have hstand : Stand source span.start span.stop [condition.tree, onTrue.tree, onFalse.tree] :=
      h.stand.right
    have hcondition := hstand.inside _ List.mem_cons_self
    have htrue := hstand.tail.inside _ List.mem_cons_self
    have hfalse := hstand.tail.tail.inside _ List.mem_cons_self
    have hlt := hstand.head.start_lt_stop
    have hlt' := hstand.tail.head.start_lt_stop
    have hlt'' := hstand.tail.tail.head.start_lt_stop
    rw [Command.nested, List.map_append]
    exact ((iht hstand.tail.head).mono (by change span.start + 1 ≤ _; omega) (Nat.le_refl _)).append
      ((ihf hstand.tail.tail.head).mono hfalse.1 hfalse.2) (by change span.start + 1 ≤ _; omega)
        htrue.2
  case failed => exact fun span _ => rising_nil
  case block => exact fun commands result span ih h => ih _ _ h.stand.left
  case nil => exact fun lo hi _ => rising_nil
  case cons =>
    intro command commands ihc ihs lo hi h
    have hin := h.inside _ List.mem_cons_self
    have hlt := h.head.start_lt_stop
    rw [command.span_tree] at hin hlt
    rw [withNested, List.map_cons, List.map_append]
    refine Rising.cons ((ihc h.head).append ?_ hlt hin.2) hin.1 (by omega)
    rw [← command.span_tree]
    exact ihs _ _ h.tail

section Program

variable {source : String} {p : Program}

theorem Program.stand_component (h : p.tree.Faithful source) :
    ∃ lo hi, Stand source lo hi
      (p.component.declarations.map Declaration.tree ++ [p.component.definition.tree]) := by
  have hcomponent : p.component.tree.Faithful source := h.stand.right.head
  exact ⟨_, _, hcomponent.stand.tail.right.right.right⟩

theorem Program.nodup_declaration_places (h : p.tree.Faithful source) :
    (p.component.declarations.map Declaration.span).Nodup := by
  obtain ⟨lo, hi, hstand⟩ := stand_component h
  have hnodup := hstand.left.nodup
  rwa [List.map_map] at hnodup

theorem Program.faithful_body {body : DoBlock} (h : p.tree.Faithful source)
    (hbody : p.component.definition = .leaf body) : body.tree.Faithful source := by
  obtain ⟨lo, hi, hstand⟩ := stand_component h
  rw [hbody] at hstand
  exact hstand.right.head

theorem DoBlock.nodup_places {body : DoBlock} (h : body.tree.Faithful source) : body.places.Nodup :=
  h.rising_leaves.nodup.sublist body.sublist_leaves

theorem DoBlock.nodup_commands {body : DoBlock} (h : body.tree.Faithful source) :
    ((withNested body.commands).map Command.span).Nodup :=
  ((rising_commands source).2.2 body.commands _ _ h.stand.left).nodup

end Program

/-- A program that was read is faithful to its text, whether or not the text is wrong: every name is
written at its place, parts stand inside of their whole, and what stands side by side is apart and
in order. So the places of a leaf body's operands and targets differ, those of its commands, and
those of declarations. -/
theorem Parsed.places_faithful {source : String} {p : Program}
    (h : (ofSource source).program = some p) :
    p.tree.Faithful source ∧ (p.component.declarations.map Declaration.span).Nodup ∧
    ∀ body, p.component.definition = .leaf body →
      body.places.Nodup ∧ ((withNested body.commands).map Command.span).Nodup := by
  have hp := faithful_program h
  refine ⟨hp, Program.nodup_declaration_places hp, fun body hbody => ?_⟩
  have hfaithful := Program.faithful_body hp hbody
  exact ⟨DoBlock.nodup_places hfaithful, DoBlock.nodup_commands hfaithful⟩

def Definition.body? : Definition → Option DoBlock
  | .arrow _ => none
  | .leaf body => some body

theorem Definition.eq_leaf_of_body? {definition : Definition} {body : DoBlock}
    (h : definition.body? = some body) :
    definition = .leaf body := by
  cases definition with
  | arrow => cases h
  | leaf => exact congrArg leaf (Option.some.inj h)

def brokenBranch : String :=
  "import m as m component c inputs a outputs b do x <- if a == @s then z <- m.g(a, \"k\") y <- y "
    ++ "return z else return () endif return b <- x"

theorem brokenBranch_places :
    ∃ p body, (Parsed.ofSource brokenBranch).program = some p ∧
    (Parsed.ofSource brokenBranch).findings.length = 1 ∧
      p.component.definition = .leaf body ∧ body.places.length = 9 ∧
      (withNested body.commands).length = 3 ∧
      p.tree.Faithful brokenBranch ∧ body.places.Nodup ∧
      ((withNested body.commands).map Command.span).Nodup := by
  have hcounts : ((Parsed.ofSource brokenBranch).program.bind fun p =>
      p.component.definition.body?).map
      (fun body => (body.places.length, (withNested body.commands).length)) = some (9, 3) := by
    decide +kernel
  obtain ⟨body, hbody, hcounts⟩ := Option.map_eq_some_iff.mp hcounts
  obtain ⟨p, hp, hbody⟩ := Option.bind_eq_some_iff.mp hbody
  rw [Prod.mk.injEq] at hcounts
  have hleaf := Definition.eq_leaf_of_body? hbody
  obtain ⟨hfaithful, -, hnodup⟩ := Parsed.places_faithful hp
  exact ⟨p, body, hp, by decide +kernel, hleaf, hcounts.1, hcounts.2, hfaithful, hnodup body hleaf⟩

end PipelineLang
