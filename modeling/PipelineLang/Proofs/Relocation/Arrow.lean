import PipelineLang.Proofs.Relocation.Resolution

/-! Arrow expressions at other places: spans are carried along by the nodes and only show up in
findings, so a relocated expression gets the same types and the same problems. -/

namespace PipelineLang

def NodeKind.relocate (φ : Relocation) : NodeKind → NodeKind
  | merge entries => merge (entries.map (MergeMapping.relocate φ))
  | wire entries => wire (entries.map (Mapping.relocate φ))
  | wirePair top bottom => wirePair (top.map (Mapping.relocate φ)) (bottom.map (Mapping.relocate φ))
  | choose condition onTrue onFalse => choose (condition.relocate φ) onTrue onFalse
  | use component => use (component.relocate φ)
  | kind => kind

def ArrowNode.relocate (φ : Relocation) (node : ArrowNode) : ArrowNode :=
  ⟨node.kind.relocate φ, node.parent, node.span.relocate φ, node.types⟩

def Arena.relocate (φ : Relocation) (a : Arena) : Arena := ⟨a.nodes.map (ArrowNode.relocate φ)⟩

namespace NodeKind

variable (φ : Relocation)

@[simp] theorem describe_relocate (kind : NodeKind) :
    (kind.relocate φ).describe = kind.describe := by
  cases kind <;> rfl

@[simp] theorem children_relocate (kind : NodeKind) :
    (kind.relocate φ).children = kind.children := by
  cases kind <;> rfl

end NodeKind

namespace Arrow

variable (φ : Relocation)

@[simp] theorem size_relocate (e : Arrow) : (e.relocate φ).size = e.size := by
  induction e with
  | compose _ _ _ ihl ihr | pairUp _ _ _ ihl ihr | fanOut _ _ _ ihl ihr =>
    simp only [relocate, size, ihl, ihr]
  | choose _ _ _ _ iht ihf => simp only [relocate, size, iht, ihf]
  | first _ _ ih | second _ _ ih | paren _ _ ih => simp only [relocate, size, ih]
  | split | merge | wire | wirePair | use | failed => rfl

theorem last_relocate (e : Arrow) (base : Nat) (parent : Option Nat) :
    (⟨(e.relocate φ).kindAt base, parent, (e.relocate φ).span, .unknown⟩ : ArrowNode) =
      ArrowNode.relocate φ ⟨e.kindAt base, parent, e.span, .unknown⟩ := by
  cases e <;> simp only [relocate, kindAt, size_relocate] <;> rfl

theorem layOut_relocate (e : Arrow) (base : Nat) (parent : Option Nat) :
    (e.relocate φ).layOut base parent = (e.layOut base parent).map (ArrowNode.relocate φ) := by
  induction e generalizing base parent with
  | compose _ _ _ ihl ihr | pairUp _ _ _ ihl ihr | fanOut _ _ _ ihl ihr | choose _ _ _ _ ihl ihr =>
    rw [layOut_eq, layOut_eq, last_relocate, List.map_append]
    simp only [relocate, partsAt, ihl, ihr, size_relocate, List.map_append, List.map_singleton]
  | first _ _ ih | second _ _ ih | paren _ _ ih =>
    rw [layOut_eq, layOut_eq, last_relocate, List.map_append]
    simp only [relocate, partsAt, ih, size_relocate, List.map_singleton]
  | split | merge | wire | wirePair | use | failed => rfl

end Arrow

namespace Arena

variable {φ : Relocation}

theorem ofArrow_relocate (e : Arrow) : ofArrow (e.relocate φ) = (ofArrow e).relocate φ := by
  have hnodes := nodes_ofArrow (e.relocate φ)
  rw [Arrow.layOut_relocate, ← nodes_ofArrow] at hnodes
  exact congrArg Arena.mk hnodes

section Reading

variable (a : Arena) (i : Nat)

@[simp] theorem size_relocate : (a.relocate φ).size = a.size := List.length_map _

@[simp] theorem root_relocate : (a.relocate φ).root = a.root := by rw [root, size_relocate, root]

theorem node?_relocate : (a.relocate φ).node? i = (a.node? i).map (ArrowNode.relocate φ) :=
  List.getElem?_map

@[simp] theorem types_relocate : (a.relocate φ).types i = a.types i := by
  rw [types, types, node?_relocate]
  cases a.node? i <;> rfl

@[simp] theorem inputs_relocate : (a.relocate φ).inputs i = a.inputs i := by
  rw [inputs, types_relocate, inputs]

@[simp] theorem outputs_relocate : (a.relocate φ).outputs i = a.outputs i := by
  rw [outputs, types_relocate, outputs]

@[simp] theorem isTyped_relocate : (a.relocate φ).isTyped i = a.isTyped i := by
  rw [isTyped, types_relocate, isTyped]

@[simp] theorem children_relocate : (a.relocate φ).children i = a.children i := by
  rw [children, children, node?_relocate]
  cases a.node? i with
  | none => rfl
  | some node => exact NodeKind.children_relocate φ node.kind

theorem parent_relocate :
    ((a.relocate φ).node? i).bind ArrowNode.parent = (a.node? i).bind ArrowNode.parent := by
  rw [node?_relocate]
  cases a.node? i <;> rfl

theorem kind_relocate :
    ((a.relocate φ).node? i).map ArrowNode.kind =
      ((a.node? i).map ArrowNode.kind).map (NodeKind.relocate φ) := by
  rw [node?_relocate]
  cases a.node? i <;> rfl

theorem setTypes_relocate (types : NodeTypes) :
    (a.relocate φ).setTypes i types = (a.setTypes i types).relocate φ := by
  simp only [setTypes, relocate, mk.injEq]
  apply List.ext_getElem?
  intro j
  simp only [List.getElem?_modify, List.getElem?_map]
  cases a.nodes[j]? with
  | none => rfl
  | some node => by_cases h : i = j <;> simp [h, ArrowNode.relocate]

@[simp] theorem combined?_relocate : (a.relocate φ).combined? i = a.combined? i := by
  rw [combined?, combined?, kind_relocate]
  cases (a.node? i).map ArrowNode.kind with
  | none => rfl
  | some kind => cases kind <;> simp [NodeKind.relocate]

end Reading

end Arena

section Names

variable {φ : Relocation}

theorem wireSources_relocate (entries : List Mapping) :
    wireSources (entries.map (Mapping.relocate φ)) =
      (wireSources entries).map (Ident.relocate φ) := by
  rw [wireSources, wireSources, List.filterMap_map, List.map_filterMap]
  congr 1
  funext m
  obtain ⟨source, _, _⟩ := m
  cases source <;> rfl

theorem kept_relocate (targets : List Ident) :
    kept (targets.map (Ident.relocate φ)) = (kept targets).map (Ident.relocate φ) := by
  rw [kept, kept, List.filter_map]
  rfl

theorem wireTargets_relocate (entries : List Mapping) :
    wireTargets (entries.map (Mapping.relocate φ)) =
      (wireTargets entries).map (Ident.relocate φ) := by
  rw [wireTargets, wireTargets, ← kept_relocate, List.map_map, List.map_map]
  rfl

theorem mergeTops_relocate (entries : List MergeMapping) :
    mergeTops (entries.map (MergeMapping.relocate φ)) =
      (mergeTops entries).map (Ident.relocate φ) := by
  rw [mergeTops, mergeTops, List.filterMap_map, List.map_filterMap]
  congr 1
  funext m
  obtain ⟨source, _, _⟩ := m
  cases source <;> rfl

theorem mergeBottoms_relocate (entries : List MergeMapping) :
    mergeBottoms (entries.map (MergeMapping.relocate φ)) =
      (mergeBottoms entries).map (Ident.relocate φ) := by
  rw [mergeBottoms, mergeBottoms, List.filterMap_map, List.map_filterMap]
  congr 1
  funext m
  obtain ⟨source, _, _⟩ := m
  cases source <;> rfl

theorem mergeTargets_relocate (entries : List MergeMapping) :
    mergeTargets (entries.map (MergeMapping.relocate φ)) =
      (mergeTargets entries).map (Ident.relocate φ) := by
  rw [mergeTargets, mergeTargets, ← kept_relocate, List.map_map, List.map_map]
  rfl

end Names

namespace NodeKind

variable {φ : Relocation} (kind : NodeKind)

theorem ownTypes_relocate (s : Symbols) :
    (kind.relocate φ).ownTypes (s.relocate φ) = kind.ownTypes s := by
  cases kind with
  | use component =>
    simp only [relocate, ownTypes, Ident.name_relocate, Symbols.leafOf?_relocate]
  | merge | wire | wirePair =>
    simp only [relocate, ownTypes, wireSources_relocate, wireTargets_relocate, mergeTops_relocate,
      mergeBottoms_relocate, mergeTargets_relocate, NameSet.ofIdents_relocate]
  | _ => rfl

theorem sides_relocate :
    (kind.relocate φ).sides = kind.sides.map fun x => (x.1, x.2.map (Ident.relocate φ)) := by
  cases kind with
  | merge | wire | wirePair =>
    simp only [relocate, sides, wireSources_relocate, wireTargets_relocate, mergeTops_relocate,
      mergeBottoms_relocate, mergeTargets_relocate, List.map_cons, List.map_nil]
  | _ => rfl

theorem duplicateFindings_relocate :
    (kind.relocate φ).duplicateFindings = kind.duplicateFindings.map (Finding.relocate φ) := by
  rw [duplicateFindings, duplicateFindings, sides_relocate, List.flatMap_map, List.map_flatMap]
  congr 1
  funext x
  simp only [duplicates_relocate, List.map_map]
  rfl

end NodeKind

namespace Arena

variable {φ : Relocation} (a : Arena) (s : Symbols)

theorem inferNode_relocate (i : Nat) :
    (a.relocate φ).inferNode (s.relocate φ) i =
      ((a.inferNode s i).1.relocate φ, (a.inferNode s i).2.map (Finding.relocate φ)) := by
  rw [inferNode, inferNode, node?_relocate]
  cases a.node? i with
  | none => rfl
  | some node =>
    have htypes : (node.relocate φ).types = node.types := rfl
    have hkind : (node.relocate φ).kind = node.kind.relocate φ := rfl
    simp only [Option.map_some, htypes, hkind, combined?_relocate, setTypes_relocate,
      NodeKind.ownTypes_relocate, NodeKind.duplicateFindings_relocate]
    split
    · rfl
    · cases a.combined? i <;> rfl

theorem infer_relocate :
    (a.relocate φ).infer (s.relocate φ) =
      ((a.infer s).1.relocate φ, (a.infer s).2.map (Finding.relocate φ)) := by
  have hfold : ∀ (is : List Nat) (a : Arena) (findings : List Finding),
      is.foldl (fun (x : Arena × List Finding) i =>
          ((x.1.inferNode (s.relocate φ) i).1, x.2 ++ (x.1.inferNode (s.relocate φ) i).2))
        (a.relocate φ, findings.map (Finding.relocate φ)) =
      let x := is.foldl (fun (x : Arena × List Finding) i =>
          ((x.1.inferNode s i).1, x.2 ++ (x.1.inferNode s i).2)) (a, findings)
      (x.1.relocate φ, x.2.map (Finding.relocate φ)) := by
    intro is
    induction is with
    | nil => exact fun _ _ => rfl
    | cons i is ih =>
      intro a findings
      rw [List.foldl_cons, List.foldl_cons, inferNode_relocate, ← List.map_append, ih]
  rw [infer, size_relocate]
  exact hfold _ a []

theorem context_relocate (declared : SignalType) (i : Nat) :
    (a.relocate φ).context declared i = a.context declared i := by
  induction hi : a.size - i using Nat.strongRecOn generalizing i with
  | ind n ih =>
    rw [context.eq_def (a.relocate φ), context.eq_def a, parent_relocate]
    cases (a.node? i).bind ArrowNode.parent with
    | none => rfl
    | some p =>
      -- the recursion goes to the parent, which stands further to the end of the row
      have haround : (if i < p ∧ p < a.size then (a.relocate φ).context declared p else none) =
          if i < p ∧ p < a.size then a.context declared p else none :=
        ite_congr rfl (fun hp => ih (a.size - p) (by omega) p rfl) fun _ => rfl
      simp only [kind_relocate, size_relocate, inputs_relocate, haround]
      cases (a.node? p).map ArrowNode.kind with
      | none => rfl
      | some kind => cases kind <;> simp only [Option.map_some, NodeKind.relocate, outputs_relocate]

theorem contextual_relocate (declared : SignalType) (i : Nat) (kind : NodeKind) :
    (a.relocate φ).contextual declared i (kind.relocate φ) = a.contextual declared i kind := by
  cases kind <;> simp only [NodeKind.relocate, contextual, context_relocate, inputs_relocate,
    outputs_relocate]

theorem deriveNode_relocate (declared : SignalType) (i : Nat) :
    (a.relocate φ).deriveNode declared i =
      ((a.deriveNode declared i).1.relocate φ, (a.deriveNode declared i).2) := by
  have hcontextual : (((a.relocate φ).node? i).bind fun node => (a.relocate φ).contextual declared i
      node.kind) = (a.node? i).bind fun node => a.contextual declared i node.kind := by
    rw [node?_relocate]
    cases a.node? i with
    | none => rfl
    | some node => exact contextual_relocate a declared i node.kind
  rw [deriveNode, deriveNode, combined?_relocate, isTyped_relocate, hcontextual]
  simp only [setTypes_relocate]
  cases a.combined? i with
  | some combined => by_cases h : a.isTyped i = true <;> simp [h]
  | none =>
    by_cases h : a.isTyped i = true
    · simp [h]
    · simp only [h]
      cases (a.node? i).bind fun node => a.contextual declared i node.kind <;> rfl

theorem derive_relocate (declared : SignalType) :
    (a.relocate φ).derive declared = ((a.derive declared).1.relocate φ, (a.derive declared).2) := by
  have hfold : ∀ (is : List Nat) (a : Arena) (nested : List Nat),
      is.foldl (fun (x : Arena × List Nat) i => ((x.1.deriveNode declared i).1,
          if (x.1.deriveNode declared i).2 then x.2 ++ [i] else x.2)) (a.relocate φ, nested) =
      let x := is.foldl (fun (x : Arena × List Nat) i => ((x.1.deriveNode declared i).1,
          if (x.1.deriveNode declared i).2 then x.2 ++ [i] else x.2)) (a, nested)
      (x.1.relocate φ, x.2) := by
    intro is
    induction is with
    | nil => exact fun _ _ => rfl
    | cons i is ih =>
      intro a nested
      rw [List.foldl_cons, List.foldl_cons, deriveNode_relocate, ih]
  rw [derive, size_relocate]
  exact hfold _ a []

theorem holdsFailure_relocate (i : Nat) : (a.relocate φ).holdsFailure i = a.holdsFailure i := by
  induction i using Nat.strongRecOn with
  | ind i ih =>
    rw [holdsFailure.eq_def (a.relocate φ), holdsFailure.eq_def a, node?_relocate]
    cases a.node? i with
    | none => rfl
    | some node =>
      obtain ⟨kind, parent, span, types⟩ := node
      have hbelow : ∀ c, (if c < i then (a.relocate φ).holdsFailure c else false) =
          if c < i then a.holdsFailure c else false := fun c => ite_congr rfl (ih c) fun _ => rfl
      cases kind <;> simp only [Option.map_some, ArrowNode.relocate, NodeKind.relocate,
        NodeKind.children, hbelow]

theorem failureAround_relocate (i : Nat) : (a.relocate φ).failureAround i = a.failureAround i := by
  induction hi : a.size - i using Nat.strongRecOn generalizing i with
  | ind n ih =>
    rw [failureAround.eq_def (a.relocate φ), failureAround.eq_def a, parent_relocate]
    cases (a.node? i).bind ArrowNode.parent with
    | none => rfl
    | some p =>
      have haround : (if i < p ∧ p < a.size then (a.relocate φ).failureAround p else false) =
          if i < p ∧ p < a.size then a.failureAround p else false :=
        ite_congr rfl (fun hp => ih (a.size - p) (by omega) p rfl) fun _ => rfl
      simp only [children_relocate, size_relocate, holdsFailure_relocate, haround]

theorem unequal_relocate (span : Span) (problem : SignalType → SignalType → Problem)
    (left right : Option SignalType) :
    unequal (span.relocate φ) problem left right =
      (unequal span problem left right).map (Finding.relocate φ) := by
  cases left with
  | none => rfl
  | some s =>
    cases right with
    | none => rfl
    | some t => by_cases h : s = t <;> simp [unequal, h, Finding.relocate]

theorem conditionFindings_relocate (inputs : Option SignalType) (c : Condition) :
    conditionFindings (s.relocate φ) inputs (c.relocate φ) =
      (conditionFindings s inputs c).map (Finding.relocate φ) := by
  rw [conditionFindings, conditionFindings, Condition.terminals_relocate, List.flatMap_map,
    List.map_flatMap]
  congr 1
  funext operand
  cases operand with
  | state id =>
    simp only [Operand.relocate, Ident.name_relocate, Symbols.hasConfiguration_relocate]
    split <;> rfl
  | ident id =>
    cases inputs with
    | none => rfl
    | some type =>
      by_cases h : type.allNames.contains id.name = true
      · simp only [Operand.relocate, Ident.name_relocate, h, if_true, List.map_nil]
      · simp only [Operand.relocate, Ident.name_relocate, h]
        rfl
  | literal lit => rfl

theorem agreementFindings_relocate (node : ArrowNode) :
    agreementFindings (s.relocate φ) (a.relocate φ) (node.relocate φ) =
      (agreementFindings s a node).map (Finding.relocate φ) := by
  obtain ⟨kind, parent, span, types⟩ := node
  cases kind with
  | compose | fanOut =>
    simp only [ArrowNode.relocate, NodeKind.relocate, agreementFindings, inputs_relocate,
      outputs_relocate, unequal_relocate]
  | choose =>
    simp only [ArrowNode.relocate, NodeKind.relocate, agreementFindings, inputs_relocate,
      outputs_relocate, unequal_relocate, conditionFindings_relocate, List.map_append]
  | _ => rfl

theorem splitsPair_relocate (node : ArrowNode) :
    splitsPair (node.relocate φ) = splitsPair node := by
  obtain ⟨kind, parent, span, types⟩ := node
  cases kind <;> rfl

theorem startsGap_relocate (i : Nat) (node : ArrowNode) :
    (a.relocate φ).startsGap i (node.relocate φ) = a.startsGap i node := by
  obtain ⟨kind, parent, span, types⟩ := node
  have htyped : (a.relocate φ).isTyped = a.isTyped := funext (isTyped_relocate a)
  cases kind <;>
    simp only [startsGap, ArrowNode.relocate, NodeKind.relocate, NodeKind.children, htyped,
      failureAround_relocate]

theorem nodeFindings_relocate (nested : List Nat) (i : Nat) :
    (a.relocate φ).nodeFindings (s.relocate φ) nested i =
      (a.nodeFindings s nested i).map (Finding.relocate φ) := by
  rw [nodeFindings, nodeFindings, node?_relocate]
  cases a.node? i with
  | none => rfl
  | some node =>
    have hspan : (node.relocate φ).span = node.span.relocate φ := rfl
    have hdescribe : (node.relocate φ).kind.describe = node.kind.describe :=
      NodeKind.describe_relocate φ node.kind
    simp only [Option.map_some, splitsPair_relocate, agreementFindings_relocate, startsGap_relocate,
      hspan, hdescribe]
    cases splitsPair node with
    | some got => rfl
    | none =>
      simp only [List.map_append]
      by_cases hnested : nested.contains i = true
      · simp only [hnested, if_true]
        rfl
      · by_cases hgap : a.startsGap i node = true
        · simp only [hnested, hgap, if_true]
          rfl
        · simp only [hnested, hgap]
          rfl

theorem problem_unequal (span span' : Span) (problem : SignalType → SignalType → Problem)
    (left right : Option SignalType) :
    (unequal span problem left right).map Finding.problem =
      (unequal span' problem left right).map Finding.problem := by
  cases left with
  | none => rfl
  | some s =>
    cases right with
    | none => rfl
    | some t => by_cases h : s = t <;> simp [unequal, h]

theorem analyze_relocate :
    ((a.relocate φ).analyze (s.relocate φ)).1 = (a.analyze s).1.relocate φ
    ∧ ((a.relocate φ).analyze (s.relocate φ)).2.1 = (a.analyze s).2.1.relocate φ
    ∧ ((a.relocate φ).analyze (s.relocate φ)).2.2.map Finding.problem =
      (a.analyze s).2.2.map Finding.problem := by
  have hinputs : (s.relocate φ).declaredInputs = s.declaredInputs := rfl
  have houtputs : (s.relocate φ).declaredOutputs = s.declaredOutputs := rfl
  have hfindings : ∀ (b : Arena) nested,
      (List.range b.size).flatMap ((b.relocate φ).nodeFindings (s.relocate φ) nested) =
        ((List.range b.size).flatMap (b.nodeFindings s nested)).map (Finding.relocate φ) := by
    intro b nested
    rw [List.map_flatMap]
    congr 1
    funext i
    exact nodeFindings_relocate b s nested i
  simp only [analyze, hinputs, houtputs, derive_relocate, size_relocate, root_relocate,
    inputs_relocate, outputs_relocate, hfindings, true_and]
  refine ⟨rfl, ?_⟩
  simp only [List.map_append, List.map_map]
  congr 1
  congr 1
  · exact problem_unequal _ _ _ _ _
  · exact problem_unequal _ _ _ _ _

end Arena

end PipelineLang
