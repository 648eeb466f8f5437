import PipelineLang.Proofs.Arrow.Layout

/-! The types that the two passes over a laid-out expression leave in its nodes, by recursion on the
expression. Inference works from the parts upward; derivation also sends down what flows into each
part. -/

namespace PipelineLang

open SignalType

namespace NodeTypes

/-- Types that are known stay; others are replaced. -/
def orElse (t new : NodeTypes) : NodeTypes := if t.isKnown then t else new

end NodeTypes

namespace Arrow

/-- What is known of the types of an expression from its parts alone. -/
def inferred (s : Symbols) : Arrow → NodeTypes
  | compose left right _ => ⟨(left.inferred s).inputs, (right.inferred s).outputs⟩
  | pairUp left right _ =>
    ⟨paired? (left.inferred s).inputs (right.inferred s).inputs,
      paired? (left.inferred s).outputs (right.inferred s).outputs⟩
  | fanOut left right _ =>
    ⟨sharedInputs (left.inferred s).inputs (right.inferred s).inputs,
      paired? (left.inferred s).outputs (right.inferred s).outputs⟩
  | paren inner _ => inner.inferred s
  | first _ _ | second _ _ | split _ | choose _ _ _ _ | failed _ => .unknown
  | merge entries _ => (NodeKind.merge entries).ownTypes s
  | wire entries _ => (NodeKind.wire entries).ownTypes s
  | wirePair top bottom _ => (NodeKind.wirePair top bottom).ownTypes s
  | use component _ => (NodeKind.use component).ownTypes s

/-- The types that inference leaves in the nodes of an expression. -/
def inferredRow (s : Symbols) : Arrow → List NodeTypes
  | compose left right span =>
    left.inferredRow s ++ right.inferredRow s ++ [(compose left right span).inferred s]
  | pairUp left right span =>
    left.inferredRow s ++ right.inferredRow s ++ [(pairUp left right span).inferred s]
  | fanOut left right span =>
    left.inferredRow s ++ right.inferredRow s ++ [(fanOut left right span).inferred s]
  | choose condition onTrue onFalse span =>
    onTrue.inferredRow s ++ onFalse.inferredRow s ++
    [(choose condition onTrue onFalse span).inferred s]
  | first inner span => inner.inferredRow s ++ [(first inner span).inferred s]
  | second inner span => inner.inferredRow s ++ [(second inner span).inferred s]
  | paren inner span => inner.inferredRow s ++ [(paren inner span).inferred s]
  | split span => [(split span).inferred s]
  | merge entries span => [(merge entries span).inferred s]
  | wire entries span => [(wire entries span).inferred s]
  | wirePair top bottom span => [(wirePair top bottom span).inferred s]
  | use component span => [(use component span).inferred s]
  | failed span => [(failed span).inferred s]

theorem length_inferredRow (s : Symbols) (e : Arrow) : (e.inferredRow s).length = e.size := by
  induction e with
  | compose _ _ _ ihl ihr | pairUp _ _ _ ihl ihr | fanOut _ _ _ ihl ihr | choose _ _ _ _ ihl ihr =>
    simp [inferredRow, size, ihl, ihr, Nat.add_assoc]
  | first _ _ ih | second _ _ ih | paren _ _ ih => simp [inferredRow, size, ih]
  | split | merge | wire | wirePair | use | failed => rfl

theorem length_flatMap_inferredRow (s : Symbols) (es : List Arrow) :
    (es.flatMap (inferredRow s)).length = sizeAll es := by
  induction es with
  | nil => rfl
  | cons e es ih => simp [sizeAll, length_inferredRow, ih]

theorem inferredRow_parts (s : Symbols) (e : Arrow) :
    e.inferredRow s = e.parts.flatMap (inferredRow s) ++ [e.inferred s] := by
  cases e <;> simp [inferredRow, parts]

@[simp] theorem rootTypes_inferredRow (s : Symbols) (e : Arrow) :
    Arena.rootTypes (e.inferredRow s) = e.inferred s := by
  cases e <;> simp [inferredRow, Arena.rootTypes]

/-- What flows around an expression: what its parts show that it takes, or else its context. -/
def around (s : Symbols) (context : Option SignalType) (e : Arrow) : Option SignalType :=
  (e.inferred s).inputs.or context

/-- The types of an expression into which `context` flows, and whether it would have to pair a
pair. -/
def derived (s : Symbols) (context : Option SignalType) : Arrow → CombinedTypes
  | compose left right span =>
    let e := compose left right span
    let l := left.derived s (e.around s context)
    let r := right.derived s l.types.outputs
    ⟨(e.inferred s).orElse ⟨l.types.inputs, r.types.outputs⟩, false⟩
  | pairUp left right span =>
    let e := pairUp left right span
    let l := left.derived s (half? true (e.around s context))
    let r := right.derived s (half? false (e.around s context))
    ⟨(e.inferred s).orElse
        ⟨paired? l.types.inputs r.types.inputs, paired? l.types.outputs r.types.outputs⟩,
      nestsPair l.types.inputs r.types.inputs || nestsPair l.types.outputs r.types.outputs⟩
  | fanOut left right span =>
    let e := fanOut left right span
    let l := left.derived s (e.around s context)
    let r := right.derived s (e.around s context)
    ⟨(e.inferred s).orElse
        ⟨sharedInputs l.types.inputs r.types.inputs, paired? l.types.outputs r.types.outputs⟩,
      nestsPair l.types.outputs r.types.outputs⟩
  | paren inner span =>
    let e := paren inner span
    ⟨(e.inferred s).orElse (inner.derived s (e.around s context)).types, false⟩
  | first inner _ =>
    let i := inner.derived s (half? true context)
    let other := context.map (passing false)
    ⟨⟨beside? true i.types.inputs other, beside? true i.types.outputs other⟩,
      nestsBeside i.types.inputs other || nestsBeside i.types.outputs other⟩
  | second inner _ =>
    let i := inner.derived s (half? false context)
    let other := context.map (passing true)
    ⟨⟨beside? false i.types.inputs other, beside? false i.types.outputs other⟩,
      nestsBeside i.types.inputs other || nestsBeside i.types.outputs other⟩
  | split _ =>
    match context with
    | some (.flat names) => ⟨⟨some (.flat names), some (.pair names names)⟩, false⟩
    | other => ⟨⟨other, none⟩, false⟩
  | choose _ onTrue onFalse _ =>
    let t := onTrue.derived s context
    let e := onFalse.derived s context
    ⟨⟨t.types.inputs.or e.types.inputs, t.types.outputs.or e.types.outputs⟩, false⟩
  | merge entries _ => ⟨(NodeKind.merge entries).ownTypes s, false⟩
  | wire entries _ => ⟨(NodeKind.wire entries).ownTypes s, false⟩
  | wirePair top bottom _ => ⟨(NodeKind.wirePair top bottom).ownTypes s, false⟩
  | use component _ => ⟨(NodeKind.use component).ownTypes s, false⟩
  | failed _ => ⟨.unknown, false⟩

/-- The types that derivation leaves in the nodes of an expression, with the same mark for each. -/
def derivedRow (s : Symbols) (context : Option SignalType) : Arrow → List CombinedTypes
  | compose left right span =>
    let e := compose left right span
    left.derivedRow s (e.around s context)
      ++ right.derivedRow s (left.derived s (e.around s context)).types.outputs
      ++ [e.derived s context]
  | pairUp left right span =>
    let e := pairUp left right span
    left.derivedRow s (half? true (e.around s context))
      ++ right.derivedRow s (half? false (e.around s context)) ++ [e.derived s context]
  | fanOut left right span =>
    let e := fanOut left right span
    left.derivedRow s (e.around s context) ++ right.derivedRow s (e.around s context)
      ++ [e.derived s context]
  | choose condition onTrue onFalse span =>
    onTrue.derivedRow s context ++ onFalse.derivedRow s context
      ++ [(choose condition onTrue onFalse span).derived s context]
  | first inner span =>
    inner.derivedRow s (half? true context) ++ [(first inner span).derived s context]
  | second inner span =>
    inner.derivedRow s (half? false context) ++ [(second inner span).derived s context]
  | paren inner span =>
    let e := paren inner span
    inner.derivedRow s (e.around s context) ++ [e.derived s context]
  | split span => [(split span).derived s context]
  | merge entries span => [(merge entries span).derived s context]
  | wire entries span => [(wire entries span).derived s context]
  | wirePair top bottom span => [(wirePair top bottom span).derived s context]
  | use component span => [(use component span).derived s context]
  | failed span => [(failed span).derived s context]

theorem length_derivedRow (s : Symbols) (context : Option SignalType) (e : Arrow) :
    (e.derivedRow s context).length = e.size := by
  induction e generalizing context with
  | compose _ _ _ ihl ihr | pairUp _ _ _ ihl ihr | fanOut _ _ _ ihl ihr | choose _ _ _ _ ihl ihr =>
    simp [derivedRow, size, ihl, ihr, Nat.add_assoc]
  | first _ _ ih | second _ _ ih | paren _ _ ih => simp [derivedRow, size, ih]
  | split | merge | wire | wirePair | use | failed => rfl

/-- The parts of an expression, and what flows into each of them. -/
def fed (s : Symbols) (context : Option SignalType) : Arrow → List (Arrow × Option SignalType)
  | compose left right span =>
    let around := (compose left right span).around s context
    [(left, around), (right, (left.derived s around).types.outputs)]
  | pairUp left right span =>
    let around := (pairUp left right span).around s context
    [(left, half? true around), (right, half? false around)]
  | fanOut left right span =>
    let around := (fanOut left right span).around s context
    [(left, around), (right, around)]
  | choose _ left right _ => [(left, context), (right, context)]
  | first inner _ => [(inner, half? true context)]
  | second inner _ => [(inner, half? false context)]
  | paren inner span => [(inner, (paren inner span).around s context)]
  | split _ | merge _ _ | wire _ _ | wirePair _ _ _ | use _ _ | failed _ => []

theorem map_fed (s : Symbols) (context : Option SignalType) (e : Arrow) :
    (e.fed s context).map Prod.fst = e.parts := by
  cases e <;> rfl

theorem derivedRow_fed (s : Symbols) (context : Option SignalType) (e : Arrow) :
    e.derivedRow s context =
    (e.fed s context).flatMap (fun x => x.1.derivedRow s x.2) ++ [e.derived s context] := by
  cases e <;> simp [derivedRow, fed]

@[simp] theorem rootTypes_derivedRow (s : Symbols) (context : Option SignalType) (e : Arrow) :
    Arena.rootTypes ((e.derivedRow s context).map CombinedTypes.types) =
      (e.derived s context).types := by
  cases e <;> simp [derivedRow, Arena.rootTypes]

end Arrow

end PipelineLang
