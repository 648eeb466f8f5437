import PipelineLang.Proofs.Arrow.Row

/-! What the two passes do to a row that holds a laid-out expression: nothing to the rest of the
row, and to the nodes of the expression what the recursion on the expression says. -/

namespace PipelineLang

variable {kind : NodeKind}

theorem range'_one (base m : Nat) :
    List.range' base (m + 1) = List.range' base m ++ [base + m] := by
  simp [List.range'_concat]

namespace Arena

variable {α : Type}

/-- Takes the places in turn, and collects what each of them gives. -/
def sweep (f : Arena → Nat → Arena × List α) (a : Arena) : List Nat → Arena × List α
  | [] => (a, [])
  | i :: places =>
    let rest := sweep f (f a i).1 places
    (rest.1, (f a i).2 ++ rest.2)

theorem sweep_append (f : Arena → Nat → Arena × List α) (a : Arena) (is js : List Nat) :
    sweep f a (is ++ js) =
      ((sweep f (sweep f a is).1 js).1, (sweep f a is).2 ++ (sweep f (sweep f a is).1 js).2) := by
  induction is generalizing a with
  | nil => rfl
  | cons i is ih => simp [sweep, ih]

theorem foldl_eq_sweep (f : Arena → Nat → Arena × List α) (a : Arena) (out : List α)
    (places : List Nat) :
    places.foldl (fun x i => ((f x.1 i).1, x.2 ++ (f x.1 i).2)) (a, out) =
      ((sweep f a places).1, out ++ (sweep f a places).2) := by
  induction places generalizing a out with
  | nil => simp [sweep]
  | cons i places ih => simp [sweep, ih]

theorem infer_eq_sweep (s : Symbols) (a : Arena) :
    a.infer s = sweep (inferNode s) a (List.range' 0 a.size) := by
  rw [← List.range_eq_range']
  exact (foldl_eq_sweep (inferNode s) a [] _).trans (by simp)

/-- One step of derivation, with the node itself where it would have to pair a pair. -/
def deriveStep (declared : SignalType) (a : Arena) (i : Nat) : Arena × List Nat :=
  ((a.deriveNode declared i).1, if (a.deriveNode declared i).2 then [i] else [])

theorem derive_eq_sweep (declared : SignalType) (a : Arena) :
    a.derive declared = sweep (deriveStep declared) a (List.range' 0 a.size) := by
  rw [← List.range_eq_range']
  refine Eq.trans ?_ ((foldl_eq_sweep (deriveStep declared) a [] (List.range a.size)).trans
    (by simp))
  unfold derive
  congr 1
  funext x i
  simp only [deriveStep]
  split <;> simp_all

theorem inferNode_eq {s : Symbols} {a : Arena} {i : Nat} {parent : Option Nat}
    {span : Span} (hs : a.shape i = some (kind, parent, span)) (hu : a.types i = .unknown) :
    (a.inferNode s i).1 =
      a.setTypes i (((a.combined? i).map CombinedTypes.types).getD (kind.ownTypes s)) := by
  simp only [inferNode, node?_of_shape hs, hu]
  cases h : a.combined? i <;> simp [NodeTypes.unknown, NodeTypes.isKnown]

theorem inputs_eq (a : Arena) (i : Nat) : a.inputs i = (a.types i).inputs := rfl

theorem outputs_eq (a : Arena) (i : Nat) : a.outputs i = (a.types i).outputs := rfl

theorem kind_of_shape {a : Arena} {i : Nat} {parent : Option Nat} {span : Span}
    (h : a.shape i = some (kind, parent, span)) : (a.node? i).map ArrowNode.kind = some kind := by
  simp [node?_of_shape h]

theorem hasRow_nil {a : Arena} {base : Nat} : a.HasRow base [] := fun _ hk => absurd hk (by simp)

theorem setTypes_row {a b : Arena} {base n : Nat} {row : List NodeTypes} {t : NodeTypes}
    (hs : SameOutside base (base + n) b a) (hr : b.HasRow base row) (hlen : row.length = n)
    (hlt : base + n < a.size) :
    SameOutside base (base + (n + 1)) (b.setTypes (base + n) t) a ∧
      (b.setTypes (base + n) t).HasRow base (row ++ [t]) := by
  have hset : SameOutside (base + n) (base + (n + 1)) (b.setTypes (base + n) t) b :=
    SameOutside.setTypes b t (Nat.le_refl _) (by omega)
  refine ⟨(hset.mono (by omega) (by omega)).trans (hs.mono (by omega) (by omega)), ?_⟩
  rw [HasRow.append_iff, HasRow.singleton_iff, hlen]
  exact ⟨hr.congr hset (by omega), types_setTypes_self t (by rw [hs.size]; exact hlt)⟩

open SignalType in
theorem combined?_of_shape {a : Arena} {i : Nat} {parent : Option Nat} {span : Span}
    (h : a.shape i = some (kind, parent, span)) :
    a.combined? i =
      match kind with
      | .compose l r => some ⟨⟨a.inputs l, a.outputs r⟩, false⟩
      | .pairUp l r =>
        some ⟨⟨paired? (a.inputs l) (a.inputs r), paired? (a.outputs l) (a.outputs r)⟩,
          nestsPair (a.inputs l) (a.inputs r) || nestsPair (a.outputs l) (a.outputs r)⟩
      | .fanOut l r =>
        some ⟨⟨sharedInputs (a.inputs l) (a.inputs r), paired? (a.outputs l) (a.outputs r)⟩,
          nestsPair (a.outputs l) (a.outputs r)⟩
      | .paren inner => some ⟨a.types inner, false⟩
      | _ => none := by
  rw [combined?, kind_of_shape h]
  cases kind <;> rfl

section Infer

variable {a : Arena} {base : Nat} {s : Symbols} {e : Arrow}

/-- Inference types an expression that is laid out in the arena, and nothing else. -/
def Infers (s : Symbols) (e : Arrow) : Prop :=
  ∀ (a : Arena) (base : Nat) (parent : Option Nat), e.Laid a.shape base parent →
    a.HasRow base (List.replicate e.size .unknown) →
    SameOutside base (base + e.size) (sweep (inferNode s) a (List.range' base e.size)).1 a ∧
      (sweep (inferNode s) a (List.range' base e.size)).1.HasRow base (e.inferredRow s)

theorem root_of_inferredRow (h : a.HasRow base (e.inferredRow s)) :
    a.types (base + e.size - 1) = e.inferred s := by
  rw [h.root (e.length_inferredRow s) e.size_pos, Arrow.rootTypes_inferredRow]

theorem infers_all {es : List Arrow} (h : ∀ e ∈ es, Infers s e) {parent : Nat}
    (hl : Arrow.LaidAll a.shape parent base es)
    (hu : a.HasRow base (List.replicate (Arrow.sizeAll es) .unknown)) :
    SameOutside base (base + Arrow.sizeAll es)
      (sweep (inferNode s) a (List.range' base (Arrow.sizeAll es))).1 a ∧
      (sweep (inferNode s) a (List.range' base (Arrow.sizeAll es))).1.HasRow base
        (es.flatMap (Arrow.inferredRow s)) := by
  induction es generalizing a base with
  | nil => exact ⟨SameOutside.refl _ _ a, hasRow_nil⟩
  | cons e es ih =>
    rw [List.forall_mem_cons] at h
    rw [Arrow.sizeAll, ← List.replicate_append_replicate, HasRow.append_iff, List.length_replicate]
      at hu
    obtain ⟨hs, hr⟩ := h.1 a base _ hl.1 hu.1
    obtain ⟨hs', hr'⟩ := ih h.2 (hs.shape ▸ hl.2) (hu.2.congr hs (by omega))
    have hlen := e.length_inferredRow s
    rw [Arrow.sizeAll, ← List.range'_append_1, sweep_append, List.flatMap_cons, HasRow.append_iff,
      hlen]
    exact ⟨(hs'.mono (by omega) (by omega)).trans (hs.mono (by omega) (by omega)),
      hr.congr hs' (by omega), hr'⟩

theorem inferNode_of_row {here : Nat} {parent : Option Nat}
    (hs : a.shape here = some (e.kindAt base, parent, e.span)) (hu : a.types here = .unknown)
    (hrow : a.HasRow base (e.parts.flatMap (Arrow.inferredRow s))) :
    (a.inferNode s here).1 = a.setTypes here (e.inferred s) := by
  rw [inferNode_eq hs hu]
  cases e with
  | compose left right | pairUp left right | fanOut left right | choose _ left right =>
    simp only [Arrow.parts, List.flatMap_cons, List.flatMap_nil, List.append_nil, HasRow.append_iff,
      Arrow.length_inferredRow] at hrow
    simp [combined?_of_shape hs, Arrow.kindAt, inputs_eq, outputs_eq, root_of_inferredRow hrow.1,
      root_of_inferredRow hrow.2, Arrow.inferred, NodeKind.ownTypes]
  | first inner | second inner | paren inner =>
    have hi := root_of_inferredRow (e := inner) (by simpa [Arrow.parts] using hrow)
    simp [combined?_of_shape hs, Arrow.kindAt, hi, Arrow.inferred, NodeKind.ownTypes]
  | split | merge | wire | wirePair | use | failed =>
    simp [combined?_of_shape hs, Arrow.kindAt, Arrow.inferred, NodeKind.ownTypes]

theorem infers (s : Symbols) (e : Arrow) : Infers s e := by
  induction e using Arrow.parts_induction with
  | step e ih =>
    intro a base parent hl hu
    have hroot := hl.root
    rw [e.size_eq, ← Nat.add_assoc, Nat.add_sub_cancel] at hroot
    rw [e.size_eq, List.replicate_succ', HasRow.append_iff, HasRow.singleton_iff,
      List.length_replicate] at hu
    obtain ⟨hs, hr⟩ := infers_all ih hl.laidAll hu.1
    have hlast := inferNode_of_row (hs.shape ▸ hroot) ((hs.types _ (by omega)).trans hu.2) hr
    have hgrown := setTypes_row (t := e.inferred s) hs hr (Arrow.length_flatMap_inferredRow s _)
      (lt_size_of_shape hroot)
    rw [← hlast] at hgrown
    rw [e.size_eq, range'_one, sweep_append, Arrow.inferredRow_parts]
    exact hgrown

theorem infer_ofArrow (s : Symbols) (e : Arrow) :
    SameOutside 0 e.size ((ofArrow e).infer s).1 (ofArrow e) ∧
      ((ofArrow e).infer s).1.HasRow 0 (e.inferredRow s) := by
  have h := infers s e (ofArrow e) 0 none (laid_ofArrow e) (fun k hk => by simp [types_ofArrow])
  rw [infer_eq_sweep, size_ofArrow]
  simpa using h

end Infer

section Derive

variable {s : Symbols} {declared : SignalType} {a : Arena} {i : Nat} {e : Arrow}
  {context : Option SignalType}

theorem setTypes_types (a : Arena) (i : Nat) : a.setTypes i (a.types i) = a := by
  cases a with
  | mk nodes =>
    simp only [setTypes, mk.injEq]
    apply List.ext_getElem?
    intro j
    rw [List.getElem?_modify]
    cases h : nodes[j]? with
    | none => rfl
    | some node =>
      by_cases hij : i = j
      · subst hij
        simp [types, node?, h]
      · simp [hij]

theorem deriveNode_of_combined {c : CombinedTypes} (hc : a.combined? i = some c) :
    a.deriveNode declared i = (a.setTypes i ((a.types i).orElse c.types), c.nested) := by
  by_cases h : (a.types i).isKnown = true <;>
    simp [deriveNode, hc, NodeTypes.orElse, isTyped, h, setTypes_types]

theorem deriveNode_of_typed (hc : a.combined? i = none)
    (ht : (a.types i).isKnown = true ∨
      (a.node? i).bind (fun node => a.contextual declared i node.kind) = none) :
    a.deriveNode declared i = (a.setTypes i (a.types i), false) := by
  simp only [deriveNode, hc, isTyped, setTypes_types]
  rcases ht with ht | ht
  · simp [ht]
  · simp [ht]

theorem deriveNode_of_contextual {c : CombinedTypes} {parent : Option Nat}
    {span : Span} (hs : a.shape i = some (kind, parent, span)) (hc : a.combined? i = none)
    (hu : a.types i = .unknown) (hx : a.contextual declared i kind = some c) :
    a.deriveNode declared i = (a.setTypes i c.types, c.nested) := by
  simp [deriveNode, hc, isTyped, hu, NodeTypes.unknown, NodeTypes.isKnown, node?_of_shape hs, hx]

open SignalType in
theorem context_of_parent {j : Nat} {kind' : NodeKind} {parent : Option Nat} {span span' : Span}
    (hi : a.shape i = some (kind', some j, span')) (hj : a.shape j = some (kind, parent, span))
    (hlt : i < j) :
    a.context declared i =
      match kind with
      | .compose l r => if r = i then a.outputs l else (a.inputs j).or (a.context declared j)
      | .pairUp l _ => half? (l = i) ((a.inputs j).or (a.context declared j))
      | .first _ => half? true ((a.inputs j).or (a.context declared j))
      | .second _ => half? false ((a.inputs j).or (a.context declared j))
      | .fanOut _ _ | .choose _ _ _ | .paren _ => (a.inputs j).or (a.context declared j)
      | _ => none := by
  rw [Arena.context]
  simp only [node?_of_shape hi, Option.bind_some, hlt, lt_size_of_shape hj, and_self, if_true,
    kind_of_shape hj]
  cases kind <;> rfl

theorem context_root {span : Span} (hi : a.shape i = some (kind, none, span)) :
    a.context declared i = some declared := by
  rw [Arena.context]
  simp [node?_of_shape hi]

def marks (base : Nat) (row : List CombinedTypes) : List Nat :=
  (row.zipIdx base).filterMap fun x => if x.1.nested then some x.2 else none

theorem marks_append (base : Nat) (row row' : List CombinedTypes) :
    marks base (row ++ row') = marks base row ++ marks (base + row.length) row' := by
  simp [marks, List.zipIdx_append]

theorem marks_singleton (base : Nat) (c : CombinedTypes) :
    marks base [c] = if c.nested then [base] else [] := by
  cases h : c.nested <;> simp [marks, h]

/-- Whatever the types of the nodes of an expression, `context` flows into it. -/
def FlowsInto (declared : SignalType) (context : Option SignalType) (a : Arena) (base : Nat)
    (e : Arrow) :
    Prop :=
  ∀ b : Arena, SameOutside base (base + e.size) b a →
  b.context declared (base + e.size - 1) = context

/-- Derivation types an expression that is laid out in the arena and was inferred, and nothing
else. -/
def Derives (s : Symbols) (declared : SignalType) (e : Arrow) : Prop :=
  ∀ (a : Arena) (base : Nat) (parent : Option Nat) (context : Option SignalType),
    e.Laid a.shape base parent → a.HasRow base (e.inferredRow s) →
    FlowsInto declared context a base e →
    SameOutside base (base + e.size) (sweep (deriveStep declared) a (List.range' base e.size)).1 a ∧
      (sweep (deriveStep declared) a (List.range' base e.size)).1.HasRow base
        ((e.derivedRow s context).map CombinedTypes.types) ∧
      (sweep (deriveStep declared) a (List.range' base e.size)).2 =
        marks base (e.derivedRow s context)

theorem root_of_derivedRow {base : Nat}
    (h : a.HasRow base ((e.derivedRow s context).map CombinedTypes.types)) :
    a.types (base + e.size - 1) = (e.derived s context).types := by
  rw [h.root (by rw [List.length_map, e.length_derivedRow s context]) e.size_pos,
    Arrow.rootTypes_derivedRow]

theorem deriveStep_of_deriveNode {t : NodeTypes} {nested : Bool}
    (h : a.deriveNode declared i = (a.setTypes i t, nested)) :
    sweep (deriveStep declared) a [i] = (a.setTypes i t, marks i [⟨t, nested⟩]) := by
  simp [sweep, deriveStep, h, marks_singleton]

/-- Each part is fed as `xs` says once the parts before it are derived. -/
def FlowsIntoAll (s : Symbols) (declared : SignalType) :
    Arena → Nat → List (Arrow × Option SignalType) → Prop
  | _, _, [] => True
  | a, base, x :: xs => FlowsInto declared x.2 a base x.1 ∧
      ∀ b : Arena, SameOutside base (base + x.1.size) b a →
        b.HasRow base ((x.1.derivedRow s x.2).map CombinedTypes.types) →
        FlowsIntoAll s declared b (base + x.1.size) xs

theorem derives_all {xs : List (Arrow × Option SignalType)} (h : ∀ x ∈ xs, Derives s declared x.1)
    {a : Arena} {base parent : Nat} (hl : Arrow.LaidAll a.shape parent base (xs.map Prod.fst))
    (hu : a.HasRow base ((xs.map Prod.fst).flatMap (Arrow.inferredRow s)))
    (hf : FlowsIntoAll s declared a base xs) {n : Nat} (hn : n = Arrow.sizeAll (xs.map Prod.fst)) :
    SameOutside base (base + n) (sweep (deriveStep declared) a (List.range' base n)).1 a ∧
      (sweep (deriveStep declared) a (List.range' base n)).1.HasRow base
        ((xs.flatMap fun x => x.1.derivedRow s x.2).map CombinedTypes.types) ∧
      (sweep (deriveStep declared) a (List.range' base n)).2 =
        marks base (xs.flatMap fun x => x.1.derivedRow s x.2) := by
  subst hn
  induction xs generalizing a base with
  | nil => exact ⟨SameOutside.refl _ _ a, hasRow_nil, rfl⟩
  | cons x xs ih =>
    rw [List.forall_mem_cons] at h
    rw [List.map_cons, List.flatMap_cons, HasRow.append_iff, Arrow.length_inferredRow] at hu
    obtain ⟨hs, hr, hm⟩ := h.1 a base _ x.2 hl.1 hu.1 hf.1
    obtain ⟨hs', hr', hm'⟩ := ih h.2 (hs.shape ▸ hl.2) (hu.2.congr hs (by omega)) (hf.2 _ hs hr)
    have hlen := x.1.length_derivedRow s x.2
    rw [List.map_cons, Arrow.sizeAll, ← List.range'_append_1, sweep_append, List.flatMap_cons,
      List.map_append, HasRow.append_iff, List.length_map, marks_append, hlen, hm, hm']
    exact ⟨(hs'.mono (by omega) (by omega)).trans (hs.mono (by omega) (by omega)),
      ⟨hr.congr hs' (by simp [hlen]), hr'⟩, rfl⟩

/-- The expression is laid out from `base` on, and its last node is as inference left it: `context`
flows into it whatever its parts hold. -/
structure Rooted (s : Symbols) (declared : SignalType) (context : Option SignalType) (a : Arena)
    (base here : Nat) (parent : Option Nat) (e : Arrow) : Prop where
  place : base + e.size = here + 1
  laid : e.Laid a.shape base parent
  types : a.types here = e.inferred s
  context : ∀ b : Arena, SameOutside base here b a → b.context declared here = context

namespace Rooted

variable {base here : Nat} {parent : Option Nat}

theorem congr {b : Arena} (h : Rooted s declared context a base here parent e)
    (hb : SameOutside base here b a) : Rooted s declared context b base here parent e where
  place := h.place
  laid := hb.shape ▸ h.laid
  types := (hb.types _ (.inr (Nat.le_refl _))).trans h.types
  context c hc := h.context c (hc.trans hb)

theorem root (h : Rooted s declared context a base here parent e) :
    a.shape here = some (e.kindAt base, parent, e.span) := by
  have hroot := h.laid.root
  rwa [h.place, Nat.add_sub_cancel] at hroot

theorem now (h : Rooted s declared context a base here parent e) :
    a.context declared here = context :=
  h.context a (SameOutside.refl _ _ a)

attribute [local simp] Arrow.kindAt Arrow.around Arrow.derived Arrow.inferred NodeTypes.unknown
  inputs_eq
  outputs_eq

theorem flows (h : Rooted s declared context a base here parent e) :
    FlowsIntoAll s declared a base (e.fed s context) := by
  have hplace := h.place
  cases e with
  | compose left right | pairUp left right | fanOut left right | choose _ left right =>
    have hl := left.size_pos
    have hr := right.size_pos
    obtain rfl : here = base + left.size + right.size := by
      simp only [Arrow.size] at hplace
      omega
    have hne : base + left.size + right.size - 1 ≠ base + left.size - 1 := by omega
    simp only [Arrow.fed, FlowsIntoAll, implies_true, and_true]
    refine ⟨fun b hb => ?_, fun b hb hrow c hc => ?_⟩
    · have hb := h.congr (hb.mono (Nat.le_refl _) (by omega))
      rw [context_of_parent hb.laid.2.1.root hb.root (by omega)]
      simp [hne, hb.types, hb.now]
    · have hleft := root_of_derivedRow (hrow.congr hc (by simp [Arrow.length_derivedRow]))
      have hc := (h.congr (hb.mono (Nat.le_refl _) (by omega))).congr
        (hc.mono (by omega) (Nat.le_refl _))
      rw [context_of_parent hc.laid.2.2.root hc.root (by omega)]
      simp [hne.symm, hc.types, hc.now, hleft]
  | first inner | second inner | paren inner =>
    have hi := inner.size_pos
    obtain rfl : here = base + inner.size := Nat.succ.inj hplace.symm
    refine ⟨fun b hb => ?_, fun _ _ _ => trivial⟩
    have hb := h.congr hb
    rw [context_of_parent hb.laid.2.root hb.root (by omega)]
    simp [hb.types, hb.now]
  | split | merge | wire | wirePair | use | failed => trivial

theorem deriveNode_eq (h : Rooted s declared context a base here parent e)
    (hrow : a.HasRow base (((e.fed s context).flatMap fun x => x.1.derivedRow s x.2).map
        CombinedTypes.types)) :
    a.deriveNode declared here =
      (a.setTypes here (e.derived s context).types, (e.derived s context).nested) := by
  have hc := combined?_of_shape h.root
  cases e with
  | compose left right | pairUp left right | fanOut left right =>
    simp only [Arrow.fed, List.flatMap_cons, List.flatMap_nil, List.append_nil, List.map_append,
      HasRow.append_iff, List.length_map, Arrow.length_derivedRow] at hrow
    rw [deriveNode_of_combined hc]
    simp [h.types, root_of_derivedRow hrow.1, root_of_derivedRow hrow.2]
  | choose _ left right =>
    simp only [Arrow.fed, List.flatMap_cons, List.flatMap_nil, List.append_nil, List.map_append,
      HasRow.append_iff, List.length_map, Arrow.length_derivedRow] at hrow
    rw [deriveNode_of_contextual h.root hc h.types rfl]
    simp [root_of_derivedRow hrow.1, root_of_derivedRow hrow.2]
  | paren inner =>
    have hi := root_of_derivedRow (by simpa [Arrow.fed] using hrow)
    rw [deriveNode_of_combined hc]
    simp [h.types, hi]
  | first inner | second inner =>
    have hi := root_of_derivedRow (by simpa [Arrow.fed] using hrow)
    rw [deriveNode_of_contextual h.root hc h.types rfl]
    simp [h.now, hi]
  | split span =>
    have hx : a.contextual declared here .split = some ((Arrow.split span).derived s context) := by
      simp only [contextual, Arrow.derived, h.now]
      rcases context with _ | (_ | _) <;> rfl
    exact deriveNode_of_contextual h.root hc h.types hx
  | merge | wire | wirePair | use | failed =>
    rw [deriveNode_of_typed hc (.inr (by simp [node?_of_shape h.root, contextual])), h.types]
    rfl

end Rooted

theorem derives (s : Symbols) (declared : SignalType) (e : Arrow) : Derives s declared e := by
  induction e using Arrow.parts_induction with
  | step e ih =>
    intro a base parent context hl hu hf
    have hsize := e.size_eq
    rw [Arrow.inferredRow_parts, HasRow.append_iff, Arrow.length_flatMap_inferredRow,
      HasRow.singleton_iff] at hu
    have hroot : Rooted s declared context a base (base + Arrow.sizeAll e.parts) parent e := by
      refine ⟨by omega, hl, hu.2, fun b hb => ?_⟩
      have hflow := hf b (hb.mono (Nat.le_refl _) (by omega))
      rwa [hsize, ← Nat.add_assoc, Nat.add_sub_cancel] at hflow
    have hlp := hl.laidAll
    rw [← e.map_fed s context] at ih hlp hu
    obtain ⟨hs, hr, hm⟩ := derives_all (List.forall_mem_map.mp ih) hlp hu.1 hroot.flows
      (congrArg Arrow.sizeAll (e.map_fed s context).symm)
    have hlen := e.length_derivedRow s context
    rw [Arrow.derivedRow_fed, List.length_append, List.length_singleton, hsize, Nat.succ_inj]
      at hlen
    have hlast := deriveStep_of_deriveNode ((hroot.congr hs).deriveNode_eq hr)
    have hgrown := setTypes_row (t := (e.derived s context).types) hs hr
      ((List.length_map _).trans hlen) (lt_size_of_shape hroot.root)
    rw [hsize, range'_one, sweep_append, hlast, hm, Arrow.derivedRow_fed, marks_append, hlen,
      List.map_append]
    exact ⟨hgrown.1, hgrown.2, rfl⟩

theorem derive_infer_ofArrow (s : Symbols) (declared : SignalType) (e : Arrow) :
    SameOutside 0 e.size (((ofArrow e).infer s).1.derive declared).1 (ofArrow e) ∧
      (((ofArrow e).infer s).1.derive declared).1.HasRow 0
        ((e.derivedRow s (some declared)).map CombinedTypes.types) ∧
      (((ofArrow e).infer s).1.derive declared).2 = marks 0 (e.derivedRow s (some declared)) := by
  obtain ⟨hs, hr⟩ := infer_ofArrow s e
  have hl : e.Laid ((ofArrow e).infer s).1.shape 0 none := hs.shape ▸ laid_ofArrow e
  obtain ⟨hs', hr', hm⟩ := derives s declared e _ 0 none (some declared) hl hr
    (fun b hb => context_root (hb.shape ▸ hl.root))
  rw [derive_eq_sweep, hs.size, size_ofArrow]
  simp only [Nat.zero_add] at hs'
  exact ⟨hs'.trans hs, hr', hm⟩

end Derive

end Arena

end PipelineLang
