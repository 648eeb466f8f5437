import PipelineLang.Proofs.Arrow.Duplicates
import PipelineLang.Proofs.Symbols.Duplicates

/-! Inference settles a row at one go: where children stand before their parents, a second run finds
every node as its content and its children require, and reports nothing again. On a fresh row, the
first run reports every name that is repeated on one side of a wire or merge, and reports it
once. -/

namespace PipelineLang

namespace Arena

variable {s : Symbols} {a b : Arena} {i j : Nat} {kind : NodeKind} {parent : Option Nat}
  {span : Span}

/-- Children stand before their parents. -/
def Ordered (a : Arena) : Prop := ∀ i < a.size, ∀ c ∈ a.children i, c < i

instance : DecidablePred Ordered :=
  fun a => inferInstanceAs (Decidable (∀ i < a.size, ∀ c ∈ a.children i, c < i))

theorem Ordered.lt_of_shape (h : a.Ordered) (hs : a.shape i = some (kind, parent, span)) :
    ∀ c ∈ kind.children, c < i := by
  have hchildren : a.children i = kind.children := by simp [children, node?_of_shape hs]
  rw [← hchildren]
  exact h i (lt_size_of_shape hs)

/-- The types of a node from its children or from its own content. -/
def typesFor (s : Symbols) (a : Arena) (i : Nat) (kind : NodeKind) : NodeTypes :=
  ((a.combined? i).map CombinedTypes.types).getD (kind.ownTypes s)

theorem typesFor_congr (hs : a.shape i = some (kind, parent, span)) (hshape : b.shape = a.shape)
    (htypes : ∀ c ∈ kind.children, b.types c = a.types c) :
    b.typesFor s i kind = a.typesFor s i kind := by
  have hs' : b.shape i = some (kind, parent, span) := by rw [hshape, hs]
  rw [typesFor, typesFor, combined?_of_shape hs, combined?_of_shape hs']
  cases kind <;> simp_all [NodeKind.children, inputs_eq, outputs_eq]

theorem duplicateFindings_of_open (hs : a.shape i = some (kind, parent, span))
    (h : (a.typesFor s i kind).isKnown = false) : kind.duplicateFindings = [] := by
  rw [typesFor, combined?_of_shape hs] at h
  cases kind with
  | merge | wire | wirePair => cases h
  | _ => rfl

theorem inferNode_of_shape (s : Symbols) (hs : a.shape i = some (kind, parent, span)) :
    a.inferNode s i =
      if (a.types i).isKnown then (a, []) else (a.setTypes i (a.typesFor s i kind),
        kind.duplicateFindings) := by
  have hcombined := combined?_of_shape hs
  simp only [inferNode, node?_of_shape hs, typesFor]
  split
  · rfl
  · cases kind <;> simp [hcombined] <;> rfl

/-- The step at a node leaves it and all others as they are. -/
def Settled (s : Symbols) (a : Arena) (i : Nat) : Prop := a.inferNode s i = (a, [])

theorem settled_of_none (h : a.shape i = none) : Settled s a i := by
  have hnone : a.node? i = none := by simpa [shape] using h
  simp [Settled, inferNode, hnone]

theorem settled_iff (hs : a.shape i = some (kind, parent, span)) :
    Settled s a i ↔
      (a.types i).isKnown = true ∨
        a.types i = a.typesFor s i kind ∧ kind.duplicateFindings = [] := by
  rw [Settled, inferNode_of_shape s hs]
  by_cases hknown : (a.types i).isKnown = true
  · simp [hknown]
  · simp only [hknown, Bool.false_eq_true, if_false, false_or, Prod.mk.injEq]
    refine and_congr_left fun _ => ⟨fun h => ?_, fun h => ?_⟩
    · rw [← types_setTypes_self (a.typesFor s i kind) (lt_size_of_shape hs), h]
    · rw [← h, setTypes_types]

theorem settled_inferNode (h : a.Ordered) (i : Nat) : Settled s (a.inferNode s i).1 i := by
  have hsame := sameOutside_inferNode s a i
  cases hs : a.shape i with
  | none => exact settled_of_none (by rw [hsame.shape, hs])
  | some shape =>
    obtain ⟨kind, parent, span⟩ := shape
    have hs' : (a.inferNode s i).1.shape i = some (kind, parent, span) := by rw [hsame.shape, hs]
    have hstep := inferNode_of_shape s hs
    rw [settled_iff hs']
    by_cases hknown : (a.types i).isKnown = true
    · rw [if_pos hknown] at hstep
      exact .inl (by rw [hstep]; exact hknown)
    · rw [if_neg hknown] at hstep
      have htypes : (a.inferNode s i).1.types i = a.typesFor s i kind := by
        rw [hstep]
        exact types_setTypes_self _ (lt_size_of_shape hs)
      have hfor : (a.inferNode s i).1.typesFor s i kind = a.typesFor s i kind :=
        typesFor_congr hs hsame.shape fun c hc => hsame.types c (.inl (h.lt_of_shape hs c hc))
      rw [htypes, hfor]
      cases hopen : (a.typesFor s i kind).isKnown with
      | true => exact .inl rfl
      | false => exact .inr ⟨rfl, duplicateFindings_of_open hs hopen⟩

theorem Settled.later (h : Settled s a i) (hordered : a.Ordered) (hij : i < j) :
    Settled s (a.inferNode s j).1 i := by
  have hsame := sameOutside_inferNode s a j
  cases hs : a.shape i with
  | none => exact settled_of_none (by rw [hsame.shape, hs])
  | some shape =>
    obtain ⟨kind, parent, span⟩ := shape
    have hs' : (a.inferNode s j).1.shape i = some (kind, parent, span) := by rw [hsame.shape, hs]
    have hfor : (a.inferNode s j).1.typesFor s i kind = a.typesFor s i kind :=
      typesFor_congr hs hsame.shape fun c hc => hsame.types c
        (.inl (by have := hordered.lt_of_shape hs c hc; omega))
    rw [settled_iff hs', hsame.types i (.inl hij), hfor]
    exact (settled_iff hs).mp h

theorem sameShape_sweep (s : Symbols) (a : Arena) (places : List Nat) :
    (sweep (inferNode s) a places).1.shape = a.shape ∧
    (sweep (inferNode s) a places).1.size = a.size := by
  induction places generalizing a with
  | nil => exact ⟨rfl, rfl⟩
  | cons i places ih =>
    have hsame := sameOutside_inferNode s a i
    exact ⟨(ih _).1.trans hsame.shape, (ih _).2.trans hsame.size⟩

theorem Ordered.congr (h : a.Ordered) (hshape : b.shape = a.shape) : b.Ordered := by
  intro i _ c hc
  cases hs : a.shape i with
  | none =>
    have hnone : b.node? i = none := by simpa [shape] using (congrFun hshape i).trans hs
    simp [children, hnone] at hc
  | some shape =>
    obtain ⟨kind, parent, span⟩ := shape
    have hs' : b.shape i = some (kind, parent, span) := by rw [hshape, hs]
    simp only [children, node?_of_shape hs'] at hc
    exact h.lt_of_shape hs c hc

theorem settled_sweep (h : a.Ordered) (n : Nat) :
    ∀ i < n, Settled s (sweep (inferNode s) a (List.range' 0 n)).1 i := by
  induction n with
  | zero => exact fun i hi => absurd hi (Nat.not_lt_zero i)
  | succ n ih =>
    have hordered := h.congr (sameShape_sweep s a (List.range' 0 n)).1
    rw [range'_one, sweep_append]
    intro i hi
    simp only [sweep, Nat.zero_add]
    rcases Nat.lt_succ_iff_lt_or_eq.mp hi with hlt | rfl
    · exact (ih i hlt).later hordered hlt
    · exact settled_inferNode hordered i

theorem sweep_of_settled {places : List Nat} (h : ∀ i ∈ places, Settled s a i) :
    sweep (inferNode s) a places = (a, []) := by
  induction places with
  | nil => rfl
  | cons i places ih =>
    obtain ⟨hi, hplaces⟩ := List.forall_mem_cons.mp h
    rw [sweep, hi]
    simp [ih hplaces]

theorem infer_infer (h : a.Ordered) (s : Symbols) :
    (a.infer s).1.infer s = ((a.infer s).1, []) := by
  rw [infer_eq_sweep s a, infer_eq_sweep]
  refine sweep_of_settled fun i hi => ?_
  rw [(sameShape_sweep s a _).2, List.mem_range'_1] at hi
  exact settled_sweep h a.size i (by omega)

theorem findings_sweep (s : Symbols) {before after : List ArrowNode}
    (ha : a.nodes = before ++ after) (hfresh : ∀ node ∈ after, node.types = .unknown) :
    (sweep (inferNode s) a (List.range' before.length after.length)).2 =
      after.flatMap fun node => node.kind.duplicateFindings := by
  induction after generalizing a before with
  | nil => rfl
  | cons node after ih =>
    obtain ⟨hunknown, hfresh⟩ := List.forall_mem_cons.mp hfresh
    have hnode : a.node? before.length = some node := by simp [node?, ha]
    have hs : a.shape before.length = some (node.kind, node.parent, node.span) := by
      simp [shape, hnode, ArrowNode.shape]
    have htypes : a.types before.length = .unknown := by simp [types, hnode, hunknown]
    have hstep := inferNode_of_shape s hs
    rw [htypes, if_neg (by decide)] at hstep
    have hnodes : (a.inferNode s before.length).1.nodes =
        (before ++ [{ node with types := a.typesFor s before.length node.kind }]) ++ after := by
      rw [hstep, setTypes, ha, List.modify_eq_take_drop]
      simp
    have hrest := ih hnodes hfresh
    rw [List.length_append, List.length_singleton] at hrest
    rw [List.length_cons, List.range'_succ, sweep, List.flatMap_cons, hrest, hstep]

end Arena

/-- The names that mappings read. -/
def Mapping.sources (entries : List Mapping) : List Ident :=
  entries.filterMap fun m => m.source.ident?

/-- The names under which values are passed on; what goes to `_` is not. -/
def passedOn (targets : List Ident) : List Ident := targets.filter fun id => id.name != "_"

namespace Arrow

/-- The sides of all wires and merges of an expression, in the order of the text. -/
def sides : Arrow → List (MappingSide × List Ident)
  | compose left right _ | pairUp left right _ | fanOut left right _ | choose _ left right _ =>
    left.sides ++ right.sides
  | first inner _ | second inner _ | paren inner _ => inner.sides
  | wire entries _ =>
    [(.wireInput, Mapping.sources entries), (.wireOutput, passedOn (entries.map Mapping.target))]
  | wirePair top bottom _ =>
    [(.pairTopInput, Mapping.sources top), (.pairTopOutput, passedOn (top.map Mapping.target)),
     (.pairBottomInput, Mapping.sources bottom),
     (.pairBottomOutput, passedOn (bottom.map Mapping.target))]
  | merge entries _ =>
    [(.mergeTop, entries.filterMap fun m => m.source.top?),
     (.mergeBottom, entries.filterMap fun m => m.source.bottom?),
     (.mergeOutput, passedOn (entries.map MergeMapping.target))]
  | use _ _ | split _ | failed _ => []

theorem flatMap_sides_layOut (e : Arrow) (base : Nat) (parent : Option Nat) :
    ((e.layOut base parent).flatMap fun node => node.kind.sides) = e.sides := by
  induction e generalizing base parent with
  | compose _ _ _ ihl ihr | pairUp _ _ _ ihl ihr | fanOut _ _ _ ihl ihr | choose _ _ _ _ ihl ihr =>
    rw [layOut_eq, partsAt, List.flatMap_append, List.flatMap_append, ihl, ihr]
    exact List.append_nil _
  | first _ _ ih | second _ _ ih | paren _ _ ih =>
    rw [layOut_eq, partsAt, List.flatMap_append, ih]
    exact List.append_nil _
  | split _ | use _ _ | failed _ => rfl
  | merge _ _ | wire _ _ | wirePair _ _ _ => rfl

end Arrow

namespace Arena

def repeated (side : MappingSide) (id : Ident) : Finding :=
  ⟨id.span, .duplicateMapping side id.name⟩

theorem findings_infer_ofArrow (s : Symbols) (e : Arrow) :
    ((ofArrow e).infer s).2 = e.sides.flatMap fun x => (duplicates x.2).map (repeated x.1) := by
  have hfresh : ∀ node ∈ e.layOut 0 none, node.types = .unknown :=
    fun node hnode => Arrow.types_of_mem_layOut hnode
  have hnodes : (ofArrow e).nodes = [] ++ e.layOut 0 none := nodes_ofArrow e
  have hfindings := findings_sweep s hnodes hfresh
  rw [Arrow.length_layOut, ← size_ofArrow] at hfindings
  rw [infer_eq_sweep, ← e.flatMap_sides_layOut 0 none, List.flatMap_assoc]
  exact hfindings

/-- A second run of inference changes no types and reports nothing. On a fresh row, what the first
run reports are the names that are repeated on a side of a wire or merge, each of them once and at
one of its places. -/
theorem infer_idempotent (s : Symbols) (a : Arena) (h : a.Ordered) (e : Arrow) :
    (a.infer s).1.infer s = ((a.infer s).1, []) ∧
    ((ofArrow e).infer s).2 = (e.sides.flatMap fun x => (duplicates x.2).map (repeated x.1)) ∧
    ∀ x ∈ e.sides, (duplicates x.2).Sublist x.2 ∧ ∀ name,
      ((duplicates x.2).map Ident.name).count name =
        if 2 ≤ (x.2.map Ident.name).count name then 1 else 0 :=
  ⟨infer_infer h s, findings_infer_ofArrow s e,
    fun x _ => ⟨sublist_duplicatesAfter [] x.2, count_duplicates x.2⟩⟩

/-- A split in front of a wire that reads a name twice and passes one on three times, and a merge
that reads a name of either half twice. -/
def stuttered : Arrow :=
  let id (name : String) (start : Nat) : Ident := ⟨name, ⟨start, start + 1⟩⟩
  .compose (.split (.endOf 0))
    (.compose
      (.wire [⟨.ident (id "a" 0), id "x" 1, .endOf 0⟩, ⟨.ident (id "b" 2), id "x" 3, .endOf 0⟩,
        ⟨.state (id "a" 4), id "x" 5, .endOf 0⟩, ⟨.ident (id "c" 6), id "_" 7, .endOf 0⟩,
        ⟨.ident (id "d" 8), id "_" 9, .endOf 0⟩] (.endOf 0))
      (.merge [⟨.top (id "t" 10), id "y" 11, .endOf 0⟩, ⟨.top (id "t" 12), id "_" 13, .endOf 0⟩,
        ⟨.bottom (id "t" 14), id "z" 15, .endOf 0⟩, ⟨.bottom (id "b" 16), id "y" 17, .endOf 0⟩,
        ⟨.bottom (id "b" 18), id "_" 19, .endOf 0⟩] (.endOf 0)) (.endOf 0)) (.endOf 0)

/-- Its row with inputs noted at the split, which inference cannot know by itself. -/
def halfTyped : Arena := (ofArrow stuttered).setTypes 0 ⟨some (.flat (.ofList ["q"])), none⟩

theorem infer_idempotent_halfTyped :
    let s : Symbols := ⟨"stuttered", [], [], [], .empty, .flat (.ofList ["q"]),
      .flat (.ofList ["x"]), none, none⟩
    halfTyped.Ordered ∧ (halfTyped.infer s).1.types 0 = .unknown ∧
      (halfTyped.infer s).1.infer s = ((halfTyped.infer s).1, []) ∧
      ((ofArrow stuttered).infer s).2 =
        [⟨⟨4, 5⟩, .duplicateMapping .wireInput "a"⟩, ⟨⟨3, 4⟩, .duplicateMapping .wireOutput "x"⟩,
         ⟨⟨12, 13⟩, .duplicateMapping .mergeTop "t"⟩,
         ⟨⟨18, 19⟩, .duplicateMapping .mergeBottom "b"⟩,
         ⟨⟨17, 18⟩, .duplicateMapping .mergeOutput "y"⟩] := by
  have hordered : halfTyped.Ordered := by decide
  obtain ⟨hagain, hfindings, -⟩ := infer_idempotent _ halfTyped hordered stuttered
  exact ⟨hordered, by decide +kernel, hagain, hfindings.trans (by decide)⟩

end Arena

end PipelineLang
