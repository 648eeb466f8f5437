import PipelineLang.Proofs.Arrow.Idempotence

/-!
Flattening loses nothing. The nodes of an expression form one tree: children stand before their
parents, the last node is the root, and any other node is a child of just the node that it names as
its parent. The expression can be read back from the root, and recursions that go up or down the
tree come to an end.
-/

namespace PipelineLang

namespace Arrow

/-- The parts of an expression that is laid out from `base` on, each with the place from which it is
laid out. -/
def partsFrom (base : Nat) : Arrow → List (Nat × Arrow)
  | compose left right _ | pairUp left right _ | fanOut left right _ | choose _ left right _ =>
    [(base, left), (base + left.size, right)]
  | first inner _ | second inner _ | paren inner _ => [(base, inner)]
  | split _ | merge _ _ | wire _ _ | wirePair _ _ _ | use _ _ | failed _ => []

variable {base : Nat} {e : Arrow}

theorem Laid.parts {shape : Nat → Option NodeShape} {parent : Option Nat}
    (h : e.Laid shape base parent) :
    ∀ x ∈ e.partsFrom base, x.2.Laid shape x.1 (some (base + e.size - 1)) := by
  cases e with
  | compose left right | pairUp left right | fanOut left right | choose _ left right =>
    have hlast : base + (left.size + right.size + 1) - 1 = base + left.size + right.size := by omega
    rw [size, hlast]
    exact List.forall_mem_cons.mpr ⟨h.2.1, List.forall_mem_singleton.mpr h.2.2⟩
  | first inner | second inner | paren inner => exact List.forall_mem_singleton.mpr h.2
  | split | merge | wire | wirePair | use | failed => exact List.forall_mem_nil _

theorem children_kindAt (base : Nat) (e : Arrow) :
    (e.kindAt base).children = (e.partsFrom base).map fun x => x.1 + x.2.size - 1 := by
  cases e <;> rfl

theorem bounds_of_part : ∀ x ∈ e.partsFrom base, base ≤ x.1 ∧ x.1 + x.2.size < base + e.size := by
  cases e with
  | compose left right | pairUp left right | fanOut left right | choose _ left right =>
    have hright := right.size_pos
    refine List.forall_mem_cons.mpr ⟨?_, List.forall_mem_singleton.mpr ?_⟩ <;>
      simp only [size] <;> omega
  | first inner | second inner | paren inner =>
    refine List.forall_mem_singleton.mpr ?_
    simp only [size]
    omega
  | split | merge | wire | wirePair | use | failed => exact List.forall_mem_nil _

theorem exists_part {i : Nat} (hbase : base ≤ i) (hi : i + 1 < base + e.size) :
    ∃ x ∈ e.partsFrom base, x.1 ≤ i ∧ i < x.1 + x.2.size := by
  cases e with
  | compose left right | pairUp left right | fanOut left right | choose _ left right =>
    rw [size] at hi
    by_cases hleft : i < base + left.size
    · exact ⟨(base, left), List.mem_cons_self, hbase, hleft⟩
    · refine ⟨(base + left.size, right), List.mem_cons_of_mem _ List.mem_cons_self, ?_, ?_⟩ <;>
        simp only <;> omega
  | first inner | second inner | paren inner =>
    rw [size] at hi
    refine ⟨(base, inner), List.mem_cons_self, hbase, ?_⟩
    simp only
    omega
  | split | merge | wire | wirePair | use | failed =>
    rw [size] at hi
    omega

theorem nodup_children_kindAt (base : Nat) (e : Arrow) : (e.kindAt base).children.Nodup := by
  cases e with
  | compose left right | pairUp left right | fanOut left right | choose _ left right =>
    have hleft := left.size_pos
    have hright := right.size_pos
    simp only [kindAt, NodeKind.children, List.nodup_cons, List.mem_singleton, List.not_mem_nil,
      not_false_eq_true, List.nodup_nil, and_true]
    omega
  | first inner | second inner | paren inner => exact List.nodup_singleton _
  | split | merge | wire | wirePair | use | failed => exact List.nodup_nil

theorem sizeOf_part : ∀ x ∈ e.partsFrom base, x.2.size < e.size := by
  intro x hx
  have := bounds_of_part x hx
  omega

end Arrow

namespace Arena

variable {a : Arena} {i c p base : Nat} {e : Arrow} {parent : Option Nat}

def parent? (a : Arena) (i : Nat) : Option Nat := (a.node? i).bind ArrowNode.parent

theorem parent?_eq_shape (a : Arena) (i : Nat) :
    a.parent? i = (a.shape i).bind fun shape => shape.2.1 := by
  simp only [parent?, shape, Option.bind_map]
  rfl

theorem children_eq_shape (a : Arena) (i : Nat) :
    a.children i = ((a.shape i).map fun shape => shape.1.children).getD [] := by
  unfold children shape
  cases a.node? i <;> rfl

/-- The nodes form one tree whose root is the last of them, children before their parents. A node is
a child of the node that it names as its parent, once, and of no other. -/
structure IsTree (a : Arena) : Prop where
  nonempty : 0 < a.size
  ordered : a.Ordered
  root : ∀ i < a.size, a.parent? i = none ↔ i = a.root
  child : ∀ c p, c ∈ a.children p ↔ a.parent? c = some p
  once : ∀ i, (a.children i).Nodup

theorem children_of_laid (h : e.Laid a.shape base parent) :
    a.children (base + e.size - 1) = (e.partsFrom base).map fun x => x.1 + x.2.size - 1 := by
  rw [children_eq_shape, h.root, ← Arrow.children_kindAt]
  rfl

theorem parent?_of_laid (h : e.Laid a.shape base parent) :
    a.parent? (base + e.size - 1) = parent := by
  rw [parent?_eq_shape, h.root]
  rfl

theorem forall_of_laid {P : Nat → Prop}
    (hP : ∀ (base : Nat) (parent : Option Nat) (e : Arrow), e.Laid a.shape base parent →
      P (base + e.size - 1))
    (h : e.Laid a.shape base parent) (hbase : base ≤ i) (hi : i < base + e.size) : P i := by
  induction hn : e.size using Nat.strong_induction_on generalizing e base parent with
  | h n ih =>
    by_cases hlast : i = base + e.size - 1
    · exact hlast ▸ hP base parent e h
    · obtain ⟨x, hx, hstart, hstop⟩ := Arrow.exists_part hbase (by omega : i + 1 < base + e.size)
      exact ih x.2.size (hn ▸ Arrow.sizeOf_part x hx) (h.parts x hx) hstart hstop rfl

theorem parent?_of_mem_children (h : e.Laid a.shape base parent) (hbase : base ≤ p)
    (hp : p < base + e.size) :
    ∀ c ∈ a.children p, c < p ∧ a.parent? c = some p := by
  refine forall_of_laid (P := fun p => ∀ c ∈ a.children p, c < p ∧ a.parent? c = some p) ?_ h hbase
    hp
  intro base parent e h c hc
  rw [children_of_laid h] at hc
  obtain ⟨x, hx, rfl⟩ := List.mem_map.mp hc
  have hbounds := Arrow.bounds_of_part x hx
  have hpos := x.2.size_pos
  exact ⟨by omega, parent?_of_laid (h.parts x hx)⟩

theorem exists_parent (h : e.Laid a.shape base parent) (hbase : base ≤ i)
    (hi : i + 1 < base + e.size) :
    ∃ p, a.parent? i = some p ∧ i ∈ a.children p := by
  induction hn : e.size using Nat.strong_induction_on generalizing e base parent with
  | h n ih =>
    obtain ⟨x, hx, hstart, hstop⟩ := Arrow.exists_part hbase hi
    by_cases hlast : i = x.1 + x.2.size - 1
    · refine ⟨base + e.size - 1, hlast ▸ parent?_of_laid (h.parts x hx), ?_⟩
      rw [children_of_laid h, hlast]
      exact List.mem_map_of_mem hx
    · exact ih x.2.size (hn ▸ Arrow.sizeOf_part x hx) (h.parts x hx) hstart (by omega) rfl

section OfArrow

variable (e : Arrow)

theorem shape_ofArrow_eq_none (hi : ¬ i < (ofArrow e).size) : (ofArrow e).shape i = none := by
  rw [shape, node?, List.getElem?_eq_none (Nat.not_lt.mp hi), Option.map_none]

theorem parent?_root : (ofArrow e).parent? (ofArrow e).root = none := by
  have hlast := parent?_of_laid (laid_ofArrow e)
  rwa [Nat.zero_add, ← size_ofArrow e] at hlast

theorem exists_parent_of_ne_root (hi : i < (ofArrow e).size) (hne : i ≠ (ofArrow e).root) :
    ∃ p, (ofArrow e).parent? i = some p ∧ i ∈ (ofArrow e).children p := by
  have hsize := size_ofArrow e
  rw [root] at hne
  exact exists_parent (laid_ofArrow e) (Nat.zero_le i) (by omega)

theorem child_of_mem_children :
    ∀ c ∈ (ofArrow e).children p, c < p ∧ (ofArrow e).parent? c = some p := by
  intro c hc
  by_cases hp : p < (ofArrow e).size
  · have hsize := size_ofArrow e
    exact parent?_of_mem_children (laid_ofArrow e) (Nat.zero_le p) (by omega) c hc
  · rw [children_eq_shape, shape_ofArrow_eq_none e hp] at hc
    cases hc

theorem mem_children_of_parent? (h : (ofArrow e).parent? c = some p) :
    c ∈ (ofArrow e).children p := by
  by_cases hc : c < (ofArrow e).size
  · have hne : c ≠ (ofArrow e).root := by
      rintro rfl
      rw [parent?_root] at h
      cases h
    obtain ⟨q, hq, hmem⟩ := exists_parent_of_ne_root e hc hne
    rw [h, Option.some.injEq] at hq
    exact hq ▸ hmem
  · rw [parent?_eq_shape, shape_ofArrow_eq_none e hc] at h
    cases h

theorem nodup_children : ((ofArrow e).children i).Nodup := by
  by_cases hi : i < (ofArrow e).size
  · have hsize := size_ofArrow e
    refine forall_of_laid (P := fun i => ((ofArrow e).children i).Nodup) ?_ (laid_ofArrow e)
      (Nat.zero_le i) (by omega)
    intro base parent e' h
    rw [children_of_laid h, ← Arrow.children_kindAt]
    exact Arrow.nodup_children_kindAt base e'
  · rw [children_eq_shape, shape_ofArrow_eq_none e hi]
    exact List.nodup_nil

theorem isTree_ofArrow : (ofArrow e).IsTree where
  nonempty := by
    have hpos := e.size_pos
    rwa [size_ofArrow]
  ordered := fun i _ c hc => (child_of_mem_children e c hc).1
  root := by
    intro i hi
    constructor
    · intro hnone
      by_contra hne
      obtain ⟨p, hp, -⟩ := exists_parent_of_ne_root e hi hne
      rw [hnone] at hp
      cases hp
    · rintro rfl
      exact parent?_root e
  child := fun c _ => ⟨fun hc => (child_of_mem_children e c hc).2, mem_children_of_parent? e⟩
  once := fun _ => nodup_children e

end OfArrow

/-- The expression at a node, as far as its children come before it. -/
def expression? (a : Arena) (i : Nat) : Option Arrow :=
  (a.node? i).bind fun node =>
    match node.kind with
    | .compose l r =>
      if l < i ∧ r < i then do return .compose (← a.expression? l) (← a.expression? r) node.span
      else none
    | .pairUp l r =>
      if l < i ∧ r < i then do return .pairUp (← a.expression? l) (← a.expression? r) node.span
      else none
    | .fanOut l r =>
      if l < i ∧ r < i then do return .fanOut (← a.expression? l) (← a.expression? r) node.span
      else none
    | .choose condition l r =>
      if l < i ∧ r < i then
        do return .choose condition (← a.expression? l) (← a.expression? r) node.span
      else none
    | .first c => if c < i then do return .first (← a.expression? c) node.span else none
    | .second c => if c < i then do return .second (← a.expression? c) node.span else none
    | .paren c => if c < i then do return .paren (← a.expression? c) node.span else none
    | .split => some (.split node.span)
    | .merge entries => some (.merge entries node.span)
    | .wire entries => some (.wire entries node.span)
    | .wirePair top bottom => some (.wirePair top bottom node.span)
    | .use component => some (.use component node.span)
    | .failed => some (.failed node.span)
termination_by i

theorem expression?_of_laid (h : e.Laid a.shape base parent) :
    a.expression? (base + e.size - 1) = some e := by
  induction e generalizing base parent with
  | compose left right span ihl ihr
  | pairUp left right span ihl ihr | fanOut left right span ihl ihr
  | choose condition left right span ihl ihr =>
    have hl := ihl h.2.1
    have hr := ihr h.2.2
    have hleft := left.size_pos
    have hright := right.size_pos
    have hlt : base + left.size - 1 < base + (left.size + right.size + 1) - 1 ∧
        base + left.size + right.size - 1 < base + (left.size + right.size + 1) - 1 := by omega
    have hnode := node?_of_shape h.root
    rw [Arrow.size] at hnode ⊢
    rw [expression?, hnode]
    simp only [Option.bind_some, Arrow.kindAt, hlt, and_self, if_true, hl, hr]
    rfl
  | first inner span ih | second inner span ih | paren inner span ih =>
    have hi := ih h.2
    have hpos := inner.size_pos
    have hlt : base + inner.size - 1 < base + (inner.size + 1) - 1 := by omega
    have hnode := node?_of_shape h.root
    rw [Arrow.size] at hnode ⊢
    rw [expression?, hnode]
    simp only [Option.bind_some, Arrow.kindAt, hlt, if_true, hi]
    rfl
  | split | merge | wire | wirePair | use | failed =>
    rw [expression?, node?_of_shape h.root]
    rfl

theorem size_congr {b : Arena} (h : b.shape = a.shape) : b.size = a.size := by
  have hle : ∀ {a b : Arena}, b.shape = a.shape → a.size ≤ b.size := by
    intro a b h
    refine Nat.le_of_not_lt fun hlt => ?_
    have hsome : (a.shape b.size).isSome = true := by
      simp [shape, node?, List.getElem?_eq_getElem (show b.size < a.nodes.length from hlt)]
    obtain ⟨shape, hshape⟩ := Option.isSome_iff_exists.mp hsome
    exact Nat.lt_irrefl _ (lt_size_of_shape (h ▸ hshape))
  exact Nat.le_antisymm (hle h.symm) (hle h)

theorem IsTree.congr {b : Arena} (h : a.IsTree) (hshape : b.shape = a.shape) : b.IsTree := by
  have hsize := size_congr hshape
  have hparent : ∀ i, b.parent? i = a.parent? i := fun i => by
    rw [parent?_eq_shape, parent?_eq_shape, hshape]
  have hchildren : ∀ i, b.children i = a.children i := fun i => by
    rw [children_eq_shape, children_eq_shape, hshape]
  refine ⟨?_, h.ordered.congr hshape, ?_, ?_, ?_⟩
  · rw [hsize]
    exact h.nonempty
  · intro i hi
    have hroot : b.root = a.root := congrArg (· - 1) hsize
    rw [hparent, hroot]
    exact h.root i (hsize ▸ hi)
  · intro c p
    rw [hparent, hchildren]
    exact h.child c p
  · intro i
    rw [hchildren]
    exact h.once i

theorem IsTree.lt_of_parent? (h : a.IsTree) (hp : a.parent? c = some p) : c < p ∧ p < a.size := by
  have hmem := (h.child c p).mpr hp
  have hsize : p < a.size := by
    by_contra hlt
    have hnone : a.node? p = none := List.getElem?_eq_none (Nat.not_lt.mp hlt)
    rw [children, hnone] at hmem
    cases hmem
  exact ⟨h.ordered p hsize c hmem, hsize⟩

theorem IsTree.lt_of_mem_children (h : a.IsTree) (hc : c ∈ a.children p) : c < p :=
  (h.lt_of_parent? ((h.child c p).mp hc)).1

theorem IsTree.wellFounded_up (h : a.IsTree) : WellFounded fun p c => a.parent? c = some p := by
  refine Subrelation.wf (fun {p c} hp => ?_) (measure fun i => a.size - i).wf
  have hlt := h.lt_of_parent? hp
  change a.size - p < a.size - c
  omega

theorem IsTree.wellFounded_down (h : a.IsTree) : WellFounded fun c p => c ∈ a.children p :=
  Subrelation.wf h.lt_of_mem_children Nat.lt_wfRel.wf

open SignalType in
/-- What a node of the kind lets through to its child at `i`, if `around` flows into it. -/
def letThrough (a : Arena) (i : Nat) (around : Option SignalType) : NodeKind → Option SignalType
  | .compose l r => if r = i then a.outputs l else around
  | .pairUp l _ => half? (l = i) around
  | .first _ => half? true around
  | .second _ => half? false around
  | .fanOut _ _ | .choose _ _ _ | .paren _ => around
  | .split | .merge _ | .wire _ | .wirePair _ _ | .use _ | .failed => none

/-- What flows into a node, if `above` tells what flows into the nodes around it. -/
def contextFrom (a : Arena) (declared : SignalType) (above : Nat → Option SignalType) (i : Nat) :
    Option SignalType :=
  (a.parent? i).elim (some declared) fun p =>
    (a.node? p).bind fun node => a.letThrough i ((a.inputs p).or (above p)) node.kind

theorem IsTree.context_eq (h : a.IsTree) (declared : SignalType) (i : Nat) :
    a.context declared i = a.contextFrom declared (a.context declared) i := by
  rw [context, contextFrom, parent?]
  cases hp : (a.node? i).bind ArrowNode.parent with
  | none => rfl
  | some p =>
    have hlt := h.lt_of_parent? hp
    simp only [Option.elim_some, if_pos hlt]
    cases hnode : a.node? p with
    | none => rfl
    | some node =>
      simp only [Option.map_some, Option.bind_some]
      cases node.kind <;> rfl

/-- Does a node fail by itself or by one of its children, if `below` tells so of these? -/
def failureFrom (a : Arena) (below : Nat → Bool) (i : Nat) : Bool :=
  (a.node? i).any fun node =>
    match node.kind with
    | .failed => true
    | .use _ => !node.types.isKnown
    | .compose l r | .pairUp l r | .fanOut l r | .choose _ l r => below l || below r
    | .first c | .second c | .paren c => below c
    | .split | .merge _ | .wire _ | .wirePair _ _ => false

theorem IsTree.holdsFailure_eq (h : a.IsTree) (i : Nat) :
    a.holdsFailure i = a.failureFrom a.holdsFailure i := by
  rw [holdsFailure, failureFrom]
  cases hnode : a.node? i with
  | none => rfl
  | some node =>
    have hlt : ∀ c ∈ node.kind.children, c < i := by
      intro c hc
      refine h.lt_of_mem_children ?_
      rw [children, hnode]
      exact hc
    simp only [Option.any_some]
    cases hkind : node.kind with
    | compose l r | pairUp l r | fanOut l r | choose _ l r =>
      rw [hkind] at hlt
      have hl : l < i := hlt l List.mem_cons_self
      have hr : r < i := hlt r (List.mem_cons_of_mem _ List.mem_cons_self)
      simp [NodeKind.children, hl, hr]
    | first c | second c | paren c =>
      rw [hkind] at hlt
      have hc : c < i := hlt c List.mem_cons_self
      simp [NodeKind.children, hc]
    | split | merge | wire | wirePair | use | failed => rfl

theorem failureFrom_congr {f g : Nat → Bool} (h : ∀ c ∈ a.children i, f c = g c) :
    a.failureFrom f i = a.failureFrom g i := by
  unfold failureFrom
  cases hnode : a.node? i with
  | none => rfl
  | some node =>
    have hbelow : ∀ c ∈ node.kind.children, f c = g c := by
      rw [children, hnode] at h
      exact h
    simp only [Option.any_some]
    cases hkind : node.kind with
    | compose l r | pairUp l r | fanOut l r | choose _ l r =>
      rw [hkind] at hbelow
      simp only [hbelow l List.mem_cons_self, hbelow r (List.mem_cons_of_mem _ List.mem_cons_self)]
    | first c | second c | paren c =>
      rw [hkind] at hbelow
      exact hbelow c List.mem_cons_self
    | split | merge | wire | wirePair | use | failed => rfl

/-- What flows into the nodes is fixed by what their parents let through. -/
theorem IsTree.context_unique (h : a.IsTree) {declared : SignalType} {f : Nat → Option SignalType}
    (hf : ∀ i, f i = a.contextFrom declared f i) : f = a.context declared := by
  funext i
  induction i using h.wellFounded_up.induction with
  | h i ih =>
    rw [hf, h.context_eq, contextFrom, contextFrom]
    cases hp : a.parent? i with
    | none => rfl
    | some p => rw [Option.elim_some, Option.elim_some, ih p hp]

theorem IsTree.holdsFailure_unique (h : a.IsTree) {f : Nat → Bool}
    (hf : ∀ i, f i = a.failureFrom f i) :
    f = a.holdsFailure := by
  funext i
  induction i using h.wellFounded_down.induction with
  | h i ih => rw [hf, h.holdsFailure_eq, failureFrom_congr ih]

/-- Flattening an expression gives as many nodes as the expression has, in the form of a tree, from
whose root the expression is read back. However the nodes are typed later on, going up from a node
and going down from it end, so that what flows into a node and whether there is a failure below it
are fixed by their equations alone. -/
theorem ofArrow_lossless (e : Arrow) :
    (ofArrow e).size = e.size ∧ (ofArrow e).IsTree ∧
    (ofArrow e).expression? (ofArrow e).root = some e ∧
    ∀ a : Arena, a.shape = (ofArrow e).shape →
      (WellFounded fun p c => a.parent? c = some p) ∧
      (WellFounded fun c p => c ∈ a.children p) ∧
      (∀ declared f, f = a.context declared ↔ ∀ i, f i = a.contextFrom declared f i) ∧
      ∀ f, f = a.holdsFailure ↔ ∀ i, f i = a.failureFrom f i := by
  have hread := expression?_of_laid (laid_ofArrow e)
  rw [Nat.zero_add, ← size_ofArrow e] at hread
  refine ⟨size_ofArrow e, isTree_ofArrow e, hread, fun a hshape => ?_⟩
  have htree := (isTree_ofArrow e).congr hshape
  refine ⟨htree.wellFounded_up, htree.wellFounded_down,
    fun declared f => ⟨?_, htree.context_unique⟩, fun f => ⟨?_, htree.holdsFailure_unique⟩⟩
  · rintro rfl
    exact htree.context_eq declared
  · rintro rfl
    exact htree.holdsFailure_eq

end Arena

end PipelineLang
