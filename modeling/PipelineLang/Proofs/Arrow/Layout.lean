import PipelineLang.Arrow.Analysis

/-! Arenas that hold a laid-out expression: where its parts stand, and how the types of its nodes
are read and changed. -/

namespace PipelineLang

variable {i : Nat} {e : Arrow}

namespace Arrow

def size : Arrow → Nat
  | compose left right _ | pairUp left right _ | fanOut left right _ => left.size + right.size + 1
  | first inner _ | second inner _ | paren inner _ => inner.size + 1
  | choose _ onTrue onFalse _ => onTrue.size + onFalse.size + 1
  | split _ | merge _ _ | wire _ _ | wirePair _ _ _ | use _ _ | failed _ => 1

theorem size_pos (e : Arrow) : 0 < e.size := by
  cases e <;> simp [size]

/-- The kind of the last node of an expression that is laid out from `base` on. -/
def kindAt (base : Nat) : Arrow → NodeKind
  | compose left right _ => .compose (base + left.size - 1) (base + left.size + right.size - 1)
  | pairUp left right _ => .pairUp (base + left.size - 1) (base + left.size + right.size - 1)
  | fanOut left right _ => .fanOut (base + left.size - 1) (base + left.size + right.size - 1)
  | choose condition onTrue onFalse _ =>
    .choose condition (base + onTrue.size - 1) (base + onTrue.size + onFalse.size - 1)
  | first inner _ => .first (base + inner.size - 1)
  | second inner _ => .second (base + inner.size - 1)
  | paren inner _ => .paren (base + inner.size - 1)
  | split _ => .split
  | merge entries _ => .merge entries
  | wire entries _ => .wire entries
  | wirePair top bottom _ => .wirePair top bottom
  | use component _ => .use component
  | failed _ => .failed

/-- The nodes of an expression that is laid out from place `base` on, children first. -/
def layOut (base : Nat) (parent : Option Nat) (e : Arrow) : List ArrowNode :=
  (match e with
  | compose left right _ | pairUp left right _ | fanOut left right _ | choose _ left right _ =>
    left.layOut base (some (base + left.size + right.size))
      ++ right.layOut (base + left.size) (some (base + left.size + right.size))
  | first inner _ | second inner _ | paren inner _ => inner.layOut base (some (base + inner.size))
  | split _ | merge _ _ | wire _ _ | wirePair _ _ _ | use _ _ | failed _ => [])
    ++ [⟨e.kindAt base, parent, e.span, .unknown⟩]

end Arrow

abbrev NodeShape : Type := NodeKind × Option Nat × Span

namespace ArrowNode

def shape (node : ArrowNode) : NodeShape := (node.kind, node.parent, node.span)

end ArrowNode

namespace Arrow

variable {base : Nat}

/-- The expression stands in a row of nodes from `base` on, its last node below `parent`. -/
def Laid (shape : Nat → Option NodeShape) (base : Nat) (parent : Option Nat) (e : Arrow) : Prop :=
  shape (base + e.size - 1) = some (e.kindAt base, parent, e.span) ∧
  match e with
  | compose left right _ | pairUp left right _ | fanOut left right _ | choose _ left right _ =>
    left.Laid shape base (some (base + left.size + right.size)) ∧
      right.Laid shape (base + left.size) (some (base + left.size + right.size))
  | first inner _ | second inner _ | paren inner _ =>
    inner.Laid shape base (some (base + inner.size))
  | split _ | merge _ _ | wire _ _ | wirePair _ _ _ | use _ _ | failed _ => True

theorem Laid.root {shape : Nat → Option NodeShape} {parent : Option Nat}
    (h : e.Laid shape base parent) :
    shape (base + e.size - 1) = some (e.kindAt base, parent, e.span) := by
  cases e <;> exact h.1

def parts : Arrow → List Arrow
  | compose left right _ | pairUp left right _ | fanOut left right _ | choose _ left right _ =>
    [left, right]
  | first inner _ | second inner _ | paren inner _ => [inner]
  | split _ | merge _ _ | wire _ _ | wirePair _ _ _ | use _ _ | failed _ => []

theorem parts_induction {P : Arrow → Prop} (step : ∀ e : Arrow, (∀ p ∈ e.parts, P p) → P e)
    (e : Arrow) : P e := by
  induction e with
  | compose _ _ _ ihl ihr | pairUp _ _ _ ihl ihr | fanOut _ _ _ ihl ihr | choose _ _ _ _ ihl ihr =>
    exact step _ (by simpa [parts] using ⟨ihl, ihr⟩)
  | first _ _ ih | second _ _ ih | paren _ _ ih => exact step _ (by simpa [parts] using ih)
  | split | merge | wire | wirePair | use | failed => exact step _ (by simp [parts])

def sizeAll : List Arrow → Nat
  | [] => 0
  | e :: es => e.size + sizeAll es

theorem size_eq (e : Arrow) : e.size = sizeAll e.parts + 1 := by
  cases e <;> rfl

def LaidAll (shape : Nat → Option NodeShape) (parent : Nat) : Nat → List Arrow → Prop
  | _, [] => True
  | base, e :: es => e.Laid shape base (some parent) ∧ LaidAll shape parent (base + e.size) es

theorem Laid.laidAll {shape : Nat → Option NodeShape} {parent : Option Nat}
    (h : e.Laid shape base parent) : LaidAll shape (base + sizeAll e.parts) base e.parts := by
  cases e with
  | compose | pairUp | fanOut | choose =>
    simp only [Arrow.parts, sizeAll, LaidAll, Nat.add_zero, ← Nat.add_assoc]
    exact ⟨h.2.1, h.2.2, trivial⟩
  | first | second | paren => exact ⟨h.2, trivial⟩
  | split | merge | wire | wirePair | use | failed => trivial

def partsAt (base : Nat) : Arrow → List ArrowNode
  | compose left right _ | pairUp left right _ | fanOut left right _ | choose _ left right _ =>
    left.layOut base (some (base + left.size + right.size))
      ++ right.layOut (base + left.size) (some (base + left.size + right.size))
  | first inner _ | second inner _ | paren inner _ => inner.layOut base (some (base + inner.size))
  | split _ | merge _ _ | wire _ _ | wirePair _ _ _ | use _ _ | failed _ => []

theorem layOut_eq (e : Arrow) (base : Nat) (parent : Option Nat) :
    e.layOut base parent = e.partsAt base ++ [⟨e.kindAt base, parent, e.span, .unknown⟩] := by
  cases e <;> rfl

theorem length_layOut (e : Arrow) (base : Nat) (parent : Option Nat) :
    (e.layOut base parent).length = e.size := by
  induction e generalizing base parent with
  | compose _ _ _ ihl ihr | pairUp _ _ _ ihl ihr | fanOut _ _ _ ihl ihr | choose _ _ _ _ ihl ihr =>
    rw [layOut_eq]
    simp [partsAt, size, ihl, ihr, Nat.add_assoc]
  | first _ _ ih | second _ _ ih | paren _ _ ih =>
    rw [layOut_eq]
    simp [partsAt, size, ih]
  | split | merge | wire | wirePair | use | failed => rfl

theorem length_partsAt (e : Arrow) (base : Nat) : (e.partsAt base).length + 1 = e.size := by
  rw [← length_layOut e base none, layOut_eq]
  simp

theorem last_eq_length (before : List ArrowNode) (e : Arrow) (base : Nat) :
    before.length + e.size - 1 = (before ++ e.partsAt base).length := by
  have hlen := e.length_partsAt base
  rw [List.length_append]
  omega

/-- The last node of an expression gets a parent when its parent is added. -/
theorem modify_layOut (before after : List ArrowNode) (e : Arrow) (base here : Nat) :
    (before ++ (e.layOut base none ++ after)).modify (before.length + e.size - 1) (.childOf here) =
      before ++ (e.layOut base (some here) ++ after) := by
  have hsplit : ∀ node, before ++ ((e.partsAt base ++ [node]) ++ after) =
      (before ++ e.partsAt base) ++ node :: after := by simp
  rw [layOut_eq, layOut_eq, last_eq_length before e base, hsplit, hsplit, List.modify_eq_take_drop,
    List.take_left, List.drop_left]
  rfl

/-- Adding an expression to a row lays it out behind the others, and gives the place of its last
node. -/
def Lowers (e : Arrow) : Prop :=
  ∀ nodes, e.lower.run nodes = pure (nodes.length + e.size - 1, nodes ++ e.layOut nodes.length none)

section Lower

variable {left right inner : Arrow}

theorem lowers_two {kind : Nat → Nat → NodeKind} (hkind : ∀ l r, (kind l r).children = [l, r])
    (hleft : left.Lowers) (hright : right.Lowers) (span : Span) (nodes : List ArrowNode) :
    let here := nodes.length + left.size + right.size
    StateT.run (do pushNode (kind (← left.lower) (← right.lower)) span) nodes =
      (pure (here, nodes ++ (left.layOut nodes.length (some here)
        ++ right.layOut (nodes.length + left.size) (some here)
        ++ [⟨kind (nodes.length + left.size - 1) (here - 1), none, span, .unknown⟩])) : Id _) := by
  intro here
  let last : ArrowNode := ⟨kind (nodes.length + left.size - 1) (here - 1), none, span, .unknown⟩
  have hl := modify_layOut nodes (right.layOut (nodes.length + left.size) none ++ [last]) left
    nodes.length here
  have hr := modify_layOut (nodes ++ left.layOut nodes.length (some here)) [last] right
    (nodes.length + left.size) here
  rw [List.length_append, length_layOut, List.append_assoc, List.append_assoc] at hr
  simp [hleft _, hright _, pushNode, hkind, length_layOut, here, last, hl, hr]

theorem lowers_one {kind : Nat → NodeKind} (hkind : ∀ i, (kind i).children = [i])
    (hinner : inner.Lowers) (span : Span) (nodes : List ArrowNode) :
    let here := nodes.length + inner.size
    StateT.run (do pushNode (kind (← inner.lower)) span) nodes =
      (pure (here, nodes ++ (inner.layOut nodes.length (some here)
        ++ [⟨kind (here - 1), none, span, .unknown⟩])) : Id _) := by
  intro here
  have hi := modify_layOut nodes [⟨kind (here - 1), none, span, .unknown⟩] inner nodes.length here
  simp [hinner _, pushNode, hkind, length_layOut, here, hi]

end Lower

/-- The loop that adds nodes and then names their parents gives the nodes as they are laid out. -/
theorem lowers (e : Arrow) : e.Lowers := by
  intro nodes
  induction e generalizing nodes with
  | compose left right span ihl ihr
  | pairUp left right span ihl ihr | fanOut left right span ihl ihr
  | choose condition left right span ihl ihr =>
    have hsize : nodes.length + (left.size + right.size + 1) - 1 =
        nodes.length + left.size + right.size := by omega
    rw [lower, size, hsize]
    exact lowers_two (fun _ _ => rfl) ihl ihr span nodes
  | first inner span ih | second inner span ih | paren inner span ih =>
    rw [lower]
    exact lowers_one (fun _ => rfl) ih span nodes
  | split | merge | wire | wirePair | use | failed => rfl

theorem types_of_mem_layOut {parent : Option Nat} {node : ArrowNode}
    (h : node ∈ e.layOut base parent) : node.types = .unknown := by
  induction e generalizing base parent with
  | compose _ _ _ ihl ihr | pairUp _ _ _ ihl ihr | fanOut _ _ _ ihl ihr | choose _ _ _ _ ihl ihr =>
    rw [layOut_eq, partsAt, List.mem_append, List.mem_append, List.mem_singleton] at h
    rcases h with (h | h) | rfl
    · exact ihl h
    · exact ihr h
    · rfl
  | first _ _ ih | second _ _ ih | paren _ _ ih =>
    rw [layOut_eq, partsAt, List.mem_append, List.mem_singleton] at h
    rcases h with h | rfl
    · exact ih h
    · rfl
  | split | merge | wire | wirePair | use | failed =>
    rw [layOut_eq, partsAt, List.nil_append, List.mem_singleton] at h
    rw [h]

theorem shape_root (e : Arrow) (parent : Option Nat) {nodes pre post : List ArrowNode}
    (hpre : pre.length = base) (h : nodes = pre ++ (e.layOut base parent ++ post)) :
    nodes[base + e.size - 1]?.map ArrowNode.shape = some (e.kindAt base, parent, e.span) := by
  rw [h, layOut_eq, List.append_assoc, ← List.append_assoc, ← hpre, last_eq_length pre e pre.length]
  simp [ArrowNode.shape]

theorem laid_layOut (e : Arrow) (parent : Option Nat) {nodes pre post : List ArrowNode}
    (hpre : pre.length = base) (h : nodes = pre ++ (e.layOut base parent ++ post)) :
    e.Laid (fun i => nodes[i]?.map ArrowNode.shape) base parent := by
  induction e generalizing base parent pre post with
  | compose left right _ ihl ihr | pairUp left right _ ihl ihr | fanOut left right _ ihl ihr
  | choose _ left right _ ihl ihr =>
    refine ⟨shape_root _ parent hpre h, ?_⟩
    rw [layOut_eq, partsAt, List.append_assoc, List.append_assoc] at h
    refine ⟨ihl _ hpre h, ihr _ ?_ (h.trans (List.append_assoc ..).symm)⟩
    rw [List.length_append, length_layOut, hpre]
  | first _ _ ih | second _ _ ih | paren _ _ ih =>
    refine ⟨shape_root _ parent hpre h, ?_⟩
    rw [layOut_eq, partsAt, List.append_assoc] at h
    exact ih _ hpre h
  | split | merge | wire | wirePair | use | failed => exact ⟨shape_root _ parent hpre h, trivial⟩

end Arrow

/-- The values of `f` from `base` on are those of the row. -/
def Follows {α : Type} (f : Nat → α) (base : Nat) (row : List α) : Prop :=
  ∀ k, (h : k < row.length) → f (base + k) = row[k]

namespace Follows

variable {α : Type} {f : Nat → α} {base : Nat} {row row' : List α}

theorem append_iff : Follows f base (row ++ row') ↔
    Follows f base row ∧ Follows f (base + row.length) row' := by
  constructor
  · intro h
    refine ⟨fun k hk => ?_, fun k hk => ?_⟩
    · rw [h k (by simp; omega), List.getElem_append_left hk]
    · rw [Nat.add_assoc, h (row.length + k) (by simp; omega), List.getElem_append_right (by omega)]
      simp
  · rintro ⟨h, h'⟩ k hk
    by_cases hlt : k < row.length
    · rw [h k hlt, List.getElem_append_left hlt]
    · rw [List.getElem_append_right (by omega), ← h' (k - row.length) (by simp at hk; omega)]
      congr 1
      omega

theorem singleton_iff {x : α} : Follows f base [x] ↔ f base = x :=
  ⟨fun h => h 0 (by simp), fun h k hk => by
    obtain rfl : k = 0 := by simpa using hk
    simpa using h⟩

end Follows

namespace Arena

def shape (a : Arena) (i : Nat) : Option NodeShape := (a.node? i).map ArrowNode.shape

theorem nodes_ofArrow (e : Arrow) : (ofArrow e).nodes = e.layOut 0 none :=
  congrArg Prod.snd (e.lowers [])

theorem laid_ofArrow (e : Arrow) : e.Laid (ofArrow e).shape 0 none :=
  e.laid_layOut none List.length_nil ((nodes_ofArrow e).trans (List.append_nil _).symm)

theorem size_ofArrow (e : Arrow) : (ofArrow e).size = e.size := by
  rw [size, nodes_ofArrow, e.length_layOut]

theorem types_ofArrow (e : Arrow) (i : Nat) : (ofArrow e).types i = .unknown := by
  cases h : (ofArrow e).node? i with
  | none => simp [types, h]
  | some node =>
    simp only [types, h]
    rw [node?, nodes_ofArrow] at h
    exact Arrow.types_of_mem_layOut (List.mem_of_getElem? h)

theorem node?_of_shape {a : Arena} {kind : NodeKind} {parent : Option Nat} {span : Span}
    (h : a.shape i = some (kind, parent, span)) :
    a.node? i = some ⟨kind, parent, span, a.types i⟩ := by
  obtain ⟨node, hn, hs⟩ := Option.map_eq_some_iff.mp h
  obtain ⟨rfl, rfl, rfl⟩ : node.kind = kind ∧ node.parent = parent ∧ node.span = span := by
    simpa [ArrowNode.shape] using hs
  simp [hn, types]

theorem lt_size_of_shape {a : Arena} {shape : NodeShape} (h : a.shape i = some shape) :
    i < a.size := by
  obtain ⟨node, hn, -⟩ := Option.map_eq_some_iff.mp h
  exact (List.getElem?_eq_some_iff.mp hn).1

@[simp] theorem shape_setTypes (a : Arena) (i : Nat) (t : NodeTypes) :
    (a.setTypes i t).shape = a.shape := by
  funext j
  simp only [shape, setTypes, node?, List.getElem?_modify]
  cases a.nodes[j]? with
  | none => rfl
  | some node => by_cases h : i = j <;> simp [h, ArrowNode.shape]

@[simp] theorem size_setTypes (a : Arena) (i : Nat) (t : NodeTypes) :
    (a.setTypes i t).size = a.size := by
  simp [size, setTypes]

theorem types_setTypes_self {a : Arena} (t : NodeTypes) (h : i < a.size) :
    (a.setTypes i t).types i = t := by
  simp [types, setTypes, node?, List.getElem?_eq_getElem (show i < a.nodes.length from h)]

theorem types_setTypes_of_ne (a : Arena) {j : Nat} (t : NodeTypes) (h : i ≠ j) :
    (a.setTypes i t).types j = a.types j := by
  simp [types, setTypes, node?, h]

/-- The two arenas differ at most in the types of nodes from `low` up to, not including, `high`. -/
structure SameOutside (low high : Nat) (a b : Arena) : Prop where
  shape : a.shape = b.shape
  size : a.size = b.size
  types : ∀ i, i < low ∨ high ≤ i → a.types i = b.types i

namespace SameOutside

variable {a b c : Arena} {low high : Nat}

theorem refl (low high : Nat) (a : Arena) : SameOutside low high a a := ⟨rfl, rfl, fun _ _ => rfl⟩

theorem trans (h : SameOutside low high a b) (h' : SameOutside low high b c) :
    SameOutside low high a c :=
  ⟨h.shape.trans h'.shape, h.size.trans h'.size, fun i hi => (h.types i hi).trans (h'.types i hi)⟩

theorem mono (h : SameOutside low high a b) {low' high' : Nat} (hl : low' ≤ low)
    (hh : high ≤ high') :
    SameOutside low' high' a b :=
  ⟨h.shape, h.size, fun i hi => h.types i (by omega)⟩

theorem setTypes (a : Arena) (t : NodeTypes) (hl : low ≤ i) (hh : i < high) :
    SameOutside low high (a.setTypes i t) a :=
  ⟨shape_setTypes a i t, size_setTypes a i t, fun j hj => types_setTypes_of_ne a t (by omega)⟩

end SameOutside

def rootTypes (row : List NodeTypes) : NodeTypes := row.getLast?.getD .unknown

@[simp] theorem rootTypes_append (row : List NodeTypes) (t : NodeTypes) :
    rootTypes (row ++ [t]) = t := by
  simp [rootTypes]

/-- The nodes from `base` on have the types of the row. -/
def HasRow (a : Arena) (base : Nat) (row : List NodeTypes) : Prop := Follows a.types base row

namespace HasRow

variable {a b : Arena} {base : Nat} {row row' : List NodeTypes}

theorem append_iff : a.HasRow base (row ++ row') ↔
    a.HasRow base row ∧ a.HasRow (base + row.length) row' := Follows.append_iff

theorem singleton_iff {t : NodeTypes} : a.HasRow base [t] ↔ a.types base = t :=
  Follows.singleton_iff

theorem root (h : a.HasRow base row) {n : Nat} (hn : row.length = n) (hpos : 0 < n) :
    a.types (base + n - 1) = rootTypes row := by
  subst hn
  rcases List.eq_nil_or_concat row with rfl | ⟨init, t, rfl⟩
  · exact absurd hpos (Nat.lt_irrefl 0)
  · rw [List.concat_eq_append] at h ⊢
    have ht := singleton_iff.mp (append_iff.mp h).2
    rw [rootTypes_append, ← ht]
    simp

theorem congr {low high : Nat} (h : a.HasRow base row) (hs : SameOutside low high b a)
    (hd : base + row.length ≤ low ∨ high ≤ base) : b.HasRow base row :=
  fun k hk => (hs.types _ (by omega)).trans (h k hk)

end HasRow

end Arena

end PipelineLang
