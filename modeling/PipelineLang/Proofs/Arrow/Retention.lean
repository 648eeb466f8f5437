import Mathlib.Logic.Relation
import PipelineLang.Proofs.Arrow.Agreement
import PipelineLang.Symbols.Leaf

/-! What analysis does to the types that inference has found. Outputs stay as they are. So do
inputs, unless a fan-out has taken them from one side alone and the other side turns out to take
others. -/

namespace PipelineLang

open SignalType

theorem SignalType.paired?_cases {x y : Option SignalType} {T : SignalType}
    (h : paired? x y = some T) :
    ∃ A B, x = some (flat A) ∧ y = some (flat B) ∧ T = pair A B := by
  unfold paired? at h
  split at h
  · exact ⟨_, _, rfl, rfl, (Option.some.inj h).symm⟩
  · cases h

namespace Arena

/-- The second node is the first one, or stands below it. -/
def Reaches (a : Arena) : Nat → Nat → Prop := Relation.ReflTransGen fun p c => c ∈ a.children p

/-- A fan-out that was not typed in full had the inputs of the one side whose inputs were known. Now
its sides take `A` and `B`, and the two together no longer give what that side gave alone. -/
def Overruled (before after : Arena) (j : Nat) (A B : SignalType) (span : Span) : Prop :=
  ∃ l r parent, before.shape j = some (.fanOut l r, parent, span) ∧ before.isTyped j = false ∧
    after.inputs l = some A ∧ after.inputs r = some B ∧
    (before.inputs l = none ∧ before.inputs r = some B ∧ sharedInputs (some A) (some B) ≠ some B ∨
      before.inputs l = some A ∧ before.inputs r = none ∧ sharedInputs (some A) (some B) ≠ some A)

/-- A node that had types keeps them, or is a combinator that was not typed in full and is combined
again from its children. -/
inductive Refilled (before after : Arena) (i : Nat) : Prop
  | unknown (old : before.types i = .unknown) (plain : before.combined? i = none)
  | kept (new : after.types i = before.types i)
    (settled : before.isTyped i = true ∨ before.combined? i = none)
  | compose {l r : Nat} {parent : Option Nat} {span : Span}
    (shape : before.shape i = some (.compose l r, parent, span)) (below : l < i ∧ r < i)
    (old : before.types i = ⟨before.inputs l, before.outputs r⟩)
    (new : after.types i = ⟨after.inputs l, after.outputs r⟩)
  | pairUp {l r : Nat} {parent : Option Nat} {span : Span}
    (shape : before.shape i = some (.pairUp l r, parent, span)) (below : l < i ∧ r < i)
    (old : before.types i =
      ⟨paired? (before.inputs l) (before.inputs r), paired? (before.outputs l) (before.outputs r)⟩)
    (new : after.types i =
      ⟨paired? (after.inputs l) (after.inputs r), paired? (after.outputs l) (after.outputs r)⟩)
  | fanOut {l r : Nat} {parent : Option Nat} {span : Span}
    (shape : before.shape i = some (.fanOut l r, parent, span)) (below : l < i ∧ r < i)
    (untyped : before.isTyped i = false)
    (old : before.types i =
      ⟨sharedInputs (before.inputs l) (before.inputs r),
        paired? (before.outputs l) (before.outputs r)⟩)
    (new : after.types i =
      ⟨sharedInputs (after.inputs l) (after.inputs r), paired? (after.outputs l) (after.outputs r)⟩)
  | paren {inner : Nat} {parent : Option Nat} {span : Span}
    (shape : before.shape i = some (.paren inner, parent, span)) (below : inner < i)
    (old : before.types i = before.types inner) (new : after.types i = after.types inner)

section Refill

variable {s : Symbols} {before after : Arena} {e : Arrow} {context : Option SignalType}

theorem kept_or_replaced {i : Nat} {b c : NodeTypes} (hb : before.types i = b)
    (ha : after.types i = b.orElse c) :
    before.isTyped i = true ∧ after.types i = before.types i ∨
      before.isTyped i = false ∧ after.types i = c := by
  by_cases hk : b.isKnown = true
  · rw [NodeTypes.orElse, if_pos hk, ← hb] at ha
    exact .inl ⟨by rw [isTyped, hb, hk], ha⟩
  · rw [NodeTypes.orElse, if_neg hk] at ha
    exact .inr ⟨by simpa [isTyped, hb] using hk, ha⟩

theorem rows_of_parts {left right : Arrow} {base : Nat} {t t' : NodeTypes}
    {leftContext rightContext : Option SignalType}
    (hb : before.HasRow base (left.inferredRow s ++ right.inferredRow s ++ [t]))
    (ha : after.HasRow base ((left.derivedRow s leftContext).map CombinedTypes.types ++
      (right.derivedRow s rightContext).map CombinedTypes.types ++ [t'])) :
    (before.HasRow base (left.inferredRow s) ∧
      before.HasRow (base + left.size) (right.inferredRow s)) ∧
      after.HasRow base ((left.derivedRow s leftContext).map CombinedTypes.types) ∧
      after.HasRow (base + left.size)
        ((right.derivedRow s rightContext).map CombinedTypes.types) := by
  rw [HasRow.append_iff, HasRow.append_iff, left.length_inferredRow] at hb
  rw [HasRow.append_iff, HasRow.append_iff, List.length_map, left.length_derivedRow] at ha
  exact ⟨hb.1, ha.1⟩

theorem below_root (left right : Arrow) (base : Nat) :
    base + left.size - 1 < base + (left.size + right.size + 1) - 1 ∧
      base + left.size + right.size - 1 < base + (left.size + right.size + 1) - 1 := by
  have hl := left.size_pos
  have hr := right.size_pos
  omega

theorem refilled_root {base : Nat} {parent : Option Nat} (hl : e.Laid before.shape base parent)
    (hb : before.HasRow base (e.inferredRow s))
    (ha : after.HasRow base ((e.derivedRow s context).map CombinedTypes.types)) :
    Refilled before after (base + e.size - 1) := by
  have hold := root_of_inferredRow hb
  have hnew := root_of_derivedRow ha
  cases e with
  | compose left right span =>
    rcases kept_or_replaced hold hnew with ⟨htyped, hkept⟩ | ⟨huntyped, hreplaced⟩
    · exact .kept hkept (.inl htyped)
    · simp only [Arrow.derivedRow, List.map_append] at ha
      obtain ⟨⟨hbl, hbr⟩, hal, har⟩ := rows_of_parts hb ha
      refine .compose hl.root (below_root left right base) (hold.trans ?_) (hreplaced.trans ?_)
      · rw [inputs_eq, outputs_eq, root_of_inferredRow hbl, root_of_inferredRow hbr, Arrow.inferred]
      · rw [inputs_eq, outputs_eq, root_of_derivedRow hal, root_of_derivedRow har]
  | pairUp left right | fanOut left right =>
    rcases kept_or_replaced hold hnew with ⟨htyped, hkept⟩ | ⟨huntyped, hreplaced⟩
    · exact .kept hkept (.inl htyped)
    · simp only [Arrow.derivedRow, List.map_append] at ha
      obtain ⟨⟨hbl, hbr⟩, hal, har⟩ := rows_of_parts hb ha
      simp only [Arrow.inferred, ← root_of_inferredRow hbl, ← root_of_inferredRow hbr] at hold
      simp only [← root_of_derivedRow hal, ← root_of_derivedRow har] at hreplaced
      have hbelow := below_root left right base
      first
      | exact .pairUp hl.root hbelow hold hreplaced
      | exact .fanOut hl.root hbelow huntyped hold hreplaced
  | paren inner span =>
    rcases kept_or_replaced hold hnew with ⟨htyped, hkept⟩ | ⟨huntyped, hreplaced⟩
    · exact .kept hkept (.inl htyped)
    · obtain ⟨hbi, -⟩ := HasRow.append_iff.mp hb
      simp only [Arrow.derivedRow, List.map_append] at ha
      obtain ⟨hai, -⟩ := HasRow.append_iff.mp ha
      have hbelow : base + inner.size - 1 < base + (inner.size + 1) - 1 := by
        have hpos := inner.size_pos
        omega
      exact .paren hl.root hbelow (hold.trans (root_of_inferredRow hbi).symm)
        (hreplaced.trans (root_of_derivedRow hai).symm)
  | first | second | split | choose | failed => exact .unknown hold (combined?_of_shape hl.root)
  | merge | wire | wirePair | use =>
    exact .kept (hnew.trans hold.symm) (.inr (combined?_of_shape hl.root))

theorem refilled_of_rows {base : Nat} {parent : Option Nat} (hl : e.Laid before.shape base parent)
    (hb : before.HasRow base (e.inferredRow s))
    (ha : after.HasRow base ((e.derivedRow s context).map CombinedTypes.types)) :
    Throughout (Refilled before after) base e.size := by
  induction e generalizing base parent context with
  | compose left right span ihl ihr
  | pairUp left right span ihl ihr | fanOut left right span ihl ihr
  | choose condition left right span ihl ihr =>
    have hroot := refilled_root hl hb ha
    simp only [Arrow.derivedRow, List.map_append] at ha
    obtain ⟨⟨hbl, hbr⟩, hal, har⟩ := rows_of_parts hb ha
    obtain ⟨-, hll, hlr⟩ := hl
    refine throughout_two.mpr ⟨ihl hll hbl hal, ihr hlr hbr har, ?_⟩
    rw [Nat.add_assoc]
    exact hroot
  | first inner span ih | second inner span ih | paren inner span ih =>
    have hroot := refilled_root hl hb ha
    obtain ⟨hbi, -⟩ := HasRow.append_iff.mp hb
    simp only [Arrow.derivedRow, List.map_append] at ha
    obtain ⟨hai, -⟩ := HasRow.append_iff.mp ha
    exact throughout_one.mpr ⟨ih hl.2 hbi hai, hroot⟩
  | split | merge | wire | wirePair | use | failed =>
    have hroot := refilled_root hl hb ha
    exact throughout_one.mpr ⟨fun i hlow hhigh => absurd hhigh (by omega), hroot⟩

theorem refilled_analyze (s : Symbols) (e : Arrow) (i : Nat) :
    Refilled ((ofArrow e).infer s).1 (((ofArrow e).infer s).1.analyze s).1 i := by
  obtain ⟨hs, hb⟩ := infer_ofArrow s e
  obtain ⟨hs', ha, -⟩ := derive_infer_ofArrow s s.declaredInputs e
  by_cases hlt : i < e.size
  · have hl : e.Laid ((ofArrow e).infer s).1.shape 0 none := hs.shape ▸ laid_ofArrow e
    exact refilled_of_rows hl hb ha i (Nat.zero_le i) (by omega)
  · have houtside : ((ofArrow e).infer s).1.types i = (ofArrow e).types i := hs.types i (by omega)
    have hnone : ((ofArrow e).infer s).1.node? i = none := by
      have hsize : ((ofArrow e).infer s).1.size = e.size := hs.size.trans (size_ofArrow e)
      exact List.getElem?_eq_none (by rw [size] at hsize; omega)
    exact .unknown (houtside.trans (types_ofArrow e i)) (by rw [combined?, hnone]; rfl)

end Refill

section Retention

variable {s : Symbols} {before after : Arena} {i : Nat} {t : SignalType}

theorem outputs_of_refilled (h : ∀ i, Refilled before after i) (ht : before.outputs i = some t) :
    after.outputs i = some t := by
  induction i using Nat.strongRecOn generalizing t with
  | ind i ih =>
    rw [outputs_eq] at ht ⊢
    cases h i with
    | unknown old =>
      rw [old] at ht
      cases ht
    | kept new =>
      rw [new]
      exact ht
    | compose _ below old new =>
      rw [old] at ht
      rw [new]
      exact ih _ below.2 ht
    | pairUp _ below old new | fanOut _ below _ old new =>
      rw [old] at ht
      rw [new]
      obtain ⟨A, B, hA, hB, rfl⟩ := paired?_cases ht
      simp only [ih _ below.1 hA, ih _ below.2 hB, paired?]
    | paren _ below old new =>
      rw [old] at ht
      rw [new]
      exact ih _ below ht

/-- Somewhere at or below the node, a fan-out is overruled. -/
def Unsettled (before after : Arena) (i : Nat) : Prop :=
  ∃ j A B span, before.Reaches i j ∧ Overruled before after j A B span

theorem Unsettled.of_child {c : Nat} {kind : NodeKind} {parent : Option Nat} {span : Span}
    (hs : before.shape i = some (kind, parent, span)) (hc : c ∈ kind.children)
    (h : Unsettled before after c) : Unsettled before after i := by
  obtain ⟨j, A, B, span, hj, hover⟩ := h
  have hmem : c ∈ before.children i := by
    rw [children, node?_of_shape hs]
    exact hc
  exact ⟨j, A, B, span, Relation.ReflTransGen.head hmem hj, hover⟩

/-- A fan-out whose sides keep the inputs that were known is overruled if they no longer give its
own. -/
theorem overruled_of_sides {l r : Nat} {parent : Option Nat} {span : Span}
    (hs : before.shape i = some (.fanOut l r, parent, span)) (huntyped : before.isTyped i = false)
    (hl : ∀ A, before.inputs l = some A → after.inputs l = some A)
    (hr : ∀ B, before.inputs r = some B → after.inputs r = some B)
    (hold : sharedInputs (before.inputs l) (before.inputs r) = some t)
    (hnew : sharedInputs (after.inputs l) (after.inputs r) ≠ some t) :
    ∃ A B, Overruled before after i A B span := by
  cases hbl : before.inputs l with
  | none =>
    rw [hbl] at hold
    have hbr : before.inputs r = some t := hold
    have har := hr t hbr
    cases hal : after.inputs l with
    | none =>
      rw [hal, har] at hnew
      exact absurd rfl hnew
    | some A =>
      rw [hal, har] at hnew
      exact ⟨A, t, l, r, parent, hs, huntyped, hal, har, .inl ⟨hbl, hbr, hnew⟩⟩
  | some A =>
    have hal := hl A hbl
    cases hbr : before.inputs r with
    | some B =>
      rw [hal, hr B hbr, ← hbl, ← hbr] at hnew
      exact absurd hold hnew
    | none =>
      have hA : some A = some t := by
        rw [← hold, hbl, hbr]
        cases A <;> rfl
      cases har : after.inputs r with
      | none =>
        rw [hal, har, ← hbl, ← hbr] at hnew
        exact absurd hold hnew
      | some B =>
        rw [hal, har, ← hA] at hnew
        exact ⟨A, B, l, r, parent, hs, huntyped, hal, har, .inr ⟨hbl, hbr, hnew⟩⟩

theorem inputs_of_overruled {j : Nat} {A B : SignalType} {span : Span} (h : Refilled before after j)
    (hover : Overruled before after j A B span) :
    ∃ t, before.inputs j = some t ∧ after.inputs j ≠ some t := by
  obtain ⟨l, r, parent, hs, huntyped, hl, hr, hguess⟩ := hover
  have hc := combined?_of_shape hs
  cases h with
  | unknown _ plain => cases hc.symm.trans plain
  | kept _ settled =>
    rcases settled with typed | plain
    · cases huntyped.symm.trans typed
    · cases hc.symm.trans plain
  | compose shape | pairUp shape | paren shape => cases hs.symm.trans shape
  | fanOut shape _ _ old new =>
    cases hs.symm.trans shape
    rw [inputs_eq, inputs_eq, old, new, hl, hr]
    rcases hguess with ⟨hbl, hbr, hne⟩ | ⟨hbl, hbr, hne⟩
    · exact ⟨B, by rw [hbl, hbr]; rfl, hne⟩
    · refine ⟨A, ?_, hne⟩
      rw [hbl, hbr]
      cases A <;> rfl

/-- Inputs that were known stay, or a fan-out at or below the node is overruled. -/
theorem inputs_of_refilled (h : ∀ i, Refilled before after i) (ht : before.inputs i = some t) :
    after.inputs i = some t ∨ Unsettled before after i := by
  induction i using Nat.strongRecOn generalizing t with
  | ind i ih =>
    rw [inputs_eq] at ht ⊢
    cases h i with
    | unknown old =>
      rw [old] at ht
      cases ht
    | kept new =>
      rw [new]
      exact .inl ht
    | compose shape below old new =>
      rw [old] at ht
      rw [new]
      exact (ih _ below.1 ht).imp_right (.of_child shape (by simp [NodeKind.children]))
    | pairUp shape below old new =>
      rw [old] at ht
      rw [new]
      obtain ⟨A, B, hA, hB, rfl⟩ := paired?_cases ht
      rcases ih _ below.1 hA with hA' | hl
      · rcases ih _ below.2 hB with hB' | hr
        · exact .inl (by simp only [hA', hB', paired?])
        · exact .inr (.of_child shape (by simp [NodeKind.children]) hr)
      · exact .inr (.of_child shape (by simp [NodeKind.children]) hl)
    | @fanOut l r parent span shape below untyped old new =>
      rw [old] at ht
      rw [new]
      by_cases hl : Unsettled before after l
      · exact .inr (.of_child shape (by simp [NodeKind.children]) hl)
      by_cases hr : Unsettled before after r
      · exact .inr (.of_child shape (by simp [NodeKind.children]) hr)
      by_cases hnew : sharedInputs (after.inputs l) (after.inputs r) = some t
      · exact .inl hnew
      · obtain ⟨A, B, hover⟩ := overruled_of_sides shape untyped
          (fun A hA => (ih l below.1 hA).resolve_right hl)
          (fun B hB => (ih r below.2 hB).resolve_right hr) ht hnew
        exact .inr ⟨i, A, B, span, .refl, hover⟩
    | paren shape below old new =>
      rw [old] at ht
      rw [new]
      exact (ih _ below ht).imp_right (.of_child shape (by simp [NodeKind.children]))

theorem reported_of_overruled {j : Nat} {A B : SignalType} {span : Span}
    (hs : before.shape = (before.analyze s).1.shape)
    (h : Overruled before (before.analyze s).1 j A B span) :
    ⟨span, .incompatibleFanOut A B⟩ ∈ (before.analyze s).2.2 := by
  obtain ⟨l, r, parent, hj, -, hl, hr, hguess⟩ := h
  have hAB : A ≠ B := by
    rintro rfl
    rcases hguess with ⟨-, -, hne⟩ | ⟨-, -, hne⟩ <;> exact hne (sharedInputs_self A)
  rw [hs] at hj
  have hnode : (⟨span, .incompatibleFanOut A B⟩ : Finding) ∈
      (before.analyze s).1.nodeFindings s (before.derive s.declaredInputs).2 j := by
    have hsplit := splitsPair_eq_none (show NodeKind.fanOut l r ≠ .split by simp) parent span
      ((before.analyze s).1.types j)
    simp [nodeFindings, node?_of_shape hj, hsplit, agreementFindings, hl, hr, unequal, hAB]
  refine List.mem_append_left _ (List.mem_flatMap.mpr ⟨j, ?_, hnode⟩)
  exact List.mem_range.mpr (lt_size_of_shape hj)

/-- Analysis keeps the outputs that inference has found. It keeps all inputs just if no fan-out is
overruled. If the inputs of a node change, an overruled fan-out at or below the node is reported. -/
theorem analyze_keeps_known (s : Symbols) (e : Arrow) :
    let before := ((ofArrow e).infer s).1
    let after := (before.analyze s).1
    let findings := (before.analyze s).2.2
    (∀ i t, before.outputs i = some t → after.outputs i = some t) ∧
      ((∀ i t, before.inputs i = some t → after.inputs i = some t) ↔
        ∀ j A B span, ¬ Overruled before after j A B span) ∧
      ∀ i t, before.inputs i = some t → after.inputs i ≠ some t →
        ∃ j A B span, before.Reaches i j ∧ Overruled before after j A B span ∧
          ⟨span, .incompatibleFanOut A B⟩ ∈ findings := by
  intro before after findings
  have hrefilled : ∀ i, Refilled before after i := refilled_analyze s e
  have hshape : before.shape = after.shape :=
    (infer_ofArrow s e).1.shape.trans (derive_infer_ofArrow s s.declaredInputs e).1.shape.symm
  refine ⟨fun i t => outputs_of_refilled hrefilled, ⟨?_, ?_⟩, ?_⟩
  · intro hkept j A B span hover
    obtain ⟨t, ht, hne⟩ := inputs_of_overruled (hrefilled j) hover
    exact hne (hkept j t ht)
  · intro hnone i t ht
    refine (inputs_of_refilled hrefilled ht).resolve_right ?_
    rintro ⟨j, A, B, span, -, hover⟩
    exact hnone j A B span hover
  · intro i t ht hne
    obtain ⟨j, A, B, span, hreach, hover⟩ := (inputs_of_refilled hrefilled ht).resolve_left hne
    exact ⟨j, A, B, span, hreach, hover, reported_of_overruled hshape hover⟩

end Retention

end Arena

namespace Program

def guessing : Arrow :=
  let at0 (name : String) : Ident := ⟨name, .endOf 0⟩
  .fanOut (.wire [⟨.ident (at0 "a"), at0 "x", .endOf 0⟩] (.endOf 0))
    (.choose (.terminal (.literal ⟨.boolean true, .endOf 0⟩))
      (.wire [⟨.ident (at0 "b"), at0 "y", .endOf 0⟩] (.endOf 0))
      (.wire [⟨.ident (at0 "b"), at0 "y", .endOf 0⟩] (.endOf 0)) (.endOf 0))
    (.endOf 0)

def guess : Program where
  imports := []
  component := {
    name := ⟨"guess", .endOf 0⟩
    inputs := .flat [⟨"a", .endOf 0⟩]
    outputs := .pair [⟨"x", .endOf 0⟩] [⟨"y", .endOf 0⟩]
    configuration := []
    declarations := []
    definition := .arrow guessing
    span := .endOf 0 }
  span := .endOf 0

/-- The inputs of the fan-out are those of the wire at first, and then those of both sides. -/
theorem guess_inputs_changed :
    let s := (guess.resolve "guess.pcl" .empty .empty).symbols
    let before := ((Arena.ofArrow guessing).infer s).1
    before.inputs 4 = some (.flat (.ofList ["a"])) ∧
      (before.analyze s).1.inputs 4 = some (.flat (.ofList ["a", "b"])) := by
  decide +kernel

end Program

end PipelineLang
