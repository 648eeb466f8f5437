import PipelineLang.Proofs.Arrow.Agreement

/-! A declarative type system for arrow expressions, and its agreement with what the passes accept:
an accepted expression has a derivation, and a derivation at some inputs is what derivation finds
when those inputs flow in. -/

namespace PipelineLang

open SignalType

namespace Operand

/-- Does the operand read the name? Constants read none. -/
def Names (x : String) : Operand → Prop
  | ident id | state id => id.name = x
  | literal _ => False

end Operand

/-- The names that a wire reads and the names under which it passes them on. -/
structure WireSets (entries : List Mapping) (sources targets : NameSet) : Prop where
  sources : ∀ x, x ∈ sources ↔ ∃ m ∈ entries, m.source.Names x
  targets : ∀ x, x ∈ targets ↔ x ≠ "_" ∧ ∃ m ∈ entries, m.target.name = x

/-- The names that a merge reads of either half, and the names under which it passes them on. -/
structure MergeSets (entries : List MergeMapping) (tops bottoms targets : NameSet) : Prop where
  tops : ∀ x, x ∈ tops ↔ ∃ m ∈ entries, ∃ id : Ident, m.source = .top id ∧ id.name = x
  bottoms : ∀ x, x ∈ bottoms ↔ ∃ m ∈ entries, ∃ id : Ident, m.source = .bottom id ∧ id.name = x
  targets : ∀ x, x ∈ targets ↔ x ≠ "_" ∧ ∃ m ∈ entries, m.target.name = x

theorem exists_source_iff {entries : List Mapping} {x : String} :
    (∃ id ∈ wireSources entries, id.name = x) ↔ ∃ m ∈ entries, m.source.Names x := by
  simp only [wireSources, List.mem_filterMap]
  constructor
  · rintro ⟨id, ⟨m, hm, hid⟩, rfl⟩
    refine ⟨m, hm, ?_⟩
    split at hid <;> simp_all [Operand.Names]
  · rintro ⟨m, hm, hx⟩
    cases hsource : m.source with
    | ident id | state id =>
      rw [hsource] at hx
      exact ⟨id, ⟨m, hm, by rw [hsource]⟩, hx⟩
    | literal lit =>
      rw [hsource] at hx
      exact hx.elim

theorem exists_kept_iff {targets : List Ident} {x : String} :
    (∃ id ∈ kept targets, id.name = x) ↔ x ≠ "_" ∧ ∃ id ∈ targets, id.name = x := by
  simp only [kept, discardName, List.mem_filter, bne_iff_ne]
  constructor
  · rintro ⟨id, ⟨hid, hne⟩, rfl⟩
    exact ⟨hne, id, hid, rfl⟩
  · rintro ⟨hne, id, hid, rfl⟩
    exact ⟨id, ⟨hid, hne⟩, rfl⟩

theorem wireSets_iff {entries : List Mapping} {sources targets : NameSet} :
    WireSets entries sources targets ↔
      sources = .ofIdents (wireSources entries) ∧ targets = .ofIdents (wireTargets entries) := by
  simp only [NameSet.eq_ofIdents_iff, exists_source_iff, wireTargets, exists_kept_iff,
    List.mem_map, exists_exists_and_eq_and]
  exact ⟨fun h => ⟨h.sources, h.targets⟩, fun h => ⟨h.1, h.2⟩⟩

theorem exists_top_iff {entries : List MergeMapping} {x : String} :
    (∃ id ∈ mergeTops entries, id.name = x) ↔
      ∃ m ∈ entries, ∃ id : Ident, m.source = .top id ∧ id.name = x := by
  simp only [mergeTops, List.mem_filterMap]
  grind

theorem exists_bottom_iff {entries : List MergeMapping} {x : String} :
    (∃ id ∈ mergeBottoms entries, id.name = x) ↔
      ∃ m ∈ entries, ∃ id : Ident, m.source = .bottom id ∧ id.name = x := by
  simp only [mergeBottoms, List.mem_filterMap]
  grind

theorem mergeSets_iff {entries : List MergeMapping} {tops bottoms targets : NameSet} :
    MergeSets entries tops bottoms targets ↔
      tops = .ofIdents (mergeTops entries) ∧ bottoms = .ofIdents (mergeBottoms entries) ∧
        targets = .ofIdents (mergeTargets entries) := by
  simp only [NameSet.eq_ofIdents_iff, exists_top_iff, exists_bottom_iff, mergeTargets,
    exists_kept_iff, List.mem_map, exists_exists_and_eq_and]
  exact ⟨fun h => ⟨h.tops, h.bottoms, h.targets⟩, fun h => ⟨h.1, h.2.1, h.2.2⟩⟩

/-- Derivations that an expression takes the first type to the second. -/
inductive Derivation (s : Symbols) : Arrow → SignalType → SignalType → Type where
  | use {component : Ident} {span : Span} {leaf : LeafSignature}
      (known : s.leafOf? component.name = some leaf) :
      Derivation s (.use component span) leaf.inputs leaf.outputs
  | compose {left right : Arrow} {span : Span} {A B C : SignalType}
      (l : Derivation s left A B) (r : Derivation s right B C) :
      Derivation s (.compose left right span) A C
  | pairUp {left right : Arrow} {span : Span} {A B C D : NameSet}
      (l : Derivation s left (flat A) (flat C)) (r : Derivation s right (flat B) (flat D)) :
      Derivation s (.pairUp left right span) (pair A B) (pair C D)
  | fanOut {left right : Arrow} {span : Span} {A : SignalType} {C D : NameSet}
      (l : Derivation s left A (flat C)) (r : Derivation s right A (flat D)) :
      Derivation s (.fanOut left right span) A (pair C D)
  | first {inner : Arrow} {span : Span} {A B X : NameSet}
      (d : Derivation s inner (flat A) (flat B)) :
      Derivation s (.first inner span) (pair A X) (pair B X)
  | second {inner : Arrow} {span : Span} {A B X : NameSet}
      (d : Derivation s inner (flat A) (flat B)) :
      Derivation s (.second inner span) (pair X A) (pair X B)
  | split {span : Span} {A : NameSet} : Derivation s (.split span) (flat A) (pair A A)
  | wire {entries : List Mapping} {span : Span} {A B : NameSet} (sets : WireSets entries A B) :
      Derivation s (.wire entries span) (flat A) (flat B)
  | wirePair {top bottom : List Mapping} {span : Span} {A B C D : NameSet}
      (tops : WireSets top A C) (bottoms : WireSets bottom B D) :
      Derivation s (.wirePair top bottom span) (pair A B) (pair C D)
  | merge {entries : List MergeMapping} {span : Span} {A B C : NameSet}
      (sets : MergeSets entries A B C) :
      Derivation s (.merge entries span) (pair A B) (flat C)
  | choose {condition : Condition} {onTrue onFalse : Arrow} {span : Span} {A B : SignalType}
      (reads : condition.Reads s A) (t : Derivation s onTrue A B) (f : Derivation s onFalse A B) :
      Derivation s (.choose condition onTrue onFalse span) A B
  | paren {inner : Arrow} {span : Span} {A B : SignalType} (d : Derivation s inner A B) :
      Derivation s (.paren inner span) A B

namespace Derivation

variable {s : Symbols}

/-- The types of all parts, in the order in which the parts are laid out. -/
def judgements {e : Arrow} {A B : SignalType} (d : Derivation s e A B) :
    List (SignalType × SignalType) :=
  match d with
  | compose l r | pairUp l r | fanOut l r | choose _ l r => l.judgements ++ r.judgements ++ [(A, B)]
  | first inner | second inner | paren inner => inner.judgements ++ [(A, B)]
  | use _ | split | wire _ | wirePair _ _ | merge _ => [(A, B)]

end Derivation

namespace NodeTypes

def known (A B : SignalType) : NodeTypes := ⟨some A, some B⟩

/-- What is known of the types agrees with `A` and `B`. -/
structure Within (t : NodeTypes) (A B : SignalType) : Prop where
  inputs : ∀ T, t.inputs = some T → T = A
  outputs : ∀ T, t.outputs = some T → T = B

theorem within_unknown (A B : SignalType) : unknown.Within A B := by
  constructor <;> simp [unknown]

theorem within_known (A B : SignalType) : (known A B).Within A B := by
  constructor <;> simp [known]

variable {t : NodeTypes} {A B : SignalType}

theorem Within.orElse_known (h : t.Within A B) : t.orElse (known A B) = known A B := by
  unfold orElse
  split
  · rename_i hk
    obtain ⟨hi, ho⟩ := Arena.isSome_of_isKnown hk
    obtain ⟨T, hT⟩ := Option.isSome_iff_exists.mp hi
    obtain ⟨U, hU⟩ := Option.isSome_iff_exists.mp ho
    change (⟨t.inputs, t.outputs⟩ : NodeTypes) = known A B
    rw [hT, hU, h.inputs T hT, h.outputs U hU, known]
  · rfl

theorem Within.inputs_or (h : t.Within A B) : t.inputs.or (some A) = some A := by
  cases ht : t.inputs with
  | none => rfl
  | some T => rw [h.inputs T ht, Option.some_or]

end NodeTypes

theorem paired?_eq_some {x y : Option SignalType} {A B : NameSet} {T : SignalType}
    (hx : ∀ T, x = some T → T = flat A) (hy : ∀ T, y = some T → T = flat B)
    (h : paired? x y = some T) : T = pair A B := by
  unfold paired? at h
  split at h
  · rename_i top bottom
    cases hx _ rfl
    cases hy _ rfl
    exact (Option.some.inj h).symm
  · cases h

theorem sharedInputs_eq_some {x y : Option SignalType} {A T : SignalType}
    (hx : ∀ T, x = some T → T = A) (hy : ∀ T, y = some T → T = A)
    (h : sharedInputs x y = some T) : T = A := by
  unfold sharedInputs at h
  split at h
  · cases hx _ rfl
    cases hy _ rfl
    simpa using h.symm
  · exact hx T h
  · exact hy T h

namespace Derivation

variable {s : Symbols} {e : Arrow} {A B : SignalType}

/-- What inference alone finds agrees with every derivation. -/
theorem inferred_within (d : Derivation s e A B) : (e.inferred s).Within A B := by
  induction d with
  | use known =>
    simp only [Arrow.inferred, NodeKind.ownTypes, known]
    exact NodeTypes.within_known _ _
  | compose l r ihl ihr => exact ⟨ihl.inputs, ihr.outputs⟩
  | pairUp l r ihl ihr =>
    exact ⟨fun T => paired?_eq_some ihl.inputs ihr.inputs,
      fun T => paired?_eq_some ihl.outputs ihr.outputs⟩
  | fanOut l r ihl ihr =>
    exact ⟨fun T => sharedInputs_eq_some ihl.inputs ihr.inputs,
      fun T => paired?_eq_some ihl.outputs ihr.outputs⟩
  | first | second | split | choose => exact NodeTypes.within_unknown _ _
  | wire sets =>
    obtain ⟨rfl, rfl⟩ := wireSets_iff.mp sets
    exact NodeTypes.within_known _ _
  | wirePair tops bottoms =>
    obtain ⟨rfl, rfl⟩ := wireSets_iff.mp tops
    obtain ⟨rfl, rfl⟩ := wireSets_iff.mp bottoms
    exact NodeTypes.within_known _ _
  | merge sets =>
    obtain ⟨rfl, rfl, rfl⟩ := mergeSets_iff.mp sets
    exact NodeTypes.within_known _ _
  | paren d ih => exact ih

theorem around_eq (d : Derivation s e A B) : e.around s (some A) = some A :=
  d.inferred_within.inputs_or

attribute [local simp] half? paired? sharedInputs_self nestsPair isPair beside? passing nestsBeside

/-- When the inputs of a derivation flow in, derivation finds its types. -/
theorem derived_eq (d : Derivation s e A B) : e.derived s (some A) = ⟨.known A B, false⟩ := by
  have ha := d.around_eq
  have hw := d.inferred_within
  induction d with
  | use known =>
    simp only [Arrow.derived, NodeKind.ownTypes, known]
    rfl
  | compose l r ihl ihr | pairUp l r ihl ihr | fanOut l r ihl ihr =>
    have hl := ihl l.around_eq l.inferred_within
    have hr := ihr r.around_eq r.inferred_within
    rw [Arrow.derived]
    simpa [ha, hl, hr, NodeTypes.known] using hw.orElse_known
  | first d ih | second d ih =>
    simp [Arrow.derived, ih d.around_eq d.inferred_within, NodeTypes.known]
  | split => rfl
  | choose reads t f iht ihf =>
    simp [Arrow.derived, iht t.around_eq t.inferred_within, ihf f.around_eq f.inferred_within,
      NodeTypes.known]
  | wire sets =>
    obtain ⟨rfl, rfl⟩ := wireSets_iff.mp sets
    rfl
  | wirePair tops bottoms =>
    obtain ⟨rfl, rfl⟩ := wireSets_iff.mp tops
    obtain ⟨rfl, rfl⟩ := wireSets_iff.mp bottoms
    rfl
  | merge sets =>
    obtain ⟨rfl, rfl, rfl⟩ := mergeSets_iff.mp sets
    rfl
  | paren d ih => simp only [Arrow.derived, ha, ih d.around_eq d.inferred_within, hw.orElse_known]

theorem accepted (d : Derivation s e A B) : e.Accepted s (some A) := by
  have ha := d.around_eq
  have hd := d.derived_eq
  induction d with
  | compose l r ihl ihr | pairUp l r ihl ihr | fanOut l r ihl ihr =>
    have hl := ihl l.around_eq l.derived_eq
    have hr := ihr r.around_eq r.derived_eq
    simp [Arrow.Accepted, Arrow.Agrees, ha, hd, l.derived_eq, r.derived_eq, NodeTypes.known,
      NodeTypes.isKnown, hl, hr]
  | choose reads l r ihl ihr =>
    have hl := ihl l.around_eq l.derived_eq
    have hr := ihr r.around_eq r.derived_eq
    simp [Arrow.Accepted, Arrow.Agrees, hd, l.derived_eq, r.derived_eq, NodeTypes.known,
      NodeTypes.isKnown, hl, hr, reads]
  | first d ih | second d ih | paren d ih =>
    simp [Arrow.Accepted, Arrow.Agrees, ha, hd, NodeTypes.known, NodeTypes.isKnown,
      ih d.around_eq d.derived_eq]
  | use | split | wire | wirePair | merge =>
    simp [Arrow.Accepted, Arrow.Agrees, hd, NodeTypes.known, NodeTypes.isKnown]

def stored (j : SignalType × SignalType) : NodeTypes := .known j.1 j.2

theorem derivedRow_eq (d : Derivation s e A B) :
    (e.derivedRow s (some A)).map CombinedTypes.types = d.judgements.map stored := by
  have ha := d.around_eq
  have hd := d.derived_eq
  induction d with
  | compose l r ihl ihr | pairUp l r ihl ihr | fanOut l r ihl ihr | choose _ l r ihl ihr =>
    have hl := ihl l.around_eq l.derived_eq
    have hr := ihr r.around_eq r.derived_eq
    simp [Arrow.derivedRow, judgements, ha, hd, l.derived_eq, hl, hr, stored, NodeTypes.known]
  | first d ih | second d ih | paren d ih =>
    simp [Arrow.derivedRow, judgements, ha, hd, ih d.around_eq d.derived_eq, stored]
  | use | split | wire | wirePair | merge => simp [Arrow.derivedRow, judgements, hd, stored]

end Derivation

theorem nestsPair_eq_false {A B : SignalType} (h : nestsPair (some A) (some B) = false) :
    ∃ a b, A = flat a ∧ B = flat b := by
  rcases A with a | ⟨_, _⟩ <;> rcases B with b | ⟨_, _⟩ <;> simp [nestsPair, isPair] at h
  exact ⟨a, b, rfl, rfl⟩

theorem exists_of_beside? {top : Bool} {A B : SignalType} {other : Option NameSet}
    (h : NodeTypes.isKnown ⟨beside? top (some A) other, beside? top (some B) other⟩ = true) :
    ∃ a b x, A = flat a ∧ B = flat b ∧ other = some x := by
  rcases A with a | ⟨_, _⟩ <;> rcases B with b | ⟨_, _⟩ <;> rcases other with _ | x <;>
    simp [NodeTypes.isKnown, beside?] at h
  exact ⟨a, b, x, rfl, rfl, rfl⟩

/-- Where all parts agree, the types that were found are those of a derivation. -/
theorem Arrow.Accepted.exists_derivation {s : Symbols} {context : Option SignalType} {e : Arrow}
    (h : e.Accepted s context) :
    ∃ A B, Nonempty (Derivation s e A B) ∧ (e.derived s context).types = .known A B := by
  induction e generalizing context with
  | compose left right span ihl ihr =>
    obtain ⟨hal, har, -, -, hagree⟩ := h
    obtain ⟨A, B, ⟨l⟩, hl⟩ := ihl hal
    rw [hl] at har
    obtain ⟨B', C, ⟨r⟩, hr⟩ := ihr har
    simp only [hl, hr] at hagree
    cases hagree
    have d : Derivation s (.compose left right span) A C := .compose l r
    refine ⟨A, C, ⟨d⟩, ?_⟩
    simp only [Arrow.derived, hr, hl]
    exact d.inferred_within.orElse_known
  | pairUp left right span ihl ihr =>
    obtain ⟨hal, har, -, hnested, -⟩ := h
    obtain ⟨A, C, ⟨l⟩, hl⟩ := ihl hal
    obtain ⟨B, D, ⟨r⟩, hr⟩ := ihr har
    simp only [Arrow.derived, hl, hr, NodeTypes.known, Bool.or_eq_false_iff] at hnested
    obtain ⟨a, b, rfl, rfl⟩ := nestsPair_eq_false hnested.1
    obtain ⟨c, d, rfl, rfl⟩ := nestsPair_eq_false hnested.2
    have whole : Derivation s (.pairUp left right span) (pair a b) (pair c d) := .pairUp l r
    refine ⟨_, _, ⟨whole⟩, ?_⟩
    simp only [Arrow.derived, hl, hr]
    exact whole.inferred_within.orElse_known
  | fanOut left right span ihl ihr =>
    obtain ⟨hal, har, -, hnested, hagree⟩ := h
    obtain ⟨A, C, ⟨l⟩, hl⟩ := ihl hal
    obtain ⟨A', D, ⟨r⟩, hr⟩ := ihr har
    simp only [Arrow.derived, hl, hr, NodeTypes.known] at hnested hagree
    cases hagree
    obtain ⟨c, d, rfl, rfl⟩ := nestsPair_eq_false hnested
    have whole : Derivation s (.fanOut left right span) A (pair c d) := .fanOut l r
    refine ⟨_, _, ⟨whole⟩, ?_⟩
    simp only [Arrow.derived, hl, hr, NodeTypes.known, sharedInputs_self]
    exact whole.inferred_within.orElse_known
  | choose condition onTrue onFalse span iht ihf =>
    obtain ⟨hat, haf, -, -, hin, hout, hreads⟩ := h
    obtain ⟨A, B, ⟨t⟩, ht⟩ := iht hat
    obtain ⟨A', B', ⟨f⟩, hf⟩ := ihf haf
    rw [ht, hf] at hin hout
    cases hin
    cases hout
    have hd : (Arrow.derived s context (.choose condition onTrue onFalse span)).types =
        .known A B := by
      simp [Arrow.derived, ht, NodeTypes.known]
    exact ⟨A, B, ⟨.choose (hreads A (by rw [hd]; rfl)) t f⟩, hd⟩
  | first inner span ih =>
    obtain ⟨hai, hknown, -, -⟩ := h
    obtain ⟨A, B, ⟨d⟩, hd⟩ := ih hai
    simp only [Arrow.derived, hd, NodeTypes.known] at hknown
    obtain ⟨a, b, x, rfl, rfl, hx⟩ := exists_of_beside? hknown
    refine ⟨pair a x, pair b x, ⟨.first d⟩, ?_⟩
    simp [Arrow.derived, hd, NodeTypes.known, hx, beside?]
  | second inner span ih =>
    obtain ⟨hai, hknown, -, -⟩ := h
    obtain ⟨A, B, ⟨d⟩, hd⟩ := ih hai
    simp only [Arrow.derived, hd, NodeTypes.known] at hknown
    obtain ⟨a, b, x, rfl, rfl, hx⟩ := exists_of_beside? hknown
    refine ⟨pair x a, pair x b, ⟨.second d⟩, ?_⟩
    simp [Arrow.derived, hd, NodeTypes.known, hx, beside?]
  | paren inner span ih =>
    obtain ⟨A, B, ⟨d⟩, hd⟩ := ih h.1
    have whole : Derivation s (.paren inner span) A B := .paren d
    refine ⟨A, B, ⟨whole⟩, ?_⟩
    simp only [Arrow.derived, hd]
    exact whole.inferred_within.orElse_known
  | split span =>
    have hknown := h.known
    rcases context with _ | (names | ⟨top, bottom⟩)
    · simp [Arrow.derived, NodeTypes.isKnown] at hknown
    · exact ⟨_, _, ⟨.split⟩, rfl⟩
    · simp [Arrow.derived, NodeTypes.isKnown] at hknown
  | merge entries span => exact ⟨_, _, ⟨.merge (mergeSets_iff.mpr ⟨rfl, rfl, rfl⟩)⟩, rfl⟩
  | wire entries span => exact ⟨_, _, ⟨.wire (wireSets_iff.mpr ⟨rfl, rfl⟩)⟩, rfl⟩
  | wirePair top bottom span =>
    exact ⟨_, _, ⟨.wirePair (wireSets_iff.mpr ⟨rfl, rfl⟩) (wireSets_iff.mpr ⟨rfl, rfl⟩)⟩, rfl⟩
  | use component span =>
    have hknown := h.known
    cases hleaf : s.leafOf? component.name with
    | none =>
      simp [Arrow.derived, NodeKind.ownTypes, hleaf, NodeTypes.unknown, NodeTypes.isKnown] at hknown
    | some leaf =>
      refine ⟨_, _, ⟨.use hleaf⟩, ?_⟩
      simp only [Arrow.derived, NodeKind.ownTypes, hleaf]
      rfl
  | failed span =>
    exact absurd h.known (by simp [Arrow.derived, NodeTypes.unknown, NodeTypes.isKnown])

end PipelineLang
