import PipelineLang.Proofs.Arrow.Passes
import PipelineLang.Proofs.Collection
import PipelineLang.Proofs.Diagnostic
import PipelineLang.Proofs.Terms

/-! When the analysis of a laid-out expression finds nothing: every node is typed, none would have
to pair a pair, and the types of each node agree with those of its parts. -/

namespace PipelineLang

variable {kind : NodeKind} {i m : Nat} {f : Finding} {P : Nat → Prop}

theorem SignalType.sharedInputs_self (A : SignalType) :
    sharedInputs (some A) (some A) = some A := by
  cases A <;> simp [sharedInputs]

/-- The name is a signal of the type, in one of its halves if it is a pair. -/
def SignalType.Has (name : String) : SignalType → Prop
  | flat names => name ∈ names
  | pair top bottom => name ∈ top ∨ name ∈ bottom

theorem SignalType.mem_allNames {type : SignalType} {name : String} :
    name ∈ type.allNames ↔ type.Has name := by
  cases type with
  | flat names => exact Iff.rfl
  | pair top bottom => exact NameSet.mem_union

/-- A condition reads names of the signals that flow in, and names of the configuration. -/
def Condition.Reads (s : Symbols) (inputs : SignalType) (c : Condition) : Prop :=
  ∀ operand ∈ c.operands,
    match operand with
    | .ident id => inputs.Has id.name
    | .state id => ∃ entry ∈ s.configuration, entry.name = id.name
    | .literal _ => True

namespace Arrow

variable {s : Symbols}

def intact : Arrow → Bool
  | compose left right _ | pairUp left right _ | fanOut left right _ | choose _ left right _ =>
    left.intact && right.intact
  | first inner _ | second inner _ | paren inner _ => inner.intact
  | split _ | merge _ _ | wire _ _ | wirePair _ _ _ | use _ _ => true
  | failed _ => false

def components : Arrow → List Ident
  | compose left right _ | pairUp left right _ | fanOut left right _ | choose _ left right _ =>
    left.components ++ right.components
  | first inner _ | second inner _ | paren inner _ => inner.components
  | use component _ => [component]
  | split _ | merge _ _ | wire _ _ | wirePair _ _ _ | failed _ => []

/-- The expression was read whole, and all its components have interfaces. -/
structure Sound (s : Symbols) (e : Arrow) : Prop where
  intact : e.intact = true
  known : ∀ id ∈ e.components, (s.leafOf? id.name).isSome = true

/-- The last node of an expression into which `context` flows is typed as its parts require. -/
def Agrees (s : Symbols) (context : Option SignalType) (e : Arrow) : Prop :=
  (e.derived s context).types.isKnown = true ∧ (e.derived s context).nested = false ∧
  match e with
  | compose left right _ =>
    (left.derived s (e.around s context)).types.outputs =
      (right.derived s (left.derived s (e.around s context)).types.outputs).types.inputs
  | fanOut left right _ =>
    (left.derived s (e.around s context)).types.inputs =
      (right.derived s (e.around s context)).types.inputs
  | choose condition onTrue onFalse _ =>
    (onTrue.derived s context).types.inputs = (onFalse.derived s context).types.inputs ∧
      (onTrue.derived s context).types.outputs = (onFalse.derived s context).types.outputs ∧
      ∀ type, (e.derived s context).types.inputs = some type → condition.Reads s type
  | _ => True

/-- All nodes agree. -/
def Accepted (s : Symbols) (context : Option SignalType) : Arrow → Prop
  | compose left right span =>
    left.Accepted s ((compose left right span).around s context) ∧
      right.Accepted s (left.derived s ((compose left right span).around s context)).types.outputs ∧
      (compose left right span).Agrees s context
  | pairUp left right span =>
    left.Accepted s (SignalType.half? true ((pairUp left right span).around s context)) ∧
      right.Accepted s (SignalType.half? false ((pairUp left right span).around s context)) ∧
      (pairUp left right span).Agrees s context
  | fanOut left right span =>
    left.Accepted s ((fanOut left right span).around s context) ∧
      right.Accepted s ((fanOut left right span).around s context) ∧
      (fanOut left right span).Agrees s context
  | choose condition onTrue onFalse span =>
    onTrue.Accepted s context ∧ onFalse.Accepted s context ∧
      (choose condition onTrue onFalse span).Agrees s context
  | first inner span =>
    inner.Accepted s (SignalType.half? true context) ∧ (first inner span).Agrees s context
  | second inner span =>
    inner.Accepted s (SignalType.half? false context) ∧ (second inner span).Agrees s context
  | paren inner span =>
    inner.Accepted s ((paren inner span).around s context) ∧ (paren inner span).Agrees s context
  | split span => (split span).Agrees s context
  | merge entries span => (merge entries span).Agrees s context
  | wire entries span => (wire entries span).Agrees s context
  | wirePair top bottom span => (wirePair top bottom span).Agrees s context
  | use component span => (use component span).Agrees s context
  | failed span => (failed span).Agrees s context

theorem accepted_iff {context : Option SignalType} (e : Arrow) :
    e.Accepted s context ↔ (∀ x ∈ e.fed s context, x.1.Accepted s x.2) ∧ e.Agrees s context := by
  cases e <;> simp [Accepted, fed, and_assoc]

theorem Accepted.agrees {context : Option SignalType} {e : Arrow}
    (h : e.Accepted s context) : e.Agrees s context := by
  cases e with
  | compose | pairUp | fanOut | choose => exact h.2.2
  | first | second | paren => exact h.2
  | split | merge | wire | wirePair | use | failed => exact h

theorem Accepted.known {context : Option SignalType} {e : Arrow}
    (h : e.Accepted s context) : (e.derived s context).types.isKnown = true := h.agrees.1

end Arrow

namespace Arena

/-- The node was not read wrongly, and if it uses a component it is typed. -/
def Healthy (a : Arena) (i : Nat) : Prop :=
  ∀ node, a.node? i = some node →
    node.kind ≠ .failed ∧ ∀ component, node.kind = .use component → node.types.isKnown = true

/-- No node stands for a failure of earlier passes. -/
def NoFailure (a : Arena) : Prop := ∀ i, a.Healthy i

theorem NoFailure.holdsFailure {a : Arena} (h : a.NoFailure) (i : Nat) :
    a.holdsFailure i = false := by
  induction i using Nat.strongRecOn with
  | ind i ih =>
    rw [Arena.holdsFailure]
    cases hn : a.node? i with
    | none => rfl
    | some node =>
      obtain ⟨hf, hu⟩ := h i node hn
      have hbelow : (node.kind.children.any fun c => if c < i then a.holdsFailure c else false) =
          false := by
        rw [List.any_eq_false]
        intro c _
        by_cases hc : c < i
        · simp [hc, ih c hc]
        · simp [hc]
      cases hk : node.kind with
      | failed => exact absurd hk hf
      | use component => simp [hk, hu component hk]
      | _ => simpa [hk] using hbelow

theorem NoFailure.failureAround {a : Arena} (h : a.NoFailure) (i : Nat) :
    a.failureAround i = false := by
  fun_induction Arena.failureAround a i with
  | case1 => rfl
  | case2 i p hp ih =>
    have hbeside : (a.children p).any (fun c => c != i && a.holdsFailure c) = false := by
      rw [List.any_eq_false]
      intro c _
      simp [h.holdsFailure c]
    rw [hbeside, Bool.false_or]
    split
    · exact ih ‹_›
    · rfl

/-- What derivation has left at a place. -/
def entry (a : Arena) (nested : List Nat) (i : Nat) : CombinedTypes :=
  ⟨a.types i, nested.contains i⟩

theorem unequal_eq_nil_iff {span : Span} {problem : SignalType → SignalType → Problem}
    {x y : Option SignalType} (hx : x.isSome = true) (hy : y.isSome = true) :
    unequal span problem x y = [] ↔ x = y := by
  obtain ⟨t, rfl⟩ := Option.isSome_iff_exists.mp hx
  obtain ⟨u, rfl⟩ := Option.isSome_iff_exists.mp hy
  simp [unequal]

theorem splitsPair_eq_none (h : kind ≠ .split) (parent : Option Nat) (span : Span)
    (t : NodeTypes) : splitsPair ⟨kind, parent, span, t⟩ = none := by
  unfold splitsPair
  split
  · exact absurd ‹_› h
  · rfl

theorem conditionFindings_eq_nil_iff {s : Symbols} {type : SignalType} {c : Condition} :
    conditionFindings s (some type) c = [] ↔ c.Reads s type := by
  rw [conditionFindings, Condition.terminals_eq, List.flatMap_eq_nil_iff]
  refine forall_congr' fun operand => imp_congr_right fun _ => ?_
  cases operand with
  | ident id => simp [SignalType.mem_allNames]
  | state id => simp [Symbols.hasConfiguration]
  | literal lit => simp

theorem nodeFindings_eq_nil_iff {s : Symbols} {a : Arena} {nested : List Nat} {parent : Option Nat}
    {span : Span} (hs : a.shape i = some (kind, parent, span)) (hf : a.NoFailure)
    (hc : ∀ c ∈ kind.children, a.isTyped c = true)
    (hp : (splitsPair ⟨kind, parent, span, a.types i⟩).isSome = true → (a.types i).isKnown =
      false) :
    a.nodeFindings s nested i = [] ↔
      (a.types i).isKnown = true ∧ nested.contains i = false ∧
        agreementFindings s a ⟨kind, parent, span, a.types i⟩ = [] := by
  simp only [nodeFindings, node?_of_shape hs]
  cases hsp : splitsPair ⟨kind, parent, span, a.types i⟩ with
  | some got => simp [hp (by simp [hsp])]
  | none =>
    have hgap : a.startsGap i ⟨kind, parent, span, a.types i⟩ = !(a.types i).isKnown := by
      obtain ⟨hfail, huse⟩ := hf i _ (node?_of_shape hs)
      cases kind with
      | failed => exact absurd rfl hfail
      | use component => simp [startsGap, huse component rfl]
      | _ => simpa [startsGap, hf.failureAround i] using fun _ => hc
    rw [hgap]
    cases nested.contains i <;> cases (a.types i).isKnown <;> simp

/-- `P` holds at the `n` places from `base` on. -/
def Throughout (P : Nat → Prop) (base n : Nat) : Prop := ∀ i, base ≤ i → i < base + n → P i

theorem throughout_one {base : Nat} :
    Throughout P base (m + 1) ↔ Throughout P base m ∧ P (base + m) := by
  refine ⟨fun h => ⟨fun i _ _ => h i (by omega) (by omega), h _ (by omega) (by omega)⟩, ?_⟩
  rintro ⟨hinner, hlast⟩ i hlow hhigh
  by_cases heq : i = base + m
  · exact heq ▸ hlast
  · exact hinner i hlow (by omega)

theorem throughout_append {base n : Nat} :
    Throughout P base (m + n) ↔ Throughout P base m ∧ Throughout P (base + m) n := by
  refine ⟨fun h => ⟨?_, ?_⟩, ?_⟩
  · exact fun i _ _ => h i (by omega) (by omega)
  · exact fun i _ _ => h i (by omega) (by omega)
  · rintro ⟨hleft, hright⟩ i hlow hhigh
    by_cases hlt : i < base + m
    · exact hleft i hlow hlt
    · exact hright i (by omega) (by omega)

theorem throughout_two {base n : Nat} :
    Throughout P base (m + n + 1) ↔
      Throughout P base m ∧ Throughout P (base + m) n ∧ P (base + m + n) := by
  rw [throughout_one, throughout_append, Nat.add_assoc, and_assoc]

section Findings

variable {s : Symbols} {a : Arena} {nested : List Nat} {e left right : Arrow}
  {context : Option SignalType}

theorem entry_root {base : Nat} (h : Follows (a.entry nested) base (e.derivedRow s context)) :
    a.entry nested (base + e.size - 1) = e.derived s context := by
  have hlast : (e.derivedRow s context).getLast? = some (e.derived s context) := by
    cases e <;> simp [Arrow.derivedRow]
  obtain ⟨init, hinit⟩ := List.getLast?_eq_some_iff.mp hlast
  have hlen := e.length_derivedRow s context
  rw [hinit, List.length_append, List.length_singleton] at hlen
  rw [hinit, Follows.append_iff, Follows.singleton_iff] at h
  rw [← hlen, ← Nat.add_assoc, Nat.add_sub_cancel]
  exact h.2

def Quiet (s : Symbols) (a : Arena) (nested : List Nat) (i : Nat) : Prop :=
  a.nodeFindings s nested i = []

/-- Nothing is found on the nodes of a laid-out expression just when all of them agree. -/
def Settles (s : Symbols) (e : Arrow) : Prop :=
  ∀ (a : Arena) (nested : List Nat) (base : Nat) (parent : Option Nat) (context : Option
      SignalType),
    a.NoFailure → e.Laid a.shape base parent →
    Follows (a.entry nested) base (e.derivedRow s context) →
    (Throughout (a.Quiet s nested) base e.size ↔ e.Accepted s context)

theorem quiet_iff_agreement {parent : Option Nat} {span : Span}
    (hf : a.NoFailure) (hs : a.shape i = some (kind, parent, span))
    (he : a.entry nested i = e.derived s context) (hc : ∀ c ∈ kind.children, a.isTyped c = true)
    (hp : (splitsPair ⟨kind, parent, span, a.types i⟩).isSome = true → (a.types i).isKnown =
      false) :
    a.Quiet s nested i ↔
      (e.derived s context).types.isKnown = true ∧ (e.derived s context).nested = false ∧
        agreementFindings s a ⟨kind, parent, span, (e.derived s context).types⟩ = [] := by
  rw [Quiet, nodeFindings_eq_nil_iff hs hf hc hp, ← he]
  rfl

theorem settles_all {xs : List (Arrow × Option SignalType)} (h : ∀ x ∈ xs, Settles s x.1)
    {base parent : Nat} (hf : a.NoFailure)
    (hl : Arrow.LaidAll a.shape parent base (xs.map Prod.fst))
    (hr : Follows (a.entry nested) base (xs.flatMap fun x => x.1.derivedRow s x.2)) :
    Throughout (a.Quiet s nested) base (Arrow.sizeAll (xs.map Prod.fst)) ↔
    ∀ x ∈ xs, x.1.Accepted s x.2 := by
  induction xs generalizing base with
  | nil =>
    refine iff_of_true (fun i hlow hhigh => ?_) (by simp)
    exact absurd hhigh (Nat.not_lt.mpr hlow)
  | cons x xs ih =>
    rw [List.forall_mem_cons] at h
    rw [List.flatMap_cons, Follows.append_iff, Arrow.length_derivedRow] at hr
    rw [List.map_cons, Arrow.sizeAll, throughout_append, List.forall_mem_cons, ih h.2 hl.2 hr.2,
      h.1 a nested base _ _ hf hl.1 hr.1]

theorem isSome_of_isKnown {t : NodeTypes} (h : t.isKnown = true) :
    t.inputs.isSome = true ∧ t.outputs.isSome = true := by
  simpa [NodeTypes.isKnown] using h

theorem types_of_pair {base : Nat} {contextl contextr : Option SignalType}
    (h : Follows (a.entry nested) base
      ([(left, contextl), (right, contextr)].flatMap fun x => x.1.derivedRow s x.2)) :
    a.types (base + left.size - 1) = (left.derived s contextl).types ∧
      a.types (base + left.size + right.size - 1) = (right.derived s contextr).types := by
  simp only [List.flatMap_cons, List.flatMap_nil, List.append_nil, Follows.append_iff,
    Arrow.length_derivedRow] at h
  exact ⟨congrArg CombinedTypes.types (entry_root h.1),
    congrArg CombinedTypes.types (entry_root h.2)⟩

section Parts

variable {base : Nat}
  (hr : Follows (a.entry nested) base ((e.fed s context).flatMap fun x => x.1.derivedRow s x.2))
  (hacc : ∀ x ∈ e.fed s context, x.1.Accepted s x.2)

include hr hacc

theorem isTyped_of_accepted : ∀ c ∈ (e.kindAt base).children, a.isTyped c = true := by
  cases e with
  | compose left right | pairUp left right | fanOut left right | choose _ left right =>
    obtain ⟨hl, hr⟩ := types_of_pair hr
    simp only [Arrow.fed, List.forall_mem_cons] at hacc
    simp [Arrow.kindAt, NodeKind.children, isTyped, hl, hr, hacc.1.known, hacc.2.1.known]
  | first inner | second inner | paren inner =>
    have hi : a.types (base + inner.size - 1) = _ :=
      congrArg CombinedTypes.types (entry_root (e := inner) (by simpa [Arrow.fed] using hr))
    simp only [Arrow.fed, List.forall_mem_singleton] at hacc
    simp [Arrow.kindAt, NodeKind.children, isTyped, hi, hacc.known]
  | split | merge | wire | wirePair | use | failed => simp [Arrow.kindAt, NodeKind.children]

theorem agreementFindings_eq_nil_iff (parent : Option Nat) :
    (e.derived s context).types.isKnown = true ∧ (e.derived s context).nested = false ∧
        agreementFindings s a ⟨e.kindAt base, parent, e.span, (e.derived s context).types⟩ = [] ↔
      e.Agrees s context := by
  refine and_congr_right fun hk => and_congr_right fun _ => ?_
  cases e with
  | compose left right =>
    obtain ⟨hl, hr⟩ := types_of_pair hr
    simp only [Arrow.fed, List.forall_mem_cons] at hacc
    simp only [agreementFindings, Arrow.kindAt, outputs_eq, inputs_eq, hl, hr]
    exact unequal_eq_nil_iff (isSome_of_isKnown hacc.1.known).2 (isSome_of_isKnown hacc.2.1.known).1
  | fanOut left right =>
    obtain ⟨hl, hr⟩ := types_of_pair hr
    simp only [Arrow.fed, List.forall_mem_cons] at hacc
    simp only [agreementFindings, Arrow.kindAt, inputs_eq, hl, hr]
    exact unequal_eq_nil_iff (isSome_of_isKnown hacc.1.known).1 (isSome_of_isKnown hacc.2.1.known).1
  | choose condition left right =>
    obtain ⟨hl, hr⟩ := types_of_pair hr
    simp only [Arrow.fed, List.forall_mem_cons] at hacc
    obtain ⟨type, ht⟩ := Option.isSome_iff_exists.mp (isSome_of_isKnown hk).1
    simp only [agreementFindings, Arrow.kindAt, outputs_eq, inputs_eq, hl, hr, ht,
      List.append_eq_nil_iff, conditionFindings_eq_nil_iff, and_assoc]
    rw [unequal_eq_nil_iff (isSome_of_isKnown hacc.1.known).1 (isSome_of_isKnown hacc.2.1.known).1,
      unequal_eq_nil_iff (isSome_of_isKnown hacc.1.known).2 (isSome_of_isKnown hacc.2.1.known).2]
    simp
  | _ => simp [agreementFindings, Arrow.kindAt]

end Parts

theorem isKnown_of_splitsPair {base : Nat} {parent : Option Nat}
    (h : (splitsPair ⟨e.kindAt base, parent, e.span, (e.derived s context).types⟩).isSome = true) :
    (e.derived s context).types.isKnown = false := by
  cases e with
  | split =>
    rcases context with _ | (_ | _) <;> simp_all [Arrow.derived, splitsPair, Arrow.kindAt,
      NodeTypes.isKnown]
  | _ => simp [splitsPair, Arrow.kindAt] at h

theorem settles (s : Symbols) (e : Arrow) : Settles s e := by
  induction e using Arrow.parts_induction with
  | step e ih =>
    intro a nested base parent context hf hl hr
    have hroot := hl.root
    have he := entry_root hr
    have hlp := hl.laidAll
    rw [e.size_eq, ← Nat.add_assoc, Nat.add_sub_cancel] at hroot he
    rw [Arrow.derivedRow_fed, Follows.append_iff] at hr
    rw [← e.map_fed s context] at ih hlp
    rw [e.size_eq, throughout_one, e.accepted_iff]
    have hall := settles_all (List.forall_mem_map.mp ih) hf hlp hr.1
    rw [e.map_fed] at hall
    rw [hall]
    refine and_congr_right fun hacc => ?_
    rw [quiet_iff_agreement hf hroot he (isTyped_of_accepted hr.1 hacc) fun h => ?_,
      agreementFindings_eq_nil_iff hr.1 hacc]
    rw [show a.types _ = _ from congrArg CombinedTypes.types he] at h ⊢
    exact isKnown_of_splitsPair h

theorem healthy_of_shape {parent : Option Nat} {span : Span}
    (hs : a.shape i = some (kind, parent, span)) (hf : kind ≠ .failed)
    (hu : ∀ component, kind = .use component → (a.types i).isKnown = true) : a.Healthy i := by
  intro node hn
  rw [node?_of_shape hs, Option.some.injEq] at hn
  subst hn
  exact ⟨hf, hu⟩

theorem healthy_of_sound {base : Nat} {parent : Option Nat} (hsound : e.Sound s)
    (hl : e.Laid a.shape base parent)
    (hr : Follows (a.entry nested) base (e.derivedRow s context)) :
    Throughout a.Healthy base e.size := by
  induction e generalizing base parent context with
  | compose left right span ihl ihr
  | pairUp left right span ihl ihr | fanOut left right span ihl ihr
  | choose condition left right span ihl ihr =>
    obtain ⟨hi, hk⟩ := hsound
    simp only [Arrow.intact, Bool.and_eq_true, Arrow.components, List.forall_mem_append] at hi hk
    simp only [Arrow.derivedRow, Follows.append_iff, Arrow.length_derivedRow] at hr
    obtain ⟨⟨hrl, hrr⟩, -⟩ := hr
    have hroot := hl.root
    refine throughout_two.mpr ⟨ihl ⟨hi.1, hk.1⟩ hl.2.1 hrl, ihr ⟨hi.2, hk.2⟩ hl.2.2 hrr, ?_⟩
    rw [Nat.add_assoc]
    exact healthy_of_shape hroot (by simp [Arrow.kindAt]) (by simp [Arrow.kindAt])
  | first inner span ih | second inner span ih | paren inner span ih =>
    obtain ⟨hi, hk⟩ := hsound
    simp only [Arrow.derivedRow, Follows.append_iff] at hr
    refine throughout_one.mpr ⟨ih ⟨hi, hk⟩ hl.2 hr.1, ?_⟩
    exact healthy_of_shape hl.root (by simp [Arrow.kindAt]) (by simp [Arrow.kindAt])
  | split | merge | wire | wirePair =>
    refine throughout_one.mpr ⟨fun i hlow hhigh => absurd hhigh (by omega), ?_⟩
    exact healthy_of_shape hl.root (by simp [Arrow.kindAt]) (by simp [Arrow.kindAt])
  | use component span =>
    refine throughout_one.mpr ⟨fun i hlow hhigh => absurd hhigh (by omega), ?_⟩
    refine healthy_of_shape hl.root (by simp [Arrow.kindAt]) fun _ _ => ?_
    obtain ⟨leaf, hleaf⟩ := Option.isSome_iff_exists.mp
      (hsound.known component (by simp [Arrow.components]))
    have ht := congrArg CombinedTypes.types (entry_root hr)
    simp only [Arrow.derived, NodeKind.ownTypes, hleaf] at ht
    exact congrArg NodeTypes.isKnown ht
  | failed => exact absurd hsound.intact (by simp [Arrow.intact])

end Findings

section Analysis

variable {a : Arena} (s : Symbols) (e : Arrow)

def typed : Arena × List Nat := ((ofArrow e).infer s).1.derive s.declaredInputs

theorem laid_typed : e.Laid (typed s e).1.shape 0 none := by
  have h := (derive_infer_ofArrow s s.declaredInputs e).1
  exact h.shape ▸ laid_ofArrow e

theorem size_typed : (typed s e).1.size = e.size :=
  (derive_infer_ofArrow s s.declaredInputs e).1.size.trans (size_ofArrow e)

theorem contains_marks (row : List CombinedTypes) (k : Nat) (h : k < row.length) :
    (marks 0 row).contains k = row[k].nested := by
  rw [Bool.eq_iff_iff, List.contains_iff_mem, marks, List.mem_filterMap]
  constructor
  · rintro ⟨⟨c, j⟩, hmem, hc⟩
    rw [List.mem_zipIdx_iff_getElem?] at hmem
    split at hc
    · obtain rfl : j = k := by simpa using hc
      rw [List.getElem?_eq_getElem h, Option.some.injEq] at hmem
      exact hmem ▸ ‹_›
    · simp at hc
  · intro hn
    exact ⟨(row[k], k), List.mem_zipIdx_iff_getElem?.mpr (List.getElem?_eq_getElem h), by simp [hn]⟩

theorem follows_typed :
    Follows ((typed s e).1.entry (typed s e).2) 0 (e.derivedRow s (some s.declaredInputs)) := by
  obtain ⟨-, hr, hm⟩ := derive_infer_ofArrow s s.declaredInputs e
  intro k hk
  have ht := hr k (by simpa using hk)
  rw [List.getElem_map] at ht
  have hc := contains_marks _ k hk
  rw [← hm] at hc
  rw [entry, Nat.zero_add] at *
  exact congrArg₂ CombinedTypes.mk ht hc

variable {s e}

theorem noFailure_typed (h : e.Sound s) : (typed s e).1.NoFailure := by
  intro i node hn
  have hlt : i < e.size := size_typed s e ▸ (List.getElem?_eq_some_iff.mp hn).1
  exact healthy_of_sound h (laid_typed s e) (follows_typed s e) i (by omega) (by omega) node hn

theorem types_root_typed :
    (typed s e).1.types (typed s e).1.root = (e.derived s (some s.declaredInputs)).types := by
  have h := congrArg CombinedTypes.types (entry_root (follows_typed s e))
  rw [Nat.zero_add] at h
  rw [root, size_typed]
  exact h

theorem analyze_eq_nil_iff (h : e.Sound s) :
    (((ofArrow e).infer s).1.analyze s).2.2 = [] ↔
      e.Accepted s (some s.declaredInputs) ∧
        (e.derived s (some s.declaredInputs)).types =
          ⟨some s.declaredInputs, some s.declaredOutputs⟩ := by
  have hquiet : (List.range (typed s e).1.size).flatMap
      ((typed s e).1.nodeFindings s (typed s e).2) = [] ↔ e.Accepted s (some s.declaredInputs) := by
    rw [← settles s e _ _ 0 none _ (noFailure_typed h) (laid_typed s e) (follows_typed s e),
      List.flatMap_eq_nil_iff, size_typed]
    simp [Throughout, Quiet]
  have ht : (typed s e).1.types (typed s e).1.root = _ := types_root_typed
  have hall : (((ofArrow e).infer s).1.analyze s).2.2 = [] ↔
      (List.range (typed s e).1.size).flatMap ((typed s e).1.nodeFindings s (typed s e).2) = [] ∧
      unequal (((typed s e).1.node? (typed s e).1.root).map ArrowNode.span |>.getD default)
        .mismatchedInputs (some s.declaredInputs) ((typed s e).1.inputs (typed s e).1.root) = [] ∧
      unequal (((typed s e).1.node? (typed s e).1.root).map ArrowNode.span |>.getD default)
        .mismatchedOutputs (some s.declaredOutputs) ((typed s e).1.outputs (typed s e).1.root) =
        [] := by
    simp only [analyze, List.append_eq_nil_iff]
    exact Iff.rfl
  rw [hall, hquiet, inputs_eq, outputs_eq, ht]
  refine and_congr_right fun hacc => ?_
  obtain ⟨hi, ho⟩ := isSome_of_isKnown hacc.known
  rw [unequal_eq_nil_iff rfl hi, unequal_eq_nil_iff rfl ho]
  constructor
  · rintro ⟨hi, ho⟩
    exact congrArg₂ NodeTypes.mk hi.symm ho.symm
  · intro h
    simp [h]

theorem wrong_of_mem_unequal {span : Span} {problem : SignalType → SignalType → Problem}
    (hproblem : ∀ t u, (⟨span, problem t u⟩ : Finding).Wrong) {x y : Option SignalType}
    (h : f ∈ unequal span problem x y) : f.Wrong := by
  unfold unequal at h
  split at h
  · split at h
    · simp at h
    · rw [List.mem_singleton.mp h]
      exact hproblem _ _
  · simp at h

theorem wrong_of_mem_agreementFindings {node : ArrowNode}
    (h : f ∈ agreementFindings s a node) : f.Wrong := by
  unfold agreementFindings at h
  split at h
  · exact wrong_of_mem_unequal (fun _ _ => ⟨rfl, rfl⟩) h
  · exact wrong_of_mem_unequal (fun _ _ => ⟨rfl, rfl⟩) h
  · rw [List.mem_append, List.mem_append] at h
    rcases h with (h | h) | h
    · exact wrong_of_mem_unequal (fun _ _ => ⟨rfl, rfl⟩) h
    · exact wrong_of_mem_unequal (fun _ _ => ⟨rfl, rfl⟩) h
    · obtain ⟨operand, -, h⟩ := List.mem_flatMap.mp h
      repeat' split at h
      all_goals simp at h
      all_goals subst h; exact ⟨rfl, rfl⟩
  · simp at h

theorem wrong_of_mem_nodeFindings {nested : List Nat}
    (h : f ∈ a.nodeFindings s nested i) : f.Wrong := by
  unfold nodeFindings at h
  split at h
  · simp at h
  · split at h
    · rw [List.mem_singleton.mp h]
      exact ⟨rfl, rfl⟩
    · rcases List.mem_append.mp h with h | h
      · exact wrong_of_mem_agreementFindings h
      · repeat' split at h
        all_goals simp at h
        all_goals subst h; exact ⟨rfl, rfl⟩

theorem wrong_of_mem_analyze (h : f ∈ (a.analyze s).2.2) :
    f.Wrong := by
  simp only [analyze, List.mem_append] at h
  rcases h with h | h | h
  · obtain ⟨i, -, h⟩ := List.mem_flatMap.mp h
    exact wrong_of_mem_nodeFindings h
  · exact wrong_of_mem_unequal (fun _ _ => ⟨rfl, rfl⟩) h
  · exact wrong_of_mem_unequal (fun _ _ => ⟨rfl, rfl⟩) h

end Analysis

end Arena

end PipelineLang
