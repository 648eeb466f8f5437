import Mathlib.Data.List.Induction
import PipelineLang.Proofs.Arrow.Agreement
import PipelineLang.Target.ArrowProgram

/-! The straight-line program of an expression: it exists for all that was read whole and uses
declared components only, and its steps build the parts of the expression one by one. -/

namespace PipelineLang

/-- The value is there before the step with that number. -/
def ArrowValue.Before (n : Nat) : ArrowValue → Prop
  | declared _ => True
  | temporary step => step < n

namespace ArrowProgram

section Accumulation

universe u v

variable {α : Type u} {β : Type v} (f : List β → α → β)

/-- The results of steps that are taken in turn, each with the results before it at hand. -/
def accumulated (xs : List α) : List β := xs.foldl (fun made x => made ++ [f made x]) []

theorem accumulated_append (xs : List α) (x : α) :
    accumulated f (xs ++ [x]) = accumulated f xs ++ [f (accumulated f xs) x] := by
  simp [accumulated]

@[simp] theorem length_accumulated (xs : List α) : (accumulated f xs).length = xs.length := by
  induction xs using List.reverseRecOn with
  | nil => rfl
  | append_singleton xs x ih => simp [accumulated_append, ih]

theorem getElem?_accumulated {xs : List α} {k : Nat} {x : α} (h : xs[k]? = some x) :
    (accumulated f xs)[k]? = some (f ((accumulated f xs).take k) x) := by
  induction xs using List.reverseRecOn with
  | nil => cases h
  | append_singleton xs last ih =>
    have hlen := length_accumulated f xs
    rw [accumulated_append]
    by_cases hk : k < xs.length
    · rw [List.getElem?_append_left hk] at h
      rw [List.getElem?_append_left (by omega), List.take_append_of_le_length (by omega), ih h]
    · obtain rfl : k = xs.length := by
        have hlt := (List.getElem?_eq_some_iff.mp h).1
        simp only [List.length_append, List.length_singleton] at hlt
        omega
      rw [List.getElem?_concat_length, Option.some.injEq] at h
      subst h
      rw [← hlen, List.getElem?_concat_length, List.take_left]

end Accumulation

/-- The steps build the expression, and leave it in the value. -/
inductive Builds (steps : List ArrowStep) : Arrow → ArrowValue → Prop where
  | use {component : Ident} {span : Span} :
      Builds steps (.use component span) (.declared component.name)
  | paren {inner : Arrow} {span : Span} {v : ArrowValue} :
      Builds steps inner v → Builds steps (.paren inner span) v
  | compose {left right : Arrow} {span : Span} {l r : ArrowValue} {k : Nat} :
      Builds steps left l → Builds steps right r → l.Before k → r.Before k →
      steps[k]? = some (.compose l r) → Builds steps (.compose left right span) (.temporary k)
  | pairUp {left right : Arrow} {span : Span} {l r : ArrowValue} {k : Nat} :
      Builds steps left l → Builds steps right r → l.Before k → r.Before k →
      steps[k]? = some (.pairUp l r) → Builds steps (.pairUp left right span) (.temporary k)
  | fanOut {left right : Arrow} {span : Span} {l r : ArrowValue} {k : Nat} :
      Builds steps left l → Builds steps right r → l.Before k → r.Before k →
      steps[k]? = some (.fanOut l r) → Builds steps (.fanOut left right span) (.temporary k)
  | choose {condition : Condition} {onTrue onFalse : Arrow} {span : Span} {t f : ArrowValue}
      {k : Nat} :
      Builds steps onTrue t → Builds steps onFalse f → t.Before k → f.Before k →
      steps[k]? = some (.choose condition t f) →
      Builds steps (.choose condition onTrue onFalse span) (.temporary k)
  | first {inner : Arrow} {span : Span} {v : ArrowValue} {k : Nat} :
      Builds steps inner v → v.Before k → steps[k]? = some (.first v) →
      Builds steps (.first inner span) (.temporary k)
  | second {inner : Arrow} {span : Span} {v : ArrowValue} {k : Nat} :
      Builds steps inner v → v.Before k → steps[k]? = some (.second v) →
      Builds steps (.second inner span) (.temporary k)
  | split {span : Span} {k : Nat} : steps[k]? = some .split →
      Builds steps (.split span) (.temporary k)
  | merge {entries : List MergeMapping} {span : Span} {k : Nat} :
      steps[k]? = some (.merge entries) → Builds steps (.merge entries span) (.temporary k)
  | wire {entries : List Mapping} {span : Span} {k : Nat} :
      steps[k]? = some (.wire entries) → Builds steps (.wire entries span) (.temporary k)
  | wirePair {top bottom : List Mapping} {span : Span} {k : Nat} :
      steps[k]? = some (.wirePair top bottom) →
      Builds steps (.wirePair top bottom span) (.temporary k)

namespace Builds

variable {steps : List ArrowStep} {e : Arrow} {v : ArrowValue}

theorem before (h : Builds steps e v) : v.Before steps.length := by
  induction h with
  | use => trivial
  | paren _ ih => exact ih
  | compose _ _ _ _ hk | pairUp _ _ _ _ hk | fanOut _ _ _ _ hk | choose _ _ _ _ hk | first _ _ hk
  | second _ _ hk | split hk | merge hk | wire hk | wirePair hk =>
    exact (List.getElem?_eq_some_iff.mp hk).1

theorem append (h : Builds steps e v) (more : List ArrowStep) : Builds (steps ++ more) e v := by
  have hstep : ∀ {k : Nat} {step : ArrowStep}, steps[k]? = some step →
      (steps ++ more)[k]? = some step :=
    fun hk => by rw [List.getElem?_append_left (List.getElem?_eq_some_iff.mp hk).1, hk]
  induction h with
  | use => exact .use
  | paren _ ih => exact .paren ih
  | compose _ _ hl hr hk ihl ihr => exact .compose ihl ihr hl hr (hstep hk)
  | pairUp _ _ hl hr hk ihl ihr => exact .pairUp ihl ihr hl hr (hstep hk)
  | fanOut _ _ hl hr hk ihl ihr => exact .fanOut ihl ihr hl hr (hstep hk)
  | choose _ _ ht hf hk iht ihf => exact .choose iht ihf ht hf (hstep hk)
  | first _ hv hk ih => exact .first ih hv (hstep hk)
  | second _ hv hk ih => exact .second ih hv (hstep hk)
  | split hk => exact .split (hstep hk)
  | merge hk => exact .merge (hstep hk)
  | wire hk => exact .wire (hstep hk)
  | wirePair hk => exact .wirePair (hstep hk)

end Builds

section Emission

variable {declared : List String} {a b : Arena} {e left right inner : Arrow}

theorem valueAt_of_some {values : List ArrowValue} {i : Nat} {v : ArrowValue}
    (h : values[i]? = some v) :
    valueAt a values i = .ok v := by
  simp only [valueAt, h]

/-- The nodes of the expression add steps that build it. -/
def Emits (declared : List String) (a : Arena) (e : Arrow) : Prop :=
  ∀ (base : Nat) (parent : Option Nat) (p : Progress), p.values.length = base →
    ∃ vs ss v, (e.layOut base parent).foldlM (addNode declared a) p =
        .ok ⟨p.values ++ (vs ++ [v]), p.steps ++ ss⟩ ∧
      vs.length + 1 = e.size ∧ Builds (p.steps ++ ss) e v

theorem emits_pair (step : ArrowValue → ArrowValue → ArrowStep)
    (hsize : e.size = left.size + right.size + 1)
    (hparts : ∀ base, e.partsAt base = left.layOut base (some (base + left.size + right.size))
      ++ right.layOut (base + left.size) (some (base + left.size + right.size)))
    (hnode : ∀ (base : Nat) (parent : Option Nat) (p : Progress) (l r : ArrowValue),
      p.values[base + left.size - 1]? = some l →
      p.values[base + left.size + right.size - 1]? = some r →
        addNode declared a p ⟨e.kindAt base, parent, e.span, .unknown⟩ = .ok (p.build (step l r)))
    (hbuilds : ∀ {steps : List ArrowStep} {l r : ArrowValue} {k : Nat}, Builds steps left l →
      Builds steps right r → l.Before k → r.Before k → steps[k]? = some (step l r) →
        Builds steps e (.temporary k))
    (ihl : Emits declared a left) (ihr : Emits declared a right) : Emits declared a e := by
  intro base parent p hp
  obtain ⟨vs, ss, l, hl, hlsize, hlbuilds⟩ := ihl base (some (base + left.size + right.size)) p hp
  have hmid : (p.values ++ (vs ++ [l])).length = base + left.size := by
    simp only [List.length_append, List.length_singleton]
    omega
  obtain ⟨vs', ss', r, hr, hrsize, hrbuilds⟩ := ihr (base + left.size)
    (some (base + left.size + right.size)) ⟨p.values ++ (vs ++ [l]), p.steps ++ ss⟩ hmid
  refine ⟨vs ++ [l] ++ vs' ++ [r], ss ++ ss' ++ [step l r],
    .temporary (p.steps ++ ss ++ ss').length, ?_, ?_, ?_⟩
  · rw [Arrow.layOut_eq, hparts, List.foldlM_append, List.foldlM_append, hl]
    simp only [bind, Except.bind, hr, List.foldlM_cons, List.foldlM_nil, pure, Except.pure]
    rw [hnode base parent _ l r]
    · simp only [Progress.build, List.append_assoc]
    · rw [List.getElem?_append_left (by omega), List.getElem?_append_right (by omega),
        List.getElem?_append_right (by omega)]
      have hzero : base + left.size - 1 - p.values.length - vs.length = 0 := by omega
      rw [hzero]
      rfl
    · rw [List.getElem?_append_right (by omega), List.getElem?_append_right (by omega)]
      have hzero : base + left.size + right.size - 1 - (p.values ++
          (vs ++ [l])).length - vs'.length = 0 := by
        omega
      rw [hzero]
      rfl
  · simp only [List.length_append, List.length_singleton]
    omega
  · simp only [← List.append_assoc] at hrbuilds ⊢
    have hlbuilds := hlbuilds.append ss'
    refine hbuilds (hlbuilds.append [step l r]) (hrbuilds.append [step l r]) hlbuilds.before
      hrbuilds.before ?_
    simp

theorem emits_inner (hsize : e.size = inner.size + 1)
    (hparts : ∀ base, e.partsAt base = inner.layOut base (some (base + inner.size)))
    (hnode : ∀ (base : Nat) (parent : Option Nat) (p : Progress) (v : ArrowValue),
      p.values[base + inner.size - 1]? = some v → Builds p.steps inner v →
        ∃ ss w, addNode declared a p ⟨e.kindAt base, parent, e.span, .unknown⟩ =
          .ok ⟨p.values ++ [w], p.steps ++ ss⟩ ∧ Builds (p.steps ++ ss) e w)
    (ih : Emits declared a inner) : Emits declared a e := by
  intro base parent p hp
  obtain ⟨vs, ss, v, hv, hvsize, hvbuilds⟩ := ih base (some (base + inner.size)) p hp
  have hlast : (p.values ++ (vs ++ [v]))[base + inner.size - 1]? = some v := by
    rw [List.getElem?_append_right (by omega), List.getElem?_append_right (by omega)]
    have hzero : base + inner.size - 1 - p.values.length - vs.length = 0 := by omega
    rw [hzero]
    rfl
  obtain ⟨ss', w, hw, hwbuilds⟩ :=
    hnode base parent ⟨p.values ++ (vs ++ [v]), p.steps ++ ss⟩ v hlast hvbuilds
  refine ⟨vs ++ [v], ss ++ ss', w, ?_, ?_, ?_⟩
  · rw [Arrow.layOut_eq, hparts, List.foldlM_append, hv]
    simp only [bind, Except.bind, List.foldlM_cons, List.foldlM_nil, pure, Except.pure, hw,
      List.append_assoc]
  · simp only [List.length_append, List.length_singleton]
    omega
  · rw [← List.append_assoc]
    exact hwbuilds

theorem emits_leaf (hsize : e.size = 1) (hparts : ∀ base, e.partsAt base = [])
    (hnode : ∀ (base : Nat) (parent : Option Nat) (p : Progress),
      ∃ ss w, addNode declared a p ⟨e.kindAt base, parent, e.span, .unknown⟩ =
        .ok ⟨p.values ++ [w], p.steps ++ ss⟩ ∧
        Builds (p.steps ++ ss) e w) : Emits declared a e := by
  intro base parent p _
  obtain ⟨ss, w, hw, hbuilds⟩ := hnode base parent p
  refine ⟨[], ss, w, ?_, hsize.symm, hbuilds⟩
  rw [Arrow.layOut_eq, hparts]
  simp only [List.nil_append, List.foldlM_cons, List.foldlM_nil, hw]
  rfl

theorem emits_step (hsize : e.size = 1) (hparts : ∀ base, e.partsAt base = []) (step : ArrowStep)
    (hnode : ∀ (base : Nat) (parent : Option Nat) (p : Progress),
      addNode declared a p ⟨e.kindAt base, parent, e.span, .unknown⟩ = .ok (p.build step))
    (hbuilds : ∀ {steps : List ArrowStep} {k : Nat}, steps[k]? = some step →
      Builds steps e (.temporary k)) :
    Emits declared a e :=
  emits_leaf hsize hparts fun base parent p =>
    ⟨[step], .temporary p.steps.length, hnode base parent p, hbuilds (by simp)⟩

theorem emits (a : Arena) (hi : e.intact = true)
    (hk : ∀ id ∈ e.components, declared.contains id.name = true) : Emits declared a e := by
  induction e with
  | compose left right span ihl ihr =>
    simp only [Arrow.intact, Bool.and_eq_true, Arrow.components, List.forall_mem_append] at hi hk
    refine emits_pair .compose rfl (fun _ => rfl) ?_ .compose (ihl hi.1 hk.1) (ihr hi.2 hk.2)
    intro base parent p l r hl hr
    simp only [addNode, Arrow.kindAt, valueAt_of_some hl, valueAt_of_some hr]
    rfl
  | pairUp left right span ihl ihr =>
    simp only [Arrow.intact, Bool.and_eq_true, Arrow.components, List.forall_mem_append] at hi hk
    refine emits_pair .pairUp rfl (fun _ => rfl) ?_ .pairUp (ihl hi.1 hk.1) (ihr hi.2 hk.2)
    intro base parent p l r hl hr
    simp only [addNode, Arrow.kindAt, valueAt_of_some hl, valueAt_of_some hr]
    rfl
  | fanOut left right span ihl ihr =>
    simp only [Arrow.intact, Bool.and_eq_true, Arrow.components, List.forall_mem_append] at hi hk
    refine emits_pair .fanOut rfl (fun _ => rfl) ?_ .fanOut (ihl hi.1 hk.1) (ihr hi.2 hk.2)
    intro base parent p l r hl hr
    simp only [addNode, Arrow.kindAt, valueAt_of_some hl, valueAt_of_some hr]
    rfl
  | choose condition left right span ihl ihr =>
    simp only [Arrow.intact, Bool.and_eq_true, Arrow.components, List.forall_mem_append] at hi hk
    refine emits_pair (.choose condition) rfl (fun _ => rfl) ?_ .choose (ihl hi.1 hk.1)
      (ihr hi.2 hk.2)
    intro base parent p l r hl hr
    simp only [addNode, Arrow.kindAt, valueAt_of_some hl, valueAt_of_some hr]
    rfl
  | first inner span ih =>
    refine emits_inner rfl (fun _ => rfl) (fun base parent p v hv hb => ?_) (ih hi hk)
    refine ⟨[.first v], .temporary p.steps.length, ?_, .first (hb.append _) hb.before (by simp)⟩
    simp only [addNode, Arrow.kindAt, valueAt_of_some hv]
    rfl
  | second inner span ih =>
    refine emits_inner rfl (fun _ => rfl) (fun base parent p v hv hb => ?_) (ih hi hk)
    refine ⟨[.second v], .temporary p.steps.length, ?_, .second (hb.append _) hb.before (by simp)⟩
    simp only [addNode, Arrow.kindAt, valueAt_of_some hv]
    rfl
  | paren inner span ih =>
    refine emits_inner rfl (fun _ => rfl) (fun base parent p v hv hb => ?_) (ih hi hk)
    refine ⟨[], v, ?_, .paren (hb.append [])⟩
    simp only [addNode, Arrow.kindAt, valueAt_of_some hv, List.append_nil]
    rfl
  | use component span =>
    refine emits_leaf rfl (fun _ => rfl) fun base parent p => ⟨[], .declared component.name, ?_,
      .use⟩
    have hknown := hk component (List.mem_singleton.mpr rfl)
    simp only [addNode, Arrow.kindAt, hknown, if_true, List.append_nil]
    rfl
  | split span => exact emits_step rfl (fun _ => rfl) .split (fun _ _ _ => rfl) .split
  | merge entries span =>
    exact emits_step rfl (fun _ => rfl) (.merge entries) (fun _ _ _ => rfl) .merge
  | wire entries span =>
    exact emits_step rfl (fun _ => rfl) (.wire entries) (fun _ _ _ => rfl) .wire
  | wirePair top bottom span =>
    exact emits_step rfl (fun _ => rfl) (.wirePair top bottom) (fun _ _ _ => rfl) .wirePair
  | failed span => cases hi

theorem exists_ofArena_ofArrow (hi : e.intact = true)
    (hk : ∀ id ∈ e.components, declared.contains id.name = true) :
    ∃ prog, ofArena declared (.ofArrow e) = .ok prog ∧ Builds prog.steps e prog.result := by
  obtain ⟨vs, ss, v, hfold, hsize, hbuilds⟩ := emits (.ofArrow e) hi hk 0 none ⟨[], []⟩ rfl
  refine ⟨⟨ss, v⟩, ?_, hbuilds⟩
  have hlast : (vs ++ [v])[(Arena.ofArrow e).root]? = some v := by
    rw [Arena.root, Arena.size_ofArrow, ← hsize]
    simp
  rw [ofArena, Arena.nodes_ofArrow, hfold]
  simp only [bind, Except.bind, List.nil_append, valueAt_of_some hlast]
  rfl

theorem exists_ok_of_foldlM {α β ε : Type} {f : β → α → Except ε β} {xs : List α} {b b' : β}
    (h : xs.foldlM f b = .ok b') : ∀ x ∈ xs, ∃ c c', f c x = .ok c' := by
  induction xs generalizing b with
  | nil => exact fun x hx => absurd hx List.not_mem_nil
  | cons x xs ih =>
    rw [List.foldlM_cons] at h
    cases hx : f b x with
    | error fault =>
      rw [hx] at h
      cases h
    | ok c =>
      rw [hx] at h
      rw [List.forall_mem_cons]
      exact ⟨⟨b, c, hx⟩, ih h⟩

theorem intact_of_layOut (base : Nat) (parent : Option Nat)
    (h : ∀ node ∈ e.layOut base parent, node.kind ≠ .failed) : e.intact = true := by
  induction e generalizing base parent with
  | compose left right span ihl ihr
  | pairUp left right span ihl ihr | fanOut left right span ihl ihr
  | choose condition left right span ihl ihr =>
    simp only [Arrow.layOut, List.forall_mem_append] at h
    rw [Arrow.intact, ihl _ _ h.1.1, ihr _ _ h.1.2]
    rfl
  | first inner span ih | second inner span ih | paren inner span ih =>
    simp only [Arrow.layOut, List.forall_mem_append] at h
    exact ih _ _ h.1
  | split | merge | wire | wirePair | use => rfl
  | failed span => exact absurd rfl (h _ (List.mem_singleton.mpr rfl))

theorem intact_of_ofArena {prog : ArrowProgram} (h : ofArena declared (.ofArrow e) = .ok prog) :
    e.intact = true := by
  cases hfold : (Arena.ofArrow e).nodes.foldlM (addNode declared (.ofArrow e)) ⟨[], []⟩ with
  | error fault =>
    rw [ofArena, hfold] at h
    cases h
  | ok p =>
    refine intact_of_layOut 0 none fun node hnode hkind => ?_
    obtain ⟨q, q', hq⟩ := exists_ok_of_foldlM hfold node (Arena.nodes_ofArrow e ▸ hnode)
    simp only [addNode, hkind] at hq
    cases hq

theorem valueAt_congr (h : a.shape = b.shape) (values : List ArrowValue) (i : Nat) :
    valueAt a values i = valueAt b values i := by
  unfold valueAt
  cases values[i]? with
  | some v => rfl
  | none =>
    have hi := congrFun h i
    simp only [Arena.shape] at hi
    rcases ha : a.node? i with _ | ⟨kind, parent, span, types⟩ <;>
      rcases hb : b.node? i with _ | ⟨kind', parent', span', types'⟩ <;>
      simp only [ha, hb, Option.map_none, Option.map_some, Option.some.injEq, reduceCtorEq,
        ArrowNode.shape, Prod.mk.injEq] at hi
    · rfl
    · obtain ⟨rfl, rfl, rfl⟩ := hi
      rfl

theorem addNode_congr (h : a.shape = b.shape) (p : Progress) {node node' : ArrowNode}
    (hn : node.shape = node'.shape) : addNode declared a p node = addNode declared b p node' := by
  obtain ⟨kind, parent, span, types⟩ := node
  obtain ⟨kind', parent', span', types'⟩ := node'
  simp only [ArrowNode.shape, Prod.mk.injEq] at hn
  obtain ⟨rfl, rfl, rfl⟩ := hn
  have hvalue : valueAt a p.values = valueAt b p.values := funext (valueAt_congr h p.values)
  cases kind with
  | use | failed => rfl
  | _ => simp only [addNode, hvalue]

theorem foldlM_addNode_congr (h : a.shape = b.shape) {nodes nodes' : List ArrowNode}
    (hn : nodes.map ArrowNode.shape = nodes'.map ArrowNode.shape) (p : Progress) :
    nodes.foldlM (addNode declared a) p = nodes'.foldlM (addNode declared b) p := by
  induction nodes generalizing nodes' p with
  | nil =>
    cases nodes' with
    | nil => rfl
    | cons node' nodes' => cases hn
  | cons node nodes ih =>
    cases nodes' with
    | nil => cases hn
    | cons node' nodes' =>
      obtain ⟨hhead, htail⟩ := List.cons.inj hn
      simp only [List.foldlM_cons, addNode_congr h p hhead, ih htail]

theorem ofArena_congr (h : a.nodes.map ArrowNode.shape = b.nodes.map ArrowNode.shape) :
    ofArena declared a = ofArena declared b := by
  have hshape : a.shape = b.shape := by
    funext i
    simp only [Arena.shape, Arena.node?, ← List.getElem?_map, h]
  have hsize : a.root = b.root := by
    have hlen := congrArg List.length h
    simp only [List.length_map] at hlen
    rw [Arena.root, Arena.root, Arena.size, Arena.size, hlen]
  simp only [ofArena, foldlM_addNode_congr hshape h, hsize, valueAt_congr hshape]

end Emission

end ArrowProgram

end PipelineLang
