import PipelineLang.Proofs.Target.ArrowLines

/-! What the lines of an arrow use and what they assign: each uses nothing of the function that it
stands in but what was assigned before it. -/

namespace PipelineLang

variable {v : ArrowValue} {i : Nat} {d : Declaration}

def ArrowStep.values : ArrowStep → List ArrowValue
  | compose left right | pairUp left right | fanOut left right | choose _ left right =>
    [left, right]
  | first inner | second inner => [inner]
  | split | merge _ | wire _ | wirePair _ _ => []

/-- The value is a declared component, or is there before the step with that number. -/
def ArrowValue.Settled (declared : List String) (n : Nat) : ArrowValue → Prop
  | .declared name => name ∈ declared
  | .temporary step => step < n

theorem ArrowValue.Settled.mono {declared : List String} {m n : Nat} (h : v.Settled declared m)
    (hle : m ≤ n) : v.Settled declared n := by
  cases v with
  | declared name => exact h
  | temporary step => exact Nat.lt_of_lt_of_le h hle

namespace ArrowProgram

variable {declared : List String} {a : Arena} {p p' : Progress}

/-- Each step is made from values that are there before it. -/
structure Settled (declared : List String) (p : Progress) : Prop where
  values : ∀ v ∈ p.values, v.Settled declared p.steps.length
  steps : ∀ (k : Nat) (step : ArrowStep), p.steps[k]? = some step → ∀ v ∈ step.values,
    v.Settled declared k

namespace Settled

variable (h : Settled declared p)
include h

theorem reuse (hv : v.Settled declared p.steps.length) : Settled declared (p.reuse v) :=
  ⟨List.forall_mem_append.mpr ⟨h.values, List.forall_mem_singleton.mpr hv⟩, h.steps⟩

theorem build {step : ArrowStep} (hstep : ∀ v ∈ step.values, v.Settled declared p.steps.length) :
    Settled declared (p.build step) := by
  have hlength : (p.build step).steps.length = p.steps.length + 1 := by simp [Progress.build]
  refine ⟨List.forall_mem_append.mpr ⟨fun v hv => ?_, List.forall_mem_singleton.mpr ?_⟩,
    fun k step' hk => ?_⟩
  · exact (h.values v hv).mono (by omega)
  · simp [ArrowValue.Settled, hlength]
  · rcases Nat.lt_or_ge k p.steps.length with hlt | hge
    · rw [Progress.build, List.getElem?_append_left hlt] at hk
      exact h.steps k step' hk
    · have hlast := (List.getElem?_eq_some_iff.mp hk).1
      obtain rfl : k = p.steps.length := by omega
      simp only [Progress.build, List.getElem?_concat_length, Option.some.injEq] at hk
      exact hk ▸ hstep

theorem of_valueAt (hv : valueAt a p.values i = .ok v) :
    v.Settled declared p.steps.length := by
  unfold valueAt at hv
  split at hv
  · rename_i w hw
    cases hv
    exact h.values _ (List.mem_of_getElem? hw)
  · cases hv

theorem of_pair {step : ArrowValue → ArrowValue → ArrowStep} {j : Nat}
    (hvalues : ∀ v w, (step v w).values = [v, w])
    (hok : (do
      let left ← valueAt a p.values i
      return p.build (step left (← valueAt a p.values j))) = .ok p') :
    Settled declared p' := by
  obtain ⟨v, hv, hok⟩ := exists_of_bind_eq_ok hok
  obtain ⟨w, hw, hok⟩ := exists_of_bind_eq_ok hok
  cases hok
  refine h.build ?_
  rw [hvalues, List.forall_mem_cons]
  exact ⟨h.of_valueAt hv, List.forall_mem_singleton.mpr (h.of_valueAt hw)⟩

theorem of_single {step : ArrowValue → ArrowStep} (hvalues : ∀ v, (step v).values = [v])
    (hok : (do return p.build (step (← valueAt a p.values i))) = .ok p') : Settled declared p' := by
  obtain ⟨v, hv, hok⟩ := exists_of_bind_eq_ok hok
  cases hok
  refine h.build ?_
  rw [hvalues]
  exact List.forall_mem_singleton.mpr (h.of_valueAt hv)

theorem of_none {step : ArrowStep} (hvalues : step.values = []) :
    Settled declared (p.build step) := by
  refine h.build ?_
  rw [hvalues]
  exact List.forall_mem_nil _

theorem addNode {node : ArrowNode} (hnode : addNode declared a p node = .ok p') :
    Settled declared p' := by
  unfold ArrowProgram.addNode at hnode
  cases hkind : node.kind with
  | use component =>
    simp only [hkind] at hnode
    split at hnode
    · rename_i hmem
      cases hnode
      exact h.reuse (List.contains_iff_mem.mp hmem)
    · cases hnode
  | paren inner =>
    simp only [hkind] at hnode
    obtain ⟨v, hv, hnode⟩ := exists_of_bind_eq_ok hnode
    cases hnode
    exact h.reuse (h.of_valueAt hv)
  | compose left right | pairUp left right | fanOut left right | choose condition left right =>
    simp only [hkind] at hnode
    exact h.of_pair (fun _ _ => rfl) hnode
  | first inner | second inner =>
    simp only [hkind] at hnode
    exact h.of_single (fun _ => rfl) hnode
  | split | merge entries | wire entries | wirePair top bottom =>
    simp only [hkind] at hnode
    cases hnode
    exact h.of_none rfl
  | failed =>
    simp only [hkind] at hnode
    cases hnode

end Settled

theorem settled_of_ofArena {program : ArrowProgram} (h : ofArena declared a = .ok program) :
    (∀ (k : Nat) (step : ArrowStep), program.steps[k]? = some step →
      ∀ v ∈ step.values, v.Settled declared k) ∧
      program.result.Settled declared program.steps.length := by
  have hfold : ∀ (nodes : List ArrowNode) (p p' : Progress), Settled declared p →
      nodes.foldlM (addNode declared a) p = .ok p' → Settled declared p' := by
    intro nodes
    induction nodes with
    | nil =>
      intro p p' hp hok
      cases hok
      exact hp
    | cons node nodes ih =>
      intro p p' hp hok
      rw [List.foldlM_cons] at hok
      obtain ⟨q, hq, hok⟩ := exists_of_bind_eq_ok hok
      exact ih q p' (hp.addNode hq) hok
  obtain ⟨p, hp, h⟩ := exists_of_bind_eq_ok h
  obtain ⟨v, hv, h⟩ := exists_of_bind_eq_ok h
  cases h
  have hsettled := hfold a.nodes ⟨[], []⟩ p ⟨by simp, by simp⟩ hp
  exact ⟨hsettled.steps, hsettled.of_valueAt hv⟩

end ArrowProgram

namespace Target

/-- Each line uses nothing but what is given and what lines before it assign. -/
def Grounded (given : Referent → Prop) : List CodeLine → Prop
  | [] => True
  | l :: ls => (∀ r ∈ l.uses, given r) ∧ Grounded (fun r => given r ∨ l.target? = some r) ls

def allUses (lines : List CodeLine) : List Referent := lines.flatMap CodeLine.uses

section Grounded

variable {given given' : Referent → Prop} {lines lines' : List CodeLine}

theorem mem_targets_cons {l : CodeLine} {r : Referent} :
    r ∈ targets (l :: lines) ↔ l.target? = some r ∨ r ∈ targets lines := by
  simp [targets, List.mem_filterMap]

theorem Grounded.mono (h : Grounded given lines) (hgiven : ∀ r, given r → given' r) :
    Grounded given' lines := by
  induction lines generalizing given given' with
  | nil => trivial
  | cons l lines ih =>
    exact ⟨fun r hr => hgiven r (h.1 r hr), ih h.2 fun r hr => hr.imp_left (hgiven r)⟩

theorem Grounded.append (h : Grounded given lines)
    (h' : Grounded (fun r => given r ∨ r ∈ targets lines) lines') :
    Grounded given (lines ++ lines') := by
  induction lines generalizing given with
  | nil => exact h'.mono fun r hr => hr.resolve_right (by simp [targets])
  | cons l lines ih =>
    refine ⟨h.1, ih h.2 (h'.mono fun r hr => ?_)⟩
    rwa [mem_targets_cons, ← or_assoc] at hr

theorem Grounded.of_mem_allUses (h : Grounded given lines) {r : Referent} (hr : r ∈ allUses lines) :
    given r ∨ r ∈ targets lines := by
  induction lines generalizing given with
  | nil => simp [allUses] at hr
  | cons l lines ih =>
    simp only [allUses, List.flatMap_cons, List.mem_append] at hr
    rcases hr with hr | hr
    · exact .inl (h.1 r hr)
    · rcases ih h.2 hr with (hr | hr) | hr
      · exact .inl hr
      · exact .inr (mem_targets_cons.mpr (.inl hr))
      · exact .inr (mem_targets_cons.mpr (.inr hr))

end Grounded

section Uses

theorem usesOf_append (fs gs : List Fragment) : usesOf (fs ++ gs) = usesOf fs ++ usesOf gs := by
  fun_induction usesOf fs <;> simp_all [usesOf]

attribute [local simp] usesOf usesOf_append CodeLine.uses CodeLine.fragments CodeLine.target?

theorem mem_usesOf_intercalate {separator : String} {fss : List (List Fragment)} {r : Referent}
    (h : r ∈ usesOf ([Fragment.text separator].intercalate fss)) : ∃ fs ∈ fss, r ∈ usesOf fs := by
  induction fss with
  | nil => simp at h
  | cons fs fss ih =>
    cases fss with
    | nil => exact ⟨fs, List.mem_cons_self, by simpa using h⟩
    | cons gs fss =>
      rw [List.intercalate_cons_cons, usesOf_append, usesOf_append, List.mem_append,
        List.mem_append] at h
      rcases h with (h | h) | h
      · exact ⟨fs, List.mem_cons_self, h⟩
      · simp at h
      · obtain ⟨gs', hgs, h⟩ := ih h
        exact ⟨gs', List.mem_cons_of_mem _ hgs, h⟩

theorem mem_usesOf_dictionary {entries : List (String × List Fragment)} {r : Referent}
    (h : r ∈ usesOf (dictionaryFragments entries)) : ∃ e ∈ entries, r ∈ usesOf e.2 := by
  have hentries : r ∈ usesOf ([Fragment.text ", "].intercalate
      (entries.map fun e => .text (quote e.1 ++ " : ") :: e.2)) := by
    simpa [dictionaryFragments] using h
  obtain ⟨fs, hfs, hr⟩ := mem_usesOf_intercalate hentries
  obtain ⟨e, he, rfl⟩ := List.mem_map.mp hfs
  exact ⟨e, he, by simpa using hr⟩

section Given

variable {given : Referent → Prop} (hsupport : ∀ s, given (.support s))
include hsupport

theorem given_of_constant (value : Constant) : ∀ r ∈ usesOf (constantFragments value), given r := by
  cases value with
  | float x => cases hnumber : x.isNumber <;> cases hinfinite : x.isInfinite <;>
      simp [constantFragments, hnumber, hinfinite, hsupport]
  | integer | text | boolean => simp [constantFragments]

theorem given_of_condition (c : Condition) : ∀ r ∈ usesOf (conditionFragments c), given r := by
  induction c with
  | binary op left right span ihl ihr =>
    by_cases hop : op = .xor <;>
      simp only [conditionFragments, hop, if_true, if_false, usesOf_append, usesOf,
        List.forall_mem_append, List.forall_mem_cons, List.not_mem_nil, false_implies, implies_true,
        and_true, true_and]
    · exact ⟨⟨⟨hsupport _, ihl⟩, hsupport _⟩, ihr⟩
    · exact ⟨ihl, ihr⟩
  | paren inner span ih => simpa [conditionFragments] using ih
  | terminal operand =>
    cases operand with
    | literal lit => exact given_of_constant hsupport lit.value
    | ident | state => simp [conditionFragments]

variable (hconfig : given .config)
include hconfig

theorem given_of_source (f : FieldSource) : ∀ r ∈ usesOf (sourceFragments f), given r := by
  cases f with
  | key dict name => by_cases hdict : dict = "config" <;> simp [sourceFragments, hdict, hconfig]
  | constant value => exact given_of_constant hsupport value

theorem given_of_fields (fields : List Field) :
    ∀ r ∈ usesOf (dictionaryFragments (fieldFragments fields)), given r := by
  intro r hr
  obtain ⟨e, he, hr⟩ := mem_usesOf_dictionary hr
  obtain ⟨f, -, rfl⟩ := List.mem_map.mp he
  exact given_of_source hsupport hconfig f.2 r hr

theorem given_of_step {step : ArrowStep} (hvalues : ∀ v ∈ step.values, given (valueReferent v)) :
    ∀ r ∈ usesOf (stepFragments step), given r := by
  have hfields := given_of_fields hsupport hconfig
  cases step with
  | compose | pairUp | fanOut | first | second =>
    simpa [stepFragments, ArrowStep.values] using hvalues
  | split => simp [stepFragments, hsupport]
  | merge entries => simpa [stepFragments, hsupport] using hfields _
  | wire entries => simpa [stepFragments, wireFragments, hsupport] using hfields _
  | wirePair top bottom =>
    simp only [stepFragments, wireFragments, usesOf_append, usesOf, List.append_nil,
      List.cons_append, List.forall_mem_cons, List.forall_mem_append]
    exact ⟨hsupport _, hfields _, hsupport _, hfields _⟩
  | choose condition onTrue onFalse =>
    have hcondition := given_of_condition hsupport condition
    simp only [stepFragments, usesOf_append, usesOf, List.forall_mem_cons, List.forall_mem_append]
    exact ⟨hsupport _, hcondition, by simpa [ArrowStep.values] using hvalues⟩

theorem grounded_instanceCode (instrument : Bool) (line : Nat)
    (hmodule : given (.imported d.component.name)) :
    Grounded given (instanceCode instrument line d) := by
  have hfields := given_of_fields hsupport hconfig (settingFields "config" d)
  have hstate : ∀ r ∈ usesOf (dictionaryFragments
      (fieldFragments (settingFields "s" d) ++ [("____prev_", [.text "s"])])), given r := by
    intro r hr
    obtain ⟨e, he, hr⟩ := mem_usesOf_dictionary hr
    rcases List.mem_append.mp he with he | he
    · obtain ⟨f, -, rfl⟩ := List.mem_map.mp he
      exact given_of_source hsupport hconfig f.2 r hr
    · rw [List.mem_singleton.mp he] at hr
      cases hr
  cases instrument <;> cases hempty : d.settings.isEmpty <;>
    simp [instanceCode, tracingCode, traceFragments, stateCode, hempty, Grounded, hsupport, hmodule]
      <;> grind

theorem grounded_stepCodes {declared : List String}
    (hdeclared : ∀ name ∈ declared, given (.component name)) {steps : List ArrowStep}
    (hsettled : ∀ (k : Nat) (step : ArrowStep), steps[k]? = some step →
      ∀ v ∈ step.values, v.Settled declared k) :
    Grounded given (stepCodes steps) := by
  -- from the step with the number n on, if the results of all steps before it are given
  have hfrom : ∀ (steps : List ArrowStep) (n : Nat) (given : Referent → Prop),
      (∀ s, given (.support s)) →
      given .config → (∀ name ∈ declared, given (.component name)) →
      (∀ i < n, given (.temporary i)) →
      (∀ (k : Nat) (step : ArrowStep), steps[k]? = some step → ∀ v ∈ step.values,
        v.Settled declared (n + k)) → Grounded given ((steps.zipIdx n).map numberedStep) := by
    intro steps
    induction steps with
    | nil => exact fun _ _ _ _ _ _ _ => trivial
    | cons step steps ih =>
      intro n given hsupport hconfig hdeclared htemporary hsettled
      rw [List.zipIdx_cons, List.map_cons]
      refine ⟨given_of_step hsupport hconfig fun v hv => ?_,
        ih (n + 1) _ (fun s => .inl (hsupport s)) (.inl hconfig)
        (fun name hname => .inl (hdeclared name hname)) (fun i hi => ?_)
          (fun k step' hk v hv => ?_)⟩
      · have hv := hsettled 0 step rfl v hv
        cases v with
        | declared name => exact hdeclared name hv
        | temporary i => exact htemporary i hv
      · rcases Nat.lt_succ_iff_lt_or_eq.mp hi with hi | rfl
        · exact .inl (htemporary i hi)
        · exact .inr rfl
      · have hv := hsettled (k + 1) step' hk v hv
        rwa [show n + 1 + k = n + (k + 1) by omega]
  exact hfrom steps 0 given hsupport hconfig hdeclared (fun _ hi => absurd hi (Nat.not_lt_zero _))
    (by simpa using hsettled)

end Given

end Uses

def Given (ds : List Declaration) : Referent → Prop
  | .config | .support _ => True
  | .imported localName => ∃ d ∈ ds, d.component.name = localName
  | _ => False

def Assigned (instrument : Bool) (ds : List Declaration) (steps : Nat) : Referent → Prop
  | .component declared | .configuration declared => ∃ d ∈ ds, d.name.name = declared
  | .identity declared => instrument = true ∧ ∃ d ∈ ds, d.name.name = declared
  | .temporary step => step < steps
  | _ => False

section Arrow

variable {instrument : Bool} {lines : LineIndex} {ds : List Declaration} {program : ArrowProgram}
  {r : Referent}

theorem targets_append (ls ls' : List CodeLine) : targets (ls ++ ls') = targets ls ++ targets ls' :=
  List.filterMap_append

theorem mem_targets_instanceCode {line : Nat} :
    r ∈ targets (instanceCode instrument line d) ↔
      r = .component d.name.name ∨ r = .configuration d.name.name ∨ instrument = true ∧ r =
        .identity d.name.name := by
  cases instrument <;> cases hempty : d.settings.isEmpty <;>
    simp [instanceCode, tracingCode, stateCode, hempty, targets, CodeLine.target?] <;> grind

theorem mem_targets_stepCodes {steps : List ArrowStep} :
    r ∈ targets (stepCodes steps) ↔ ∃ i < steps.length, r = .temporary i := by
  have htargets : targets (stepCodes steps) = (List.range steps.length).map Referent.temporary := by
    rw [targets, stepCodes, List.filterMap_map, List.range_eq_range', ← List.zipIdx_map_snd 0 steps,
      List.map_map, ← List.filterMap_eq_map]
    rfl
  rw [htargets]
  simp [eq_comm]

theorem mem_targets_arrowLines : r ∈ targets (arrowLines instrument lines ds program) ↔
    Assigned instrument ds program.steps.length r := by
  have hinstances : r ∈ targets
      (ds.flatMap fun d => instanceCode instrument (lines.lineOf d.span.start) d) ↔
      ∃ d ∈ ds, r ∈ targets (instanceCode instrument (lines.lineOf d.span.start) d) := by
    simp only [targets, List.filterMap_flatMap, List.mem_flatMap]
  have hrest : targets [CodeLine.blank,
      .run [.text "return ", .name (valueReferent program.result)]] = [] := rfl
  have hblank : targets [CodeLine.blank] = [] := rfl
  simp only [arrowLines, targets_append, hrest, hblank, List.mem_append, hinstances,
    mem_targets_instanceCode, mem_targets_stepCodes, List.not_mem_nil, or_false]
  cases r <;> simp only [Assigned] <;> grind

theorem grounded_arrowLines
    (hsteps : ∀ (k : Nat) (step : ArrowStep), program.steps[k]? = some step →
      ∀ v ∈ step.values, v.Settled (ds.map fun d => d.name.name) k)
    (hresult : program.result.Settled (ds.map fun d => d.name.name) program.steps.length) :
    Grounded (Given ds) (arrowLines instrument lines ds program) := by
  have hinstances : ∀ (ds' : List Declaration) (given : Referent → Prop),
      (∀ s, given (.support s)) → given .config → (∀ d ∈ ds', given (.imported d.component.name)) →
        Grounded given (ds'.flatMap fun d => instanceCode instrument (lines.lineOf d.span.start)
          d) := by
    intro ds'
    induction ds' with
    | nil => exact fun _ _ _ _ => trivial
    | cons d ds' ih =>
      intro given hsupport hconfig hmodules
      rw [List.forall_mem_cons] at hmodules
      refine (grounded_instanceCode hsupport hconfig instrument _ hmodules.1).append ?_
      exact ih _ (fun s => .inl (hsupport s)) (.inl hconfig) fun d' hd' => .inl (hmodules.2 d' hd')
  have hblank : ∀ given : Referent → Prop, Grounded given [CodeLine.blank] :=
    fun _ => ⟨List.forall_mem_nil _, trivial⟩
  have hdeclared : ∀ name ∈ ds.map (fun d => d.name.name),
      .component name ∈ targets
        (ds.flatMap fun d => instanceCode instrument (lines.lineOf d.span.start) d) := by
    intro name hname
    obtain ⟨d, hd, rfl⟩ := List.mem_map.mp hname
    rw [targets, List.filterMap_flatMap, List.mem_flatMap]
    exact ⟨d, hd, mem_targets_instanceCode.mpr (.inl rfl)⟩
  have hopening := (hinstances ds (Given ds) (fun _ => trivial) trivial fun d hd => ⟨d, hd,
    rfl⟩).append (hblank _)
  have hall := hopening.append
    (grounded_stepCodes (fun _ => .inl trivial) (.inl trivial) (fun name hname => .inr (by
    rw [targets_append]
    exact List.mem_append_left _ (hdeclared name hname))) hsteps)
  refine hall.append ⟨List.forall_mem_nil _, List.forall_mem_singleton.mpr (.inl (.inr ?_)),
    trivial⟩
  rw [targets_append, targets_append, List.mem_append, List.mem_append]
  cases hvalue : program.result with
  | declared name =>
    rw [hvalue] at hresult
    exact .inl (.inl (hdeclared name hresult))
  | temporary step =>
    rw [hvalue] at hresult
    exact .inr (mem_targets_stepCodes.mpr ⟨step, hresult, rfl⟩)

theorem imported_mem_allUses (hd : d ∈ ds) :
    .imported d.component.name ∈ allUses (arrowLines instrument lines ds program) := by
  have huse : .imported d.component.name ∈
      allUses (instanceCode instrument (lines.lineOf d.span.start) d) := by
    simp [instanceCode, allUses, CodeLine.uses, CodeLine.fragments, usesOf]
  simp only [allUses, arrowLines, List.flatMap_append, List.mem_append, List.flatMap_assoc]
  exact .inl (.inl (.inl (List.mem_flatMap.mpr ⟨d, hd, huse⟩)))

end Arrow

end Target

end PipelineLang
