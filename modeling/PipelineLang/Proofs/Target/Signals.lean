import PipelineLang.Proofs.Arrow.Exactness
import PipelineLang.Proofs.Target.Meaning
import PipelineLang.Proofs.Target.Module

/-! Accepted arrows never miss a signal: on every input of the declared type no key is read that is
not there, every combinator gets a value of the shape that it needs, and the result has the declared
type. -/

namespace PipelineLang

variable {steps : List ArrowStep} {k : Nat}

universe u

open SignalType

variable {V : Type u}

/-- On all values of type `A` the function has a value, and that is of type `B`. -/
def Flow.Carries (f : Flow V) (A B : SignalType) : Prop :=
  ∀ d : Datum V, d.HasType A → ∃ d', f d = some d' ∧ d'.HasType B

namespace Flow

variable {f g : Flow V} {A B C D : NameSet} {S T U : SignalType}

theorem carries_some (S : SignalType) : Carries (V := V) some S S := fun d hd => ⟨d, rfl, hd⟩

theorem Carries.compose (hf : f.Carries S T) (hg : g.Carries T U) : (f.compose g).Carries S U := by
  intro d hd
  obtain ⟨d', hfd, hd'⟩ := hf d hd
  obtain ⟨d'', hgd, hd''⟩ := hg d' hd'
  refine ⟨d'', ?_, hd''⟩
  simp only [Flow.compose, hfd]
  exact hgd

theorem Carries.pairUp (hf : f.Carries (flat A) (flat C)) (hg : g.Carries (flat B) (flat D)) :
    (f.pairUp g).Carries (pair A B) (pair C D) := by
  intro d hd
  cases hd with
  | pair ht hb =>
    obtain ⟨_, hft, ⟨ht'⟩⟩ := hf _ (.flat ht)
    obtain ⟨_, hgb, ⟨hb'⟩⟩ := hg _ (.flat hb)
    refine ⟨_, ?_, .pair ht' hb'⟩
    simp only [Flow.pairUp, hft, hgb]
    rfl

theorem Carries.fanOut (hf : f.Carries S (flat C)) (hg : g.Carries S (flat D)) :
    (f.fanOut g).Carries S (pair C D) := by
  intro d hd
  obtain ⟨_, hfd, ⟨hc⟩⟩ := hf d hd
  obtain ⟨_, hgd, ⟨hd'⟩⟩ := hg d hd
  refine ⟨_, ?_, .pair hc hd'⟩
  simp only [Flow.fanOut, hfd, hgd]
  rfl

theorem Carries.choose (hf : f.Carries S T) (hg : g.Carries S T) (test : Datum V → Bool) :
    Carries (fun d => if test d then f d else g d) S T := by
  intro d hd
  cases htest : test d with
  | true => simpa [htest] using hf d hd
  | false => simpa [htest] using hg d hd

theorem carries_split (A : NameSet) : Carries (V := V) .split (flat A) (pair A A) := by
  intro d hd
  cases hd with
  | flat h => exact ⟨_, rfl, .pair h h⟩

end Flow

namespace Target

variable (I : Behaviour V)

theorem exists_dictionary? {scope : String → Option (Record V)} {fields : List Field}
    (h : ∀ f ∈ fields, (f.2.read? I scope).isSome = true) :
    ∃ r, dictionary? I scope fields = some r ∧ ∀ x, (r x).isSome = true ↔
    ∃ f ∈ fields, f.1 = x := by
  -- the fold starts from a dictionary that already has some keys
  have hfold : ∀ (fields : List Field) (start : Record V),
      (∀ f ∈ fields, (f.2.read? I scope).isSome = true) →
      ∃ r, fields.foldlM (fun (r : Record V) f => do
          let value ← f.2.read? I scope
          return fun x => if x = f.1 then some value else r x) start = some r ∧
        ∀ x, (r x).isSome = true ↔ (start x).isSome = true ∨ ∃ f ∈ fields, f.1 = x := by
    intro fields
    induction fields with
    | nil => exact fun start _ => ⟨start, rfl, fun x => by simp⟩
    | cons f fields ih =>
      intro start h
      rw [List.forall_mem_cons] at h
      obtain ⟨value, hvalue⟩ := Option.isSome_iff_exists.mp h.1
      obtain ⟨r, hr, hkeys⟩ := ih (fun x => if x = f.1 then some value else start x) h.2
      refine ⟨r, ?_, fun x => ?_⟩
      · rw [List.foldlM_cons, hvalue]
        exact hr
      · rw [hkeys x]
        by_cases hx : f.1 = x
        · simp [hx]
        · simp [hx, Ne.symm hx]
  obtain ⟨r, hr, hkeys⟩ := hfold fields (fun _ => none) h
  exact ⟨r, hr, fun x => by simpa using hkeys x⟩

theorem exists_keyed_dictionary? {α : Type} {entries : List α} {target : α → Ident}
    {source : α → FieldSource} {scope : String → Option (Record V)} {fields : List Field}
    {names : NameSet} (hfields : ∀ f, f ∈ fields ↔ ∃ m ∈ entries, (target m).name ≠ discardName ∧
      ((target m).name, source m) = f)
    (hread : ∀ m ∈ entries, ((source m).read? I scope).isSome = true)
    (htargets : ∀ x, x ∈ names ↔ x ≠ discardName ∧ ∃ m ∈ entries, (target m).name = x) :
    ∃ r, dictionary? I scope fields = some r ∧ Record.HasKeys r names := by
  obtain ⟨r, hr, hkeys⟩ : ∃ r, dictionary? I scope fields = some r ∧ _ :=
    exists_dictionary? I fun f hf => by
    obtain ⟨m, hm, -, rfl⟩ := (hfields f).mp hf
    exact hread m hm
  refine ⟨r, hr, fun x => ?_⟩
  rw [hkeys x, htargets x]
  constructor
  · rintro ⟨f, hf, rfl⟩
    obtain ⟨m, hm, hkept, rfl⟩ := (hfields f).mp hf
    exact ⟨hkept, m, hm, rfl⟩
  · rintro ⟨hkept, m, hm, rfl⟩
    exact ⟨_, (hfields _).mpr ⟨m, hm, hkept, rfl⟩, rfl⟩

theorem mem_wireFields {entries : List Mapping} {f : Field} :
    f ∈ wireFields entries ↔
      ∃ m ∈ entries, m.target.name ≠ discardName ∧
      (m.target.name, operandFrom "a" m.source) = f := by
  simp only [wireFields, isKept, List.mem_map, List.mem_filter, bne_iff_ne, ne_eq, and_assoc]

theorem carries_wireFlow {entries : List Mapping} {A B : NameSet} (sets : WireSets entries A B) :
    (wireFlow I entries).Carries (flat A) (flat B) := by
  intro d hd
  cases hd with
  | @flat a _ ha =>
    have hread : ∀ m ∈ entries,
        ((operandFrom "a" m.source).read? I fun dict => if dict =
          "a" then some a else none).isSome = true := by
      intro m hm
      cases hsource : m.source with
      | ident id | state id =>
        exact (ha id.name).mpr ((sets.sources id.name).mpr ⟨m, hm, by rw [hsource]; rfl⟩)
      | literal lit => rfl
    obtain ⟨r, hr, hkeys⟩ := exists_keyed_dictionary? I (fun _ => mem_wireFields) hread sets.targets
    refine ⟨.record r, ?_, .flat hkeys⟩
    simp only [wireFlow, hr]
    rfl

/-- Where the value of an entry of a merge comes from. -/
def mergeFrom : MergeSource → FieldSource
  | .top id => .key "t" id.name
  | .bottom id => .key "b" id.name
  | .literal lit => .constant lit.value

theorem mem_mergeFields {entries : List MergeMapping} {f : Field} :
    f ∈ mergeFields entries ↔
      ∃ m ∈ entries, m.target.name ≠ discardName ∧ (m.target.name, mergeFrom m.source) = f := by
  simp only [mergeFields, isKept, List.mem_append, List.mem_filterMap, List.mem_filter, bne_iff_ne]
  constructor
  · rintro ((⟨m, ⟨hm, hkept⟩, hf⟩ | ⟨m, ⟨hm, hkept⟩, hf⟩) | ⟨m, ⟨hm, hkept⟩, hf⟩) <;>
      cases hsource : m.source <;> simp only [hsource, reduceCtorEq, Option.some.injEq] at hf <;>
      exact ⟨m, hm, hkept, by rw [hsource]; exact hf⟩
  · rintro ⟨m, hm, hkept, rfl⟩
    cases hsource : m.source with
    | top id => exact .inl (.inl ⟨m, ⟨hm, hkept⟩, by rw [hsource]; rfl⟩)
    | bottom id => exact .inl (.inr ⟨m, ⟨hm, hkept⟩, by rw [hsource]; rfl⟩)
    | literal lit => exact .inr ⟨m, ⟨hm, hkept⟩, by rw [hsource]; rfl⟩

theorem carries_mergeFlow {entries : List MergeMapping} {A B C : NameSet}
    (sets : MergeSets entries A B C) :
    (mergeFlow I entries).Carries (pair A B) (flat C) := by
  intro d hd
  cases hd with
  | @pair t b _ _ ht hb =>
    have hread : ∀ m ∈ entries, ((mergeFrom m.source).read? I fun dict =>
        if dict = "t" then some t else if dict = "b" then some b else none).isSome = true := by
      intro m hm
      cases hsource : m.source with
      | top id => exact (ht id.name).mpr ((sets.tops id.name).mpr ⟨m, hm, id, hsource, rfl⟩)
      | bottom id => exact (hb id.name).mpr ((sets.bottoms id.name).mpr ⟨m, hm, id, hsource, rfl⟩)
      | literal lit => rfl
    obtain ⟨r, hr, hkeys⟩ := exists_keyed_dictionary? I (fun _ => mem_mergeFields) hread
      sets.targets
    refine ⟨.record r, ?_, .flat hkeys⟩
    simp only [mergeFlow, hr]
    rfl

end Target

namespace ArrowProgram

variable (I : Behaviour V)

theorem getElem?_flows {step : ArrowStep} (h : steps[k]? = some step) :
    (flows I steps)[k]? = some (step.flow I ((flows I steps).take k)) :=
  getElem?_accumulated (ArrowStep.flow I) h

theorem flow_temporary {step : ArrowStep} (h : steps[k]? = some step) :
    (ArrowValue.temporary k).flow I (flows I steps) = step.flow I ((flows I steps).take k) := by
  rw [ArrowValue.flow, getElem?_flows I h]
  rfl

theorem flow_take {v : ArrowValue} (made : List (Flow V)) (h : v.Before k) :
    v.flow I (made.take k) = v.flow I made := by
  cases v with
  | declared name => rfl
  | temporary step => rw [ArrowValue.flow, ArrowValue.flow, List.getElem?_take_of_lt h]

/-- The steps that build an expression do what its derivation says, if the components do. -/
theorem Builds.carries {s : Symbols} {e : Arrow} {v : ArrowValue} {A B : SignalType}
    (hcomponents : ∀ name leaf, s.leafOf? name = some leaf →
      Flow.Carries (I.component name) leaf.inputs leaf.outputs)
    (d : Derivation s e A B) (hb : Builds steps e v) : (v.flow I (flows I steps)).Carries A B := by
  -- the steps of a part come before the step that uses it, so their flows are already there
  induction d generalizing v with
  | use known =>
    cases hb
    exact hcomponents _ _ known
  | paren d ih =>
    cases hb with
    | paren hb => exact ih hb
  | compose l r ihl ihr =>
    cases hb with
    | compose hl hr hlk hrk hk =>
      rw [flow_temporary I hk, ArrowStep.flow, flow_take I _ hlk, flow_take I _ hrk]
      exact (ihl hl).compose (ihr hr)
  | pairUp l r ihl ihr =>
    cases hb with
    | pairUp hl hr hlk hrk hk =>
      rw [flow_temporary I hk, ArrowStep.flow, flow_take I _ hlk, flow_take I _ hrk]
      exact (ihl hl).pairUp (ihr hr)
  | fanOut l r ihl ihr =>
    cases hb with
    | fanOut hl hr hlk hrk hk =>
      rw [flow_temporary I hk, ArrowStep.flow, flow_take I _ hlk, flow_take I _ hrk]
      exact (ihl hl).fanOut (ihr hr)
  | first d ih =>
    cases hb with
    | first hb hv hk =>
      rw [flow_temporary I hk, ArrowStep.flow, flow_take I _ hv]
      exact (ih hb).pairUp (Flow.carries_some _)
  | second d ih =>
    cases hb with
    | second hb hv hk =>
      rw [flow_temporary I hk, ArrowStep.flow, flow_take I _ hv]
      exact (Flow.carries_some _).pairUp (ih hb)
  | split =>
    cases hb with
    | split hk =>
      rw [flow_temporary I hk]
      exact Flow.carries_split _
  | wire sets =>
    cases hb with
    | wire hk =>
      rw [flow_temporary I hk]
      exact Target.carries_wireFlow I sets
  | wirePair tops bottoms =>
    cases hb with
    | wirePair hk =>
      rw [flow_temporary I hk]
      exact (Target.carries_wireFlow I tops).pairUp (Target.carries_wireFlow I bottoms)
  | merge sets =>
    cases hb with
    | merge hk =>
      rw [flow_temporary I hk]
      exact Target.carries_mergeFlow I sets
  | choose reads t f iht ihf =>
    cases hb with
    | choose ht hf htk hfk hk =>
      rw [flow_temporary I hk, ArrowStep.flow, flow_take I _ htk, flow_take I _ hfk]
      exact (iht ht).choose (ihf hf) _

end ArrowProgram

namespace Program

/-- Whatever the components do, as long as they take and give just the signals of their interfaces,
a generated arrow that was analyzed without errors has a value for each input of the declared type:
none of its steps misses a key or a half of a pair. The value is of the declared type. -/
theorem arrow_signals_safe (p : Program) (file : String) (registry : Registry) (files : FileTree)
    (e : Arrow) (hd : p.component.definition = .arrow e)
    (hresolve : ∀ f ∈ (p.resolve file registry files).findings, f.isError = false) :
    let s := (p.resolve file registry files).symbols
    let analysis := ((Arena.ofArrow e).infer s).1.analyze s
    let generated := Target.arrowProgram p.component analysis.2.1 analysis.1
    (∀ f ∈ analysis.2.2, f.isError = false) →
      (e.intact = true → ∃ prog, generated = .ok prog) ∧
      ∀ prog, generated = .ok prog → ∀ (V : Type u) (I : Behaviour V),
        (∀ name leaf, s.leafOf? name = some leaf → ∀ d : Datum V, d.HasType leaf.inputs →
          ∃ d', I.component name d = some d' ∧ d'.HasType leaf.outputs) →
        ∀ d : Datum V, d.HasType (.ofClause p.component.inputs) →
          ∃ d', prog.flow I d = some d' ∧ d'.HasType (.ofClause p.component.outputs) := by
  intro s analysis generated hanalysis
  have hshape : analysis.1.nodes.map ArrowNode.shape =
      (Arena.ofArrow e).nodes.map ArrowNode.shape :=
    Arena.shape_nodes_typed s e
  have hbuilt : e.intact = true →
      ∃ prog, generated = .ok prog ∧ ArrowProgram.Builds prog.steps e prog.result := by
    intro hi
    refine Target.exists_arrowProgram ?_ hi ?_ hshape
    · exact traced_resolve_arrow hd hresolve
    · exact fun id hid => isSome_declaration?_of_components hd hresolve hid
  refine ⟨fun hi => (hbuilt hi).imp fun _ h => h.1, ?_⟩
  intro prog hprog V I hcomponents
  have hi : e.intact = true := Target.intact_of_arrowProgram hshape hprog
  obtain ⟨d⟩ := (analyze_clean_iff_derivation hd hi hresolve).mp hanalysis
  obtain ⟨prog', hprog', hbuilds⟩ := hbuilt hi
  obtain rfl : prog' = prog := Except.ok.inj (hprog'.symm.trans hprog)
  exact ArrowProgram.Builds.carries I hcomponents d hbuilds

def oneSignal (key : String) (value : Nat) : Record Nat :=
  fun x => if x = key then some value else none

theorem hasKeys_oneSignal (key : String) (value : Nat) :
    (oneSignal key value).HasKeys (.ofList [key]) := by
  intro x
  by_cases hx : x = key <;> simp [oneSignal, hx]

def doubling : Behaviour Nat where
  constant _ := 0
  component
    | _, .record r => (r "a").map fun a => .record (oneSignal "b" (2 * a))
    | _, .pair _ _ => none
  test _ _ := false

theorem doubling_carries {s : Symbols} {declared : String} {leaf : LeafSignature}
    (hnames : s.declarations.map DeclarationEntry.name = [declared])
    (hleaf : s.leafOf? declared = some leaf)
    (hin : leaf.inputs = .flat (.ofList ["a"])) (hout : leaf.outputs = .flat (.ofList ["b"])) :
    ∀ name leaf, s.leafOf? name = some leaf → ∀ d, d.HasType leaf.inputs →
      ∃ d', doubling.component name d = some d' ∧ d'.HasType leaf.outputs := by
  intro name leaf' hname d hd
  obtain ⟨entry, hentry, -⟩ := Option.bind_eq_some_iff.mp hname
  have hmem : name ∈ s.declarations.map DeclarationEntry.name :=
    List.mem_map.mpr ⟨entry, List.mem_of_find?_eq_some
      hentry, by simpa using List.find?_some hentry⟩
  rw [hnames, List.mem_singleton] at hmem
  obtain rfl : leaf = leaf' := by simpa [hmem, hleaf] using hname
  rw [hin] at hd
  rw [hout]
  cases hd with
  | flat hkeys =>
    obtain ⟨a, ha⟩ := Option.isSome_iff_exists.mp ((hkeys "a").mpr (by simp))
    exact ⟨_, by simp only [doubling, ha]; rfl, .flat (hasKeys_oneSignal "b" (2 * a))⟩

theorem relay_signals_safe :
    let s := (relay.resolve "relay.pcl" gainRegistry .empty).symbols
    let analysis := ((Arena.ofArrow relayed).infer s).1.analyze s
    (∀ f ∈ (relay.resolve "relay.pcl" gainRegistry .empty).findings, f.isError = false) ∧
      (∀ f ∈ analysis.2.2, f.isError = false) ∧
      ∃ prog d, Target.arrowProgram relay.component analysis.2.1 analysis.1 = .ok prog ∧
        prog.flow doubling (.record (oneSignal "a" 3)) = some d ∧
        d.HasType (.flat (.ofList ["wet", "dry"])) := by
  have hresolve : ∀ f ∈ (relay.resolve "relay.pcl" gainRegistry .empty).findings,
      f.isError = false := by
    decide +kernel
  have hnames : (relay.resolve "relay.pcl" gainRegistry .empty).symbols.declarations.map
      DeclarationEntry.name = ["amp"] := by
    decide +kernel
  have hamp : (relay.resolve "relay.pcl" gainRegistry .empty).symbols.leafOf? "amp" =
      some ⟨.flat (.ofList ["a"]), .flat (.ofList ["b"]), [], true⟩ := by
    decide +kernel
  have hanalysis : ∀ f ∈ (((Arena.ofArrow relayed).infer
      (relay.resolve "relay.pcl" gainRegistry .empty).symbols).1.analyze
      (relay.resolve "relay.pcl" gainRegistry .empty).symbols).2.2, f.isError = false := by
    decide +kernel
  have hsafe := arrow_signals_safe.{0} relay "relay.pcl" gainRegistry .empty relayed rfl hresolve
    hanalysis
  obtain ⟨prog, hprog⟩ := hsafe.1 rfl
  obtain ⟨d, hd, htype⟩ := hsafe.2 prog hprog Nat doubling
    (doubling_carries hnames hamp rfl rfl) _ (.flat (hasKeys_oneSignal "a" 3))
  exact ⟨hresolve, hanalysis, prog, d, hprog, hd, htype⟩

end Program

end PipelineLang
