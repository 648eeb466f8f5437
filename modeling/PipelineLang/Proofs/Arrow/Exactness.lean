import PipelineLang.Proofs.Arrow.Derivation
import PipelineLang.Proofs.Symbols.Resolution

/-! The analysis of an arrow is exact: it finds an error just when the expression has no derivation
at the declared types, and otherwise leaves the judgements of a derivation in the arena. -/

namespace PipelineLang

namespace Arena

variable {s : Symbols} {e : Arrow}

theorem analyze_clean_iff {a : Arena} :
    (∀ f ∈ (a.analyze s).2.2, f.isError = false) ↔ (a.analyze s).2.2 = [] := by
  constructor
  · intro h
    rw [List.eq_nil_iff_forall_not_mem]
    intro f hf
    exact absurd (wrong_of_mem_analyze hf).isError (by simp [h f hf])
  · intro h
    simp [h]

theorem types_nodes_typed (s : Symbols) (e : Arrow) :
    (typed s e).1.nodes.map ArrowNode.types =
      (e.derivedRow s (some s.declaredInputs)).map CombinedTypes.types := by
  have hlen := size_typed s e
  apply List.ext_getElem
  · simp only [List.length_map, Arrow.length_derivedRow]
    exact hlen
  · intro i hi hi'
    rw [List.length_map] at hi hi'
    have hrow := follows_typed s e i hi'
    have hnode : (typed s e).1.node? i = some (typed s e).1.nodes[i] := List.getElem?_eq_getElem hi
    rw [List.getElem_map, List.getElem_map, ← hrow, entry, Nat.zero_add, types, hnode]

theorem shape_nodes_typed (s : Symbols) (e : Arrow) :
    (typed s e).1.nodes.map ArrowNode.shape = (ofArrow e).nodes.map ArrowNode.shape := by
  have h := (derive_infer_ofArrow s s.declaredInputs e).1.shape
  apply List.ext_getElem?
  intro i
  simp only [List.getElem?_map]
  exact congrFun h i

theorem analyze_eq_nil_iff_derivation (h : e.Sound s) :
    (((ofArrow e).infer s).1.analyze s).2.2 = [] ↔
      Nonempty (Derivation s e s.declaredInputs s.declaredOutputs) := by
  rw [analyze_eq_nil_iff h]
  constructor
  · rintro ⟨hacc, htypes⟩
    obtain ⟨A, B, ⟨d⟩, hd⟩ := hacc.exists_derivation
    rw [htypes, NodeTypes.known, NodeTypes.mk.injEq, Option.some.injEq, Option.some.injEq] at hd
    obtain ⟨rfl, rfl⟩ := hd
    exact ⟨d⟩
  · rintro ⟨d⟩
    exact ⟨d.accepted, by rw [d.derived_eq]; rfl⟩

theorem symbols_analyze (d : Derivation s e s.declaredInputs s.declaredOutputs) :
    (((ofArrow e).infer s).1.analyze s).2.1 =
      { s with inputs := some s.declaredInputs, outputs := some s.declaredOutputs } := by
  have h : (typed s e).1.types (typed s e).1.root = .known s.declaredInputs s.declaredOutputs := by
    rw [types_root_typed, d.derived_eq]
  change { s with
    inputs := agreed? s.declaredInputs ((typed s e).1.types (typed s e).1.root).inputs
    outputs := agreed? s.declaredOutputs ((typed s e).1.types (typed s e).1.root).outputs } = _
  rw [h]
  simp [NodeTypes.known, agreed?]

end Arena

namespace Program

variable {p : Program} {file : String} {registry : Registry} {files : FileTree} {e : Arrow}

theorem declared_resolve_arrow (hd : p.component.definition = .arrow e) :
    (p.resolve file registry files).symbols.declaredInputs = .ofClause p.component.inputs ∧
      (p.resolve file registry files).symbols.declaredOutputs = .ofClause p.component.outputs :=
  ⟨congrArg Prod.fst (header_resolve_arrow hd), congrArg (fun x => x.2.1) (header_resolve_arrow hd)⟩

/-- Once the names of a component are resolved, its analysis finds nothing wrong just if there is a
derivation of its declared type. -/
theorem analyze_clean_iff_derivation (hd : p.component.definition = .arrow e) (hi : e.intact = true)
    (hclean : ∀ f ∈ (p.resolve file registry files).findings, f.isError = false) :
    let s := (p.resolve file registry files).symbols
    (∀ f ∈ (((Arena.ofArrow e).infer s).1.analyze s).2.2, f.isError = false) ↔
      Nonempty (Derivation s e (.ofClause p.component.inputs) (.ofClause p.component.outputs)) := by
  intro s
  obtain ⟨hA, hB⟩ : s.declaredInputs = .ofClause p.component.inputs ∧
      s.declaredOutputs = .ofClause p.component.outputs := declared_resolve_arrow hd
  rw [Arena.analyze_clean_iff, ← hA, ← hB]
  exact Arena.analyze_eq_nil_iff_derivation (sound_of_clean hd hclean hi)

/-- The analysis accepts just the expressions that are derivable at the declared type. It then
leaves the types of a derivation in the nodes. -/
theorem analyze_exact (p : Program) (file : String) (registry : Registry) (files : FileTree)
    (e : Arrow) (hd : p.component.definition = .arrow e) (hi : e.intact = true)
    (hclean : ∀ f ∈ (p.resolve file registry files).findings, f.isError = false) :
    let s := (p.resolve file registry files).symbols
    let A := SignalType.ofClause p.component.inputs
    let B := SignalType.ofClause p.component.outputs
    let analysis := ((Arena.ofArrow e).infer s).1.analyze s
    ((∀ f ∈ analysis.2.2, f.isError = false) ↔ Nonempty (Derivation s e A B)) ∧
      ((∀ f ∈ analysis.2.2, f.isError = false) → ∃ d : Derivation s e A B,
        analysis.1.nodes.map ArrowNode.shape = (Arena.ofArrow e).nodes.map ArrowNode.shape ∧
        analysis.1.nodes.map ArrowNode.types = d.judgements.map Derivation.stored ∧
        analysis.2.1.inputs = some A ∧ analysis.2.1.outputs = some B) := by
  intro s A B analysis
  have hexact : (∀ f ∈ analysis.2.2, f.isError = false) ↔ Nonempty (Derivation s e A B) :=
    analyze_clean_iff_derivation hd hi hclean
  refine ⟨hexact, fun hanalysis => ?_⟩
  obtain ⟨d⟩ := hexact.mp hanalysis
  obtain ⟨hA, hB⟩ : s.declaredInputs = A ∧ s.declaredOutputs = B := declared_resolve_arrow hd
  refine ⟨d, Arena.shape_nodes_typed s e, ?_, ?_⟩
  · rw [← d.derivedRow_eq, ← hA]
    exact Arena.types_nodes_typed s e
  · have hs := Arena.symbols_analyze
      (hA ▸ hB ▸ d : Derivation s e s.declaredInputs s.declaredOutputs)
    rw [← hA, ← hB]
    exact ⟨congrArg Symbols.inputs hs, congrArg Symbols.outputs hs⟩

/-- A component that sends its signal through an imported one and past it, and joins the two. -/
def relayed : Arrow :=
  let at0 (name : String) : Ident := ⟨name, .endOf 0⟩
  .compose
    (.compose (.split (.endOf 0))
      (.pairUp (.use (at0 "amp") (.endOf 0))
        (.paren (.wire [⟨.ident (at0 "a"), at0 "dry", .endOf 0⟩] (.endOf 0)) (.endOf 0))
          (.endOf 0)) (.endOf 0))
    (.merge [⟨.top (at0 "b"), at0 "wet", .endOf 0⟩,
      ⟨.bottom (at0 "dry"), at0 "dry", .endOf 0⟩] (.endOf 0))
    (.endOf 0)

def relay : Program where
  imports := [⟨⟨"gain", .endOf 0⟩, ⟨"gain", .endOf 0⟩, .endOf 0⟩]
  component := {
    name := ⟨"relay", .endOf 0⟩
    inputs := .flat [⟨"a", .endOf 0⟩]
    outputs := .flat [⟨"wet", .endOf 0⟩, ⟨"dry", .endOf 0⟩]
    configuration := []
    declarations := [⟨⟨"amp", .endOf 0⟩, ⟨"gain", .endOf 0⟩, none, .endOf 0⟩]
    definition := .arrow relayed
    span := .endOf 0 }
  span := .endOf 0

def gainRegistry : Registry :=
  Registry.empty.insertComponent "gain"
    ⟨some (.flat ["a"]), some (.flat ["b"]), some [], true, true⟩

/-- Relays its signal if `name` is above `@state`, and mutes the dry signal otherwise. -/
def guarded (name state : String) : Arrow :=
  let at0 (name : String) : Ident := ⟨name, .endOf 0⟩
  .choose
    (.binary .gt (.terminal (.ident (at0 name)))
      (.paren (.terminal (.state (at0 state))) (.endOf 0)) (.endOf 0))
    relayed
    (.wire [⟨.ident (at0 "a"), at0 "wet", .endOf 0⟩,
      ⟨.literal ⟨.integer 0, .endOf 0⟩, at0 "dry", .endOf 0⟩] (.endOf 0))
    (.endOf 0)

def guard (name state : String) : Program :=
  { relay with component := { relay.component with
    name := ⟨"guard", .endOf 0⟩
    configuration := [⟨"floor", .endOf 0⟩]
    definition := .arrow (guarded name state) } }

/-- The condition may read the signal `a` and the name `floor` of the configuration, and nothing
else. -/
theorem guard_analyzed :
    let typed (name state : String) : Prop :=
      Nonempty (Derivation ((guard name state).resolve "guard.pcl" gainRegistry .empty).symbols
        (guarded name state) (.flat (.ofList ["a"])) (.flat (.ofList ["wet", "dry"])))
    (∀ x ∈ [("a", "floor"), ("b", "floor"), ("a", "roof")],
      (guard x.1 x.2).component.definition = .arrow (guarded x.1 x.2) ∧
      (guarded x.1 x.2).intact = true ∧
      ∀ f ∈ ((guard x.1 x.2).resolve "guard.pcl" gainRegistry .empty).findings, f.isError = false) ∧
    typed "a" "floor" ∧ ¬ typed "b" "floor" ∧ ¬ typed "a" "roof" := by
  have hclean : ∀ x ∈ [("a", "floor"), ("b", "floor"), ("a", "roof")],
      ∀ f ∈ ((guard x.1 x.2).resolve "guard.pcl" gainRegistry .empty).findings,
      f.isError = false := by
    decide +kernel
  have hexact := fun (name state : String) h =>
    (analyze_exact (guard name state) "guard.pcl" gainRegistry .empty (guarded name state) rfl rfl
      h).1
  refine ⟨fun x hx => ⟨rfl, rfl, hclean x hx⟩, ?_, fun h => ?_, fun h => ?_⟩
  · exact (hexact "a" "floor" (hclean ("a", "floor") (by decide))).mp (by decide +kernel)
  · exact absurd ((hexact "b" "floor" (hclean ("b", "floor") (by decide))).mpr h)
      (by decide +kernel)
  · exact absurd ((hexact "a" "roof" (hclean ("a", "roof") (by decide))).mpr h) (by decide +kernel)

end Program

end PipelineLang
