import PipelineLang.Proofs.Target.Signals

/-! What the conditions of a generated arrow read. Analysis asks for names of the signals that flow
in, and of a pair it takes the names of both halves; the code reads them as keys of one
dictionary. -/

namespace PipelineLang

universe u

variable {V : Type u}

def Datum.fields? : Datum V → Option (Record V)
  | record fields => some fields
  | pair _ _ => none

namespace Target

/-- Where a condition takes the value of an operand from. -/
def conditionSource : Operand → FieldSource
  | .state id => .key "s" id.name
  | .ident id => .key "a" id.name
  | .literal lit => .constant lit.value

theorem arrowCondition_terminal (operand : Operand) :
    arrowCondition (.terminal operand) = (conditionSource operand).code := by
  cases operand <;> rfl

/-- The dictionaries that a condition may name: the value `a` that flows in, and the state `s`. -/
def conditionScope (d : Datum V) (state : Record V) (dict : String) : Option (Record V) :=
  if dict = "a" then d.fields? else if dict = "s" then some state else none

theorem isSome_read_iff (I : Behaviour V) {d : Datum V} (state : Record V) {type : SignalType}
    {id : Ident} (hd : d.HasType type) (hid : type.Has id.name) :
    ((conditionSource (.ident id)).read? I (conditionScope d state)).isSome = true ↔
      ∃ names, type = .flat names := by
  cases hd with
  | @flat r names hkeys =>
    have hread : (r id.name).isSome = true := (hkeys id.name).mpr hid
    exact iff_of_true hread ⟨names, rfl⟩
  | pair =>
    refine iff_of_false ?_ ?_
    · simp [conditionSource, FieldSource.read?, conditionScope, Datum.fields?]
    · rintro ⟨names, h⟩
      cases h

end Target

namespace ArrowProgram

theorem Builds.exists_choose {steps : List ArrowStep} {e : Arrow} {v : ArrowValue}
    (h : Builds steps e v) {base : Nat} {parent : Option Nat} {node : ArrowNode}
    (hnode : node ∈ e.layOut base parent)
    {condition : Condition} {t f : Nat} (hkind : node.kind = .choose condition t f) :
    ∃ (k : Nat) (x y : ArrowValue), steps[k]? = some (.choose condition x y) := by
  induction h generalizing base parent with
  | compose _ _ _ _ _ ihl ihr | pairUp _ _ _ _ _ ihl ihr | fanOut _ _ _ _ _ ihl ihr =>
    rw [Arrow.layOut_eq, Arrow.partsAt, List.mem_append, List.mem_append, List.mem_singleton]
      at hnode
    rcases hnode with (hl | hr) | rfl
    · exact ihl hl
    · exact ihr hr
    · cases hkind
  | @choose _ _ _ _ x y k _ _ _ _ hk ihl ihr =>
    rw [Arrow.layOut_eq, Arrow.partsAt, List.mem_append, List.mem_append, List.mem_singleton]
      at hnode
    rcases hnode with (hl | hr) | rfl
    · exact ihl hl
    · exact ihr hr
    · cases hkind
      exact ⟨k, x, y, hk⟩
  | first _ _ _ ih | second _ _ _ ih | paren _ ih =>
    rw [Arrow.layOut_eq, Arrow.partsAt, List.mem_append, List.mem_singleton] at hnode
    rcases hnode with hi | rfl
    · exact ih hi
    · cases hkind
  | use | split | merge | wire | wirePair =>
    rw [Arrow.layOut_eq, Arrow.partsAt, List.nil_append, List.mem_singleton] at hnode
    subst hnode
    cases hkind

end ArrowProgram

namespace Arena

variable {s : Symbols} {e : Arrow} {i : Nat} {node : ArrowNode}

theorem nodeFindings_of_clean (hclean : (((ofArrow e).infer s).1.analyze s).2.2 = [])
    (hnode : (typed s e).1.node? i = some node) :
    (typed s e).1.nodeFindings s (typed s e).2 i = [] := by
  have hall : (List.range (typed s e).1.size).flatMap ((typed s e).1.nodeFindings s (typed s e).2) =
      [] :=
    (List.append_eq_nil_iff.mp hclean).1
  exact List.flatMap_eq_nil_iff.mp hall i
    (List.mem_range.mpr (List.getElem?_eq_some_iff.mp hnode).1)

theorem reads_of_clean (hclean : (((ofArrow e).infer s).1.analyze s).2.2 = [])
    (hnode : (typed s e).1.node? i = some node) {condition : Condition} {t f : Nat}
    (hkind : node.kind = .choose condition t f) {type : SignalType}
    (htype : node.types.inputs = some type) :
    condition.Reads s type := by
  have hquiet := nodeFindings_of_clean hclean hnode
  obtain ⟨kind, parent, span, types⟩ := node
  cases hkind
  have hsplit := splitsPair_eq_none (show NodeKind.choose condition t f ≠ .split by simp) parent
    span types
  simp only [nodeFindings, hnode, hsplit, List.append_eq_nil_iff] at hquiet
  obtain ⟨hagreement, -⟩ := hquiet
  simp only [agreementFindings, List.append_eq_nil_iff] at hagreement
  obtain ⟨-, hcondition⟩ := hagreement
  rw [show types.inputs = some type from htype] at hcondition
  exact conditionFindings_eq_nil_iff.mp hcondition

theorem exists_inputs_of_derivation (d : Derivation s e s.declaredInputs s.declaredOutputs)
    (hnode : (typed s e).1.node? i = some node) : ∃ type, node.types.inputs = some type := by
  have hmem : node.types ∈ d.judgements.map Derivation.stored := by
    rw [← d.derivedRow_eq, ← types_nodes_typed]
    exact List.mem_map_of_mem (List.mem_of_getElem? hnode)
  obtain ⟨judgement, -, hj⟩ := List.mem_map.mp hmem
  exact ⟨judgement.1, by rw [← hj]; rfl⟩

end Arena

namespace Program

/-- An arrow that is analyzed without errors has a program, and every choice in it has an input type
and is made by a step of the program. Each plain name in its condition is a name of that type. Its
code reads it from the value that flows in, which has it just if the type is flat: a pair has no
keys of its own. -/
theorem condition_readable_iff (p : Program) (file : String) (registry : Registry)
    (files : FileTree) (e : Arrow) (hd : p.component.definition = .arrow e) (hi : e.intact = true)
    (hresolve : ∀ f ∈ (p.resolve file registry files).findings, f.isError = false) :
    let s := (p.resolve file registry files).symbols
    let analysis := ((Arena.ofArrow e).infer s).1.analyze s
    (∀ f ∈ analysis.2.2, f.isError = false) →
      ∃ prog, Target.arrowProgram p.component analysis.2.1 analysis.1 = .ok prog ∧
        ∀ i node condition t f, analysis.1.node? i = some node → node.kind = .choose condition t f →
          ∃ type, node.types.inputs = some type ∧
            (∃ (k : Nat) (x y : ArrowValue), prog.steps[k]? = some (.choose condition x y)) ∧
            ∀ id, Operand.ident id ∈ condition.operands → type.Has id.name ∧
              Target.arrowCondition (.terminal (.ident id)) =
              (Target.conditionSource (.ident id)).code ∧
              ∀ (V : Type u) (I : Behaviour V) (d : Datum V) (state : Record V), d.HasType type →
                (((Target.conditionSource (.ident id)).read? I
                  (Target.conditionScope d state)).isSome = true ↔
                  ∃ names, type = .flat names) := by
  intro s analysis hanalysis
  have hshape : analysis.1.nodes.map ArrowNode.shape =
      (Arena.ofArrow e).nodes.map ArrowNode.shape :=
    Arena.shape_nodes_typed s e
  have hclean : analysis.2.2 = [] := Arena.analyze_clean_iff.mp hanalysis
  obtain ⟨d⟩ := (Arena.analyze_eq_nil_iff_derivation (sound_of_clean hd hresolve hi)).mp hclean
  obtain ⟨prog, hprog, hbuilds⟩ := Target.exists_arrowProgram (c := p.component)
    (traced_resolve_arrow hd hresolve) hi
    (fun id hid => isSome_declaration?_of_components hd hresolve hid) hshape
  refine ⟨prog, hprog, fun i node condition t f hnode hkind => ?_⟩
  obtain ⟨type, htype⟩ := Arena.exists_inputs_of_derivation d hnode
  refine ⟨type, htype, ?_, ?_⟩
  · have hmem : node.shape ∈ (Arena.ofArrow e).nodes.map ArrowNode.shape :=
      hshape ▸ List.mem_map_of_mem (List.mem_of_getElem? hnode)
    obtain ⟨laid, hlaid, hsame⟩ := List.mem_map.mp hmem
    rw [Arena.nodes_ofArrow] at hlaid
    exact hbuilds.exists_choose hlaid ((congrArg Prod.fst hsame).trans hkind)
  · intro id hid
    have hmem : type.Has id.name := Arena.reads_of_clean hclean hnode hkind htype _ hid
    exact ⟨hmem, Target.arrowCondition_terminal _,
      fun V I d state hd => Target.isSome_read_iff I state hd hmem⟩

def gated : Arrow :=
  let at0 (name : String) : Ident := ⟨name, .endOf 0⟩
  let pass (kept dropped : String) : Arrow :=
    .wire [⟨.ident (at0 kept), at0 "x", .endOf 0⟩,
      ⟨.ident (at0 dropped), at0 discardName, .endOf 0⟩] (.endOf 0)
  .choose (.terminal (.ident (at0 "a"))) (pass "a" "b") (pass "b" "a") (.endOf 0)

def gate : Program where
  imports := []
  component := {
    name := ⟨"gate", .endOf 0⟩
    inputs := .flat [⟨"a", .endOf 0⟩, ⟨"b", .endOf 0⟩]
    outputs := .flat [⟨"x", .endOf 0⟩]
    configuration := []
    declarations := []
    definition := .arrow gated
    span := .endOf 0 }
  span := .endOf 0

theorem gate_condition_readable :
    let s := (gate.resolve "gate.pcl" .empty .empty).symbols
    let analysis := ((Arena.ofArrow gated).infer s).1.analyze s
    gated.intact = true ∧ (∀ f ∈ (gate.resolve "gate.pcl" .empty .empty).findings,
      f.isError = false) ∧ (∀ f ∈ analysis.2.2, f.isError = false) ∧
      ∃ node, analysis.1.node? 2 = some node ∧
        node.kind = .choose (.terminal (.ident ⟨"a", .endOf 0⟩)) 0 1 ∧
        ∀ (I : Behaviour Nat) (d : Datum Nat) (state : Record Nat),
        d.HasType (.flat (.ofList ["a", "b"])) →
          ((Target.conditionSource (.ident ⟨"a", .endOf 0⟩)).read? I
            (Target.conditionScope d state)).isSome = true := by
  have hresolve : ∀ f ∈ (gate.resolve "gate.pcl" .empty .empty).findings, f.isError = false := by
    decide +kernel
  intro s analysis
  have hanalysis : ∀ f ∈ analysis.2.2, f.isError = false := by decide +kernel
  have hnode : analysis.1.node? 2 = some ⟨.choose (.terminal (.ident ⟨"a", .endOf 0⟩)) 0 1, none,
      .endOf 0, ⟨some (.flat (.ofList ["a", "b"])), some (.flat (.ofList ["x"]))⟩⟩ := by
    decide +kernel
  obtain ⟨prog, -, hchoices⟩ :=
    condition_readable_iff.{0} gate "gate.pcl" .empty .empty gated rfl rfl hresolve hanalysis
  obtain ⟨type, htype, -, hread⟩ := hchoices 2 _ _ _ _ hnode rfl
  cases htype
  refine ⟨rfl, hresolve, hanalysis, _, hnode, rfl, fun I d state hd => ?_⟩
  exact ((hread ⟨"a", .endOf 0⟩ (by decide)).2.2 Nat I d state hd).mpr ⟨_, rfl⟩

def halfGated : Arrow :=
  let at0 (name : String) : Ident := ⟨name, .endOf 0⟩
  let pass : Arrow := .wirePair [⟨.ident (at0 "a"), at0 "a", .endOf 0⟩]
    [⟨.ident (at0 "b"), at0 "b", .endOf 0⟩]
    (.endOf 0)
  .choose (.terminal (.ident (at0 "a"))) pass pass (.endOf 0)

def halfGate : Program where
  imports := []
  component := {
    name := ⟨"halfGate", .endOf 0⟩
    inputs := .pair [⟨"a", .endOf 0⟩] [⟨"b", .endOf 0⟩]
    outputs := .pair [⟨"a", .endOf 0⟩] [⟨"b", .endOf 0⟩]
    configuration := []
    declarations := []
    definition := .arrow halfGated
    span := .endOf 0 }
  span := .endOf 0

/-- Nothing is found wrong, code is generated, and its condition reads a key of a pair. -/
theorem halfGate_condition_unreadable :
    let s := (halfGate.resolve "halfGate.pcl" .empty .empty).symbols
    let analysis := ((Arena.ofArrow halfGated).infer s).1.analyze s
    (∀ f ∈ (halfGate.resolve "halfGate.pcl" .empty .empty).findings, f.isError = false) ∧
      (∀ f ∈ analysis.2.2, f.isError = false) ∧
      (Target.arrowProgram halfGate.component analysis.2.1 analysis.1).toOption.map
        (fun prog => prog.steps[2]?) =
        some (some (.choose (.terminal (.ident ⟨"a", .endOf 0⟩)) (.temporary 0) (.temporary 1))) ∧
      ∃ node, analysis.1.node? 2 = some node ∧
        node.kind = .choose (.terminal (.ident ⟨"a", .endOf 0⟩)) 0 1 ∧
        node.types.inputs = some (.pair (.ofList ["a"]) (.ofList ["b"])) ∧
        ∀ (I : Behaviour Nat) (d : Datum Nat) (state : Record Nat),
          d.HasType (.pair (.ofList ["a"]) (.ofList ["b"])) →
            (Target.conditionSource (.ident ⟨"a", .endOf 0⟩)).read? I
              (Target.conditionScope d state) = none := by
  intro s analysis
  have hnode : analysis.1.node? 2 = some ⟨.choose (.terminal (.ident ⟨"a", .endOf 0⟩)) 0 1, none,
      .endOf 0, ⟨some (.pair (.ofList ["a"]) (.ofList ["b"])),
        some (.pair (.ofList ["a"]) (.ofList ["b"]))⟩⟩ := by
    decide +kernel
  refine ⟨by decide +kernel, by decide +kernel, by decide +kernel, _, hnode, rfl, rfl, ?_⟩
  intro I d state hd
  cases hd
  rfl

end Program

end PipelineLang
