import PipelineLang.Proofs.Leaf.Numbers
import PipelineLang.Proofs.Relocation.Arrow
import PipelineLang.Target.Module

/-! Code is written from names and types, not from places: for a relocated program it is the same,
but for the header, and for the line numbers that a traced module tells. -/

namespace PipelineLang

variable {a b : Arena} {lines' : LineIndex} {instrument : Bool}

def ArrowStep.relocate (φ : Relocation) : ArrowStep → ArrowStep
  | merge entries => merge (entries.map (MergeMapping.relocate φ))
  | wire entries => wire (entries.map (Mapping.relocate φ))
  | wirePair top bottom => wirePair (top.map (Mapping.relocate φ)) (bottom.map (Mapping.relocate φ))
  | choose condition onTrue onFalse => choose (condition.relocate φ) onTrue onFalse
  | step => step

namespace ArrowProgram

variable {φ : Relocation} {declared : List String}

def relocate (φ : Relocation) (p : ArrowProgram) : ArrowProgram :=
  ⟨p.steps.map (ArrowStep.relocate φ), p.result⟩

def Progress.relocate (φ : Relocation) (p : Progress) : Progress :=
  ⟨p.values, p.steps.map (ArrowStep.relocate φ)⟩

theorem Progress.relocate_build (p : Progress) (step : ArrowStep) :
    (p.relocate φ).build (step.relocate φ) = (p.build step).relocate φ := by
  simp [build, relocate]

theorem valueAt_mono {values : List ArrowValue} {i : Nat} {v : ArrowValue}
    (h : valueAt a values i = .ok v) : valueAt b values i = .ok v := by
  unfold valueAt at h ⊢
  cases hv : values[i]? with
  | none => simp [hv] at h
  | some w => simpa [hv] using h

theorem addNode_relocate {p q : Progress} {node : ArrowNode}
    (h : addNode declared a p node = .ok q) :
    addNode declared b (p.relocate φ) (node.relocate φ) = .ok (q.relocate φ) := by
  obtain ⟨kind, parent, span, types⟩ := node
  cases kind with
  | use component =>
    by_cases hknown : declared.contains component.name = true
    · simp only [addNode, hknown, if_true] at h
      cases h
      simp only [addNode, ArrowNode.relocate, NodeKind.relocate, Ident.name_relocate, hknown,
        if_true]
      rfl
    · simp only [addNode, hknown] at h
      cases h
  | paren inner =>
    obtain ⟨v, hv, h⟩ := exists_of_bind_eq_ok h
    cases h
    simp only [addNode, ArrowNode.relocate, NodeKind.relocate, Progress.relocate, valueAt_mono hv]
    rfl
  | compose left right | pairUp left right | fanOut left right =>
    obtain ⟨l, hl, h⟩ := exists_of_bind_eq_ok h
    obtain ⟨r, hr, h⟩ := exists_of_bind_eq_ok h
    cases h
    rw [← Progress.relocate_build]
    simp only [addNode, ArrowNode.relocate, NodeKind.relocate, Progress.relocate, valueAt_mono hl,
      valueAt_mono hr]
    rfl
  | choose condition onTrue onFalse =>
    obtain ⟨l, hl, h⟩ := exists_of_bind_eq_ok h
    obtain ⟨r, hr, h⟩ := exists_of_bind_eq_ok h
    cases h
    rw [← Progress.relocate_build]
    simp only [addNode, ArrowNode.relocate, NodeKind.relocate, Progress.relocate, valueAt_mono hl,
      valueAt_mono hr]
    rfl
  | first inner | second inner =>
    obtain ⟨v, hv, h⟩ := exists_of_bind_eq_ok h
    cases h
    rw [← Progress.relocate_build]
    simp only [addNode, ArrowNode.relocate, NodeKind.relocate, Progress.relocate, valueAt_mono hv]
    rfl
  | split | merge | wire | wirePair =>
    cases h
    rw [← Progress.relocate_build]
    rfl
  | failed => cases h

theorem foldlM_addNode_relocate {nodes : List ArrowNode} {p q : Progress}
    (h : nodes.foldlM (addNode declared a) p = .ok q) :
    (nodes.map (ArrowNode.relocate φ)).foldlM (addNode declared b)
    (p.relocate φ) = .ok (q.relocate φ) := by
  induction nodes generalizing p with
  | nil =>
    cases h
    rfl
  | cons node nodes ih =>
    rw [List.foldlM_cons] at h
    obtain ⟨p', hnode, h⟩ := exists_of_bind_eq_ok h
    rw [List.map_cons, List.foldlM_cons, addNode_relocate hnode]
    exact ih h

theorem ofArena_relocate {prog : ArrowProgram} (h : ofArena declared a = .ok prog) :
    ofArena declared (a.relocate φ) = .ok (prog.relocate φ) := by
  obtain ⟨p, hp, h⟩ := exists_of_bind_eq_ok h
  obtain ⟨v, hv, h⟩ := exists_of_bind_eq_ok h
  cases h
  have hfold := foldlM_addNode_relocate (φ := φ) (b := a.relocate φ) hp
  have hresult : valueAt (a.relocate φ) (p.relocate φ).values (a.relocate φ).root = .ok v := by
    rw [Arena.root_relocate]
    exact valueAt_mono hv
  have hstart : (⟨[], []⟩ : Progress) = Progress.relocate φ ⟨[], []⟩ := rfl
  rw [ofArena, hstart]
  change ((a.nodes.map (ArrowNode.relocate φ)).foldlM (addNode declared (a.relocate φ)) _ >>= _) = _
  rw [hfold]
  change (valueAt (a.relocate φ) (p.relocate φ).values (a.relocate φ).root >>= _) = _
  rw [hresult]
  rfl

end ArrowProgram

namespace Target

variable {φ : Relocation}

theorem arrowCondition_relocate (c : Condition) :
    arrowCondition (c.relocate φ) = arrowCondition c := by
  induction c with
  | binary op left right span ihl ihr => simp only [Condition.relocate, arrowCondition, ihl, ihr]
  | paren inner span ih => simp only [Condition.relocate, arrowCondition, ih]
  | terminal operand => cases operand <;> rfl

theorem operandFrom_relocate (dict : String) (operand : Operand) :
    operandFrom dict (operand.relocate φ) = operandFrom dict operand := by
  cases operand <;> rfl

theorem wireFields_relocate (entries : List Mapping) :
    wireFields (entries.map (Mapping.relocate φ)) = wireFields entries := by
  rw [wireFields, wireFields, List.filter_map, List.map_map]
  congr 1
  funext m
  simp only [Function.comp_apply, Mapping.relocate, operandFrom_relocate, Ident.name_relocate]

theorem wireCode_relocate (entries : List Mapping) :
    wireCode (entries.map (Mapping.relocate φ)) = wireCode entries := by
  unfold wireCode
  rw [wireFields_relocate]

theorem mergeFields_relocate (entries : List MergeMapping) :
    mergeFields (entries.map (MergeMapping.relocate φ)) = mergeFields entries := by
  have hkept : (entries.map (MergeMapping.relocate φ)).filter (fun m => isKept m.target) =
      (entries.filter fun m => isKept m.target).map (MergeMapping.relocate φ) := by
    rw [List.filter_map]
    rfl
  simp only [mergeFields, hkept, List.filterMap_map]
  congr 1
  · congr 1
    · congr 1
      funext m
      obtain ⟨source, _, _⟩ := m
      cases source <;> rfl
    · congr 1
      funext m
      obtain ⟨source, _, _⟩ := m
      cases source <;> rfl
  · congr 1
    funext m
    obtain ⟨source, _, _⟩ := m
    cases source <;> rfl

theorem mergeCode_relocate (entries : List MergeMapping) :
    mergeCode (entries.map (MergeMapping.relocate φ)) = mergeCode entries := by
  unfold mergeCode
  rw [mergeFields_relocate]

theorem stepCode_relocate (step : ArrowStep) : stepCode (step.relocate φ) = stepCode step := by
  cases step with
  | merge entries => exact mergeCode_relocate entries
  | wire entries => exact wireCode_relocate entries
  | wirePair top bottom =>
    exact congrArg₂ (fun t b => t ++ " ** " ++ b) (wireCode_relocate top) (wireCode_relocate bottom)
  | choose condition onTrue onFalse =>
    exact congrArg (fun c => "cons_if_component(lambda a, s: " ++ c ++ ", " ++ valueCode onTrue
      ++ ", " ++ valueCode onFalse ++ ")") (arrowCondition_relocate condition)
  | compose | pairUp | fanOut | first | second | split => rfl

theorem stepStatements_relocate (steps : List ArrowStep) :
    stepStatements (steps.map (ArrowStep.relocate φ)) = stepStatements steps := by
  rw [stepStatements, stepStatements, List.zipIdx_map, List.map_map]
  refine List.map_congr_left fun x _ => ?_
  simp only [Function.comp_apply, Prod.map, stepCode_relocate, id]

theorem settingEntries_relocate (dict : String) (d : Declaration) :
    settingEntries dict (d.relocate φ) = settingEntries dict d := by
  rw [settingEntries, Declaration.settings_relocate, List.map_map]
  simp only [Function.comp_def, Mapping.relocate, operandFrom_relocate, Ident.name_relocate]
  rfl

theorem declarationLines_relocate (instrument : Bool) {line line' : Nat} (d : Declaration)
    (localName : String) (h : instrument = true → line' = line) :
    declarationLines instrument line' (d.relocate φ) localName =
      declarationLines instrument line d localName := by
  have hname : (d.relocate φ).name.name = d.name.name := rfl
  have hstate : stateLine (d.relocate φ) = stateLine d := by
    simp only [stateLine, settingEntries_relocate, hname]
  have hempty : (d.relocate φ).settings.isEmpty = d.settings.isEmpty := by
    rw [Declaration.settings_relocate, List.isEmpty_map]
  simp only [declarationLines, settingEntries_relocate, hname, hstate, hempty]
  cases instrument with
  | false => rfl
  | true => rw [h rfl]

theorem known_relocate (s : Symbols) (ds : List Declaration) :
    known (s.relocate φ) (ds.map (Declaration.relocate φ)) =
      (known s ds).map fun x => (x.1.relocate φ, x.2.relocate φ) := by
  rw [known, known, List.filterMap_map, List.map_filterMap]
  congr 1
  funext d
  have hname : (d.relocate φ).name.name = d.name.name := rfl
  simp only [Function.comp_apply, hname, Symbols.declaration?_relocate]
  cases s.declaration? d.name.name with
  | none => rfl
  | some entry =>
    have hspan : (entry.relocate φ).span = (d.relocate φ).span ↔ entry.span = d.span :=
      Span.relocate_inj
    simp only [Option.map_some, hspan]
    split <;> rfl

theorem declarationCode_relocate (s : Symbols) {lines : LineIndex} (d : Declaration)
    (entry : DeclarationEntry)
    (h : instrument = true → ∀ n, lines'.lineOf (φ.start n) = lines.lineOf n) :
    declarationCode (s.relocate φ) lines' instrument (d.relocate φ) (entry.relocate φ) =
      declarationCode s lines instrument d entry := by
  have himport : (entry.relocate φ).importName = entry.importName := rfl
  rw [declarationCode, declarationCode, himport, Symbols.import?_relocate]
  cases s.import? entry.importName with
  | none => rfl
  | some i =>
    refine congrArg Except.ok (declarationLines_relocate instrument d i.localName fun htraced => ?_)
    exact h htraced d.span.start

theorem arrowBody_relocate (c : Component) (s : Symbols) {lines : LineIndex}
    {result : List Statement × Nat}
    (h : instrument = true → ∀ n, lines'.lineOf (φ.start n) = lines.lineOf n)
    (hbody : arrowBody c s lines instrument a = .ok result) :
    arrowBody (c.relocate φ) (s.relocate φ) lines' instrument (a.relocate φ) = .ok result := by
  obtain ⟨instances, hinstances, hbody⟩ := exists_of_bind_eq_ok hbody
  obtain ⟨prog, hprog, hbody⟩ := exists_of_bind_eq_ok hbody
  cases hbody
  have hknown := known_relocate (φ := φ) s c.declarations
  have hinstances' : ((known s c.declarations).map fun x => (x.1.relocate φ, x.2.relocate φ)).mapM
      (fun x => declarationCode (s.relocate φ) lines' instrument x.1 x.2) = .ok instances := by
    rw [List.mapM_map]
    simp only [Function.comp_def, declarationCode_relocate s _ _ h]
    exact hinstances
  have hnames : ((known s c.declarations).map fun x => (x.1.relocate φ, x.2.relocate φ)).map
      (fun x => x.1.name.name) = (known s c.declarations).map fun x => x.1.name.name := by
    rw [List.map_map]
    rfl
  have hprog' := ArrowProgram.ofArena_relocate (φ := φ) hprog
  simp only [arrowBody, arrowProgram, Component.relocate, hknown, hinstances', hnames, hprog', bind,
    Except.bind,
    pure, Except.pure, ArrowProgram.relocate, stepStatements_relocate, List.length_map]

theorem signalList_relocate (clause : SignalClause) :
    signalList (clause.relocate φ) = signalList clause := by
  cases clause <;> simp only [SignalClause.relocate, signalList, Ident.map_name_relocate]

theorem interfaceFunctions_relocate (c : Component) (s : Symbols) :
    interfaceFunctions (c.relocate φ) (s.relocate φ) = interfaceFunctions c s := by
  have hkeys : (s.relocate φ).configuration.map ConfigurationEntry.name =
      s.configuration.map ConfigurationEntry.name := by
    rw [Symbols.relocate, List.map_map]
    rfl
  simp only [interfaceFunctions, hkeys, Component.relocate, signalList_relocate,
    Ident.name_relocate]

theorem importLines_relocate (imports : List Import) :
    importLines (imports.map (Import.relocate φ)) = importLines imports := by
  rw [importLines, List.map_map]
  rfl

end Target

def Body.relocate (φ : Relocation) : Body → Body
  | arrow arena => arrow (arena.relocate φ)
  | leaf body => leaf body

namespace Target

theorem initialiseBody_relocate {φ : Relocation} (c : Component) (s : Symbols) {body : Body}
    {lines : LineIndex} {result : List Statement × List LogEvent}
    (h : instrument = true → ∀ n, lines'.lineOf (φ.start n) = lines.lineOf n)
    (hbody : initialiseBody c s body lines instrument = .ok result) :
    initialiseBody (c.relocate φ) (s.relocate φ) (body.relocate φ) lines' instrument =
      .ok result := by
  have hdefinition : (c.relocate φ).definition = c.definition.relocate φ := rfl
  unfold initialiseBody at hbody ⊢
  rw [hdefinition]
  cases hdef : c.definition with
  | arrow e =>
    cases body with
    | arrow a =>
      rw [hdef] at hbody
      obtain ⟨code, hcode, hbody⟩ := exists_of_bind_eq_ok hbody
      simp only [Definition.relocate, Body.relocate, arrowBody_relocate c s h hcode]
      exact hbody
    | leaf leaf =>
      rw [hdef] at hbody
      cases hbody
  | leaf b =>
    cases body with
    | arrow a =>
      rw [hdef] at hbody
      cases hbody
    | leaf leaf =>
      rw [hdef] at hbody
      exact hbody

end Target

def unlines (lines : List String) : String := String.join (lines.map (· ++ "\n"))

theorem Program.generate_relocate {φ : Relocation} {p : Program} {s : Symbols} {body : Body}
    {lines : LineIndex} {o : CodeOptions} {code : Generated}
    (hcode : p.generate s body lines o = .ok code)
    (h : o.instrument = true → ∀ n, lines'.lineOf (φ.start n) = lines.lineOf n) :
    ∃ rest, code.text = unlines (Target.headerLines o ++ rest) ∧ ∀ o' : CodeOptions,
    o'.instrument = o.instrument →
      (p.relocate φ).generate (s.relocate φ) (body.relocate φ) lines' o' =
        .ok ⟨unlines (Target.headerLines o' ++ rest), code.log⟩ := by
  obtain ⟨result, hresult, hcode⟩ := exists_of_bind_eq_ok hcode
  cases hcode
  refine ⟨Target.supportImports ++ (if o.instrument then Target.tracingFunctions else [])
    ++ Target.importLines p.imports ++ ["", ""] ++ Statement.bodyLines 0
      (Target.interfaceFunctions p.component s
      ++ Statement.function "initialise" ["config"] result.1), ?_, fun o' ho => ?_⟩
  · simp only [unlines, List.append_assoc]
  · have hresult' := Target.initialiseBody_relocate (φ := φ) p.component s h hresult
    simp only [generate, Program.relocate, hresult', bind, Except.bind, pure, Except.pure, ho,
      unlines, Target.interfaceFunctions_relocate, Target.importLines_relocate, List.append_assoc]

end PipelineLang
