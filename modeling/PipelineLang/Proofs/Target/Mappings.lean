import PipelineLang.Proofs.Arrow.Duplicates
import PipelineLang.Proofs.Compilation.Acceptance
import PipelineLang.Proofs.Symbols.Body
import PipelineLang.Proofs.Target.ArrowNames
import PipelineLang.Proofs.Target.Interface

/-! The dictionaries that are written for clauses with mappings. Each pass sees to the clauses that
it reads, so that no mapping is lost to another one; no pass sees to the settings of an instance. -/

namespace PipelineLang

variable {e : Arrow} {s : Symbols}

namespace Target

/-- What a dictionary holds under a key: of several entries, the last. -/
def held? (entries : List DictEntry) (key : String) : Option String :=
  (entries.reverse.find? fun e => e.1 = key).map Prod.snd

theorem held?_of_nodup {entries : List DictEntry} (hnodup : (entries.map Prod.fst).Nodup)
    {e : DictEntry} (he : e ∈ entries) : held? entries e.1 = some e.2 := by
  cases hfind : entries.reverse.find? fun x => x.1 = e.1 with
  | none => exact absurd (List.find?_eq_none.mp hfind e (List.mem_reverse.mpr he)) (by simp)
  | some found =>
    have hkey : found.1 = e.1 := by simpa using List.find?_some hfind
    have hfound := List.mem_reverse.mp (List.mem_of_find?_eq_some hfind)
    obtain rfl := List.inj_on_of_nodup_map hnodup hfound he hkey
    rw [held?, hfind, Option.map_some]

/-- A clause with mappings, in the code: what it asks for, entry by entry, and the dictionary that
is written for it, with what stands in front of the dictionary. -/
structure MappingClause where
  opening : String
  asked : List DictEntry
  literal : List DictEntry
deriving DecidableEq

namespace MappingClause

def code (c : MappingClause) : String := c.opening ++ dictionary c.literal

def StandsIn (c : MappingClause) (text : String) : Prop := c.code.toList <:+: text.toList

/-- No key stands twice, and each mapping of the clause has its effect. -/
structure Kept (c : MappingClause) : Prop where
  nodup : (c.literal.map Prod.fst).Nodup
  held : ∀ e ∈ c.asked, held? c.literal e.1 = some e.2

theorem kept_iff {c : MappingClause} (h : c.asked ⊆ c.literal) :
    c.Kept ↔ (c.literal.map Prod.fst).Nodup :=
  ⟨Kept.nodup, fun hnodup => ⟨hnodup, fun _ he => held?_of_nodup hnodup (h he)⟩⟩

end MappingClause

def wireClause (entries : List Mapping) : MappingClause where
  opening := "cons_wire(lambda a, s: "
  asked := fieldEntries ((entries.filter fun m => m.target.name ≠ "_").map fun m =>
    (m.target.name, operandFrom "a" m.source))
  literal := fieldEntries (wireFields entries)

def mergedFrom : MergeSource → FieldSource
  | .top id => .key "t" id.name
  | .bottom id => .key "b" id.name
  | .literal lit => .constant lit.value

def mergeField (m : MergeMapping) : Field := (m.target.name, mergedFrom m.source)

/-- The clause asks in the order in which it was written, and the dictionary has the halves
apart. -/
def mergeClause (entries : List MergeMapping) : MappingClause where
  opening := "cons_unsplit_wire(lambda t, b: "
  asked := fieldEntries ((entries.filter fun m => m.target.name ≠ "_").map mergeField)
  literal := fieldEntries (mergeFields entries)

def configurationClause (d : Declaration) : MappingClause where
  opening := d.name.name ++ "_configuration = "
  asked := settingEntries "config" d
  literal := settingEntries "config" d

/-- The settings of an instance, as the state that it runs with. The state before is kept among
them. -/
def stateClause (d : Declaration) : MappingClause where
  opening := d.name.name ++
      " = ((cons_function_component(lambda a, s: a, state_mutator = lambda s: "
  asked := settingEntries "s" d
  literal := settingEntries "s" d ++ [("____prev_", "s")]

def configureClause (c : Component) : MappingClause :=
  let entries := c.configuration.map fun id => (id.name, lookup "args" id.name)
  ⟨"def configure(args):\n  return ", entries, entries⟩

def returnClause (instrument : Bool) (leaf : LoweredLeaf) : MappingClause where
  opening := if instrument then "____outputs = " else "return "
  asked := outputEntries leaf
  literal := outputEntries leaf

end Target

open Target

def Declaration.clauses (d : Declaration) : List MappingClause :=
  configurationClause d :: if d.settings.isEmpty then [] else [stateClause d]

def Arrow.clauses : Arrow → List MappingClause
  | compose left right _ | pairUp left right _ | fanOut left right _ | choose _ left right _ =>
    left.clauses ++ right.clauses
  | first inner _ | second inner _ | paren inner _ => inner.clauses
  | merge entries _ => [mergeClause entries]
  | wire entries _ => [wireClause entries]
  | wirePair top bottom _ => [wireClause top, wireClause bottom]
  | split _ | use _ _ | failed _ => []

def Definition.clauses : Definition → List MappingClause
  | arrow e => e.clauses
  | leaf _ => []

namespace Target

theorem keys_fieldEntries (fields : List Field) :
    (fieldEntries fields).map Prod.fst = fields.map Prod.fst := by
  simp [fieldEntries]

theorem isKept_eq (target : Ident) : isKept target = decide (target.name ≠ "_") := by
  simp [isKept, discardName, bne, beq_eq_decide]

theorem kept_wireClause {entries : List Mapping}
    (h : ((wireTargets entries).map Ident.name).Nodup) :
    (wireClause entries).Kept := by
  have hasked : (wireClause entries).asked = (wireClause entries).literal := by
    simp only [wireClause, wireFields, isKept_eq]
  have hkeys : (wireClause entries).literal.map Prod.fst =
      (wireTargets entries).map Ident.name := by
    simp [wireClause, keys_fieldEntries, wireFields, wireTargets, kept, isKept, List.filter_map,
      Function.comp_def]
  rw [MappingClause.kept_iff (hasked ▸ List.Subset.refl _), hkeys]
  exact h

theorem perm_mergeFields (entries : List MergeMapping) :
    (mergeFields entries).Perm ((entries.filter fun m => m.target.name ≠ "_").map mergeField) := by
  unfold mergeFields
  simp only [isKept_eq]
  generalize entries.filter (fun m => m.target.name ≠ "_") = kept
  induction kept with
  | nil => exact .nil
  | cons m kept ih =>
    obtain ⟨source, target, span⟩ := m
    cases source with
    | top id => exact ih.cons _
    | bottom id =>
      refine .trans ?_ (ih.cons _)
      simp only [List.filterMap_cons, List.append_assoc]
      exact List.perm_middle
    | literal lit =>
      refine .trans ?_ (ih.cons _)
      exact List.perm_middle

theorem kept_mergeClause {entries : List MergeMapping}
    (h : ((mergeTargets entries).map Ident.name).Nodup) :
    (mergeClause entries).Kept := by
  have hperm : (mergeClause entries).literal.Perm (mergeClause entries).asked :=
    (perm_mergeFields entries).map _
  have hkeys : (mergeClause entries).asked.map Prod.fst =
      (mergeTargets entries).map Ident.name := by
    simp [mergeClause, keys_fieldEntries, mergeField, mergeTargets, kept, discardName,
      List.filter_map, Function.comp_def, bne, beq_eq_decide]
  rw [MappingClause.kept_iff hperm.symm.subset, (hperm.map Prod.fst).nodup_iff, hkeys]
  exact h

theorem kept_configureClause {c : Component} (h : (c.configuration.map Ident.name).Nodup) :
    (configureClause c).Kept := by
  refine (MappingClause.kept_iff (List.Subset.refl _)).mpr ?_
  rwa [configureClause, List.map_map]

theorem kept_returnClause {instrument : Bool} {leaf : LoweredLeaf}
    (h : (leaf.returns.map Prod.fst).Nodup) :
    (returnClause instrument leaf).Kept := by
  refine (MappingClause.kept_iff (List.Subset.refl _)).mpr ?_
  rwa [returnClause, outputEntries, List.map_map]

end Target

theorem Declaration.kept_clauses_iff (d : Declaration) :
    (∀ c ∈ d.clauses, c.Kept) ↔
      (d.settings.map fun m => m.target.name).Nodup ∧
      "____prev_" ∉ d.settings.map fun m => m.target.name := by
  have hkeys : ∀ dict, (settingEntries dict d).map Prod.fst =
      d.settings.map fun m => m.target.name := by
    simp [settingEntries, keys_fieldEntries, Function.comp_def]
  have hconfiguration : (configurationClause d).Kept ↔
      (d.settings.map fun m => m.target.name).Nodup := by
    rw [MappingClause.kept_iff (List.Subset.refl _), configurationClause, hkeys]
  have hstate : (stateClause d).Kept ↔
      ((d.settings.map fun m => m.target.name) ++ ["____prev_"]).Nodup := by
    rw [MappingClause.kept_iff (List.subset_append_left _ _), stateClause, List.map_append, hkeys]
    rfl
  rw [clauses, List.forall_mem_cons, hconfiguration]
  cases hempty : d.settings.isEmpty with
  | true => simp [List.isEmpty_iff.mp hempty]
  | false =>
    rw [if_neg Bool.false_ne_true, List.forall_mem_singleton, hstate, List.nodup_append_comm,
      List.singleton_append, List.nodup_cons]
    exact ⟨fun h => ⟨h.1, h.2.1⟩, fun h => ⟨h.1, h.2, h.1⟩⟩

namespace Arrow

theorem kept_of_layOut {base : Nat} {parent : Option Nat}
    (h : ∀ node ∈ e.layOut base parent, ∀ side ∈ node.kind.sides, (side.2.map Ident.name).Nodup) :
    ∀ c ∈ e.clauses, c.Kept := by
  induction e generalizing base parent with
  | compose left right span ihl ihr
  | pairUp left right span ihl ihr | fanOut left right span ihl ihr
  | choose condition left right span ihl ihr =>
    simp only [layOut, List.forall_mem_append] at h
    exact List.forall_mem_append.mpr ⟨ihl h.1.1, ihr h.1.2⟩
  | first inner span ih | second inner span ih | paren inner span ih =>
    simp only [layOut, List.forall_mem_append] at h
    exact ih h.1
  | merge entries span =>
    refine List.forall_mem_singleton.mpr (kept_mergeClause ?_)
    exact h _ (List.mem_singleton_self _) (.mergeOutput, mergeTargets entries)
      (by simp [Arrow.kindAt, NodeKind.sides])
  | wire entries span =>
    refine List.forall_mem_singleton.mpr (kept_wireClause ?_)
    exact h _ (List.mem_singleton_self _) (.wireOutput, wireTargets entries)
      (by simp [Arrow.kindAt, NodeKind.sides])
  | wirePair top bottom span =>
    have hsides := h _ (List.mem_singleton_self _)
    refine List.forall_mem_cons.mpr ⟨kept_wireClause ?_,
      List.forall_mem_singleton.mpr (kept_wireClause ?_)⟩
    · exact hsides (.pairTopOutput, wireTargets top) (by simp [Arrow.kindAt, NodeKind.sides])
    · exact hsides (.pairBottomOutput, wireTargets bottom) (by simp [Arrow.kindAt, NodeKind.sides])
  | split | use | failed => exact List.forall_mem_nil _

end Arrow

namespace Target

open Statement

section Placed

variable {text : String} {statements : List Statement} {depth : Nat}

theorem infix_laidOut {lines : List String} (h : text ∈ lines) :
    text.toList <:+: laidOut lines := by
  obtain ⟨before, behind, rfl⟩ := List.append_of_mem h
  refine ⟨laidOut before, '\n' :: laidOut behind, ?_⟩
  rw [laidOut_append, laidOut_cons, List.append_assoc]

theorem infix_bodyLines {s : Statement} (h : s ∈ statements) :
    laidOut (s.lines depth) <:+: laidOut (bodyLines depth statements) := by
  obtain ⟨before, behind, rfl⟩ := List.append_of_mem h
  refine ⟨laidOut (bodyLines depth before), laidOut (bodyLines depth behind), ?_⟩
  rw [bodyLines_append, bodyLines, laidOut_append, laidOut_append, List.append_assoc]

theorem infix_of_line (h : .line text ∈ statements) :
    text.toList <:+: laidOut (bodyLines depth statements) := by
  refine List.IsInfix.trans ?_ (infix_bodyLines h)
  rw [lines]
  exact (List.suffix_append _ _).isInfix.trans
    (String.toList_append .. ▸ infix_laidOut (List.mem_singleton_self _))

theorem infix_of_define {head : String} {body : List Statement}
    (h : .define head body ∈ statements) :
    laidOut (bodyLines (depth + 1) body) <:+: laidOut (bodyLines depth statements) := by
  refine List.IsInfix.trans ?_ (infix_bodyLines h)
  rw [lines, laidOut_cons]
  exact ((List.suffix_cons _ _).trans (List.suffix_append _ _)).isInfix

end Placed

namespace MappingClause

variable {c : MappingClause} {text : String}

theorem standsIn_code (c : MappingClause) : c.StandsIn c.code := List.infix_refl _

theorem StandsIn.append (h : c.StandsIn text) (behind : String) : c.StandsIn (text ++ behind) := by
  rw [StandsIn, String.toList_append]
  exact h.trans (List.prefix_append _ _).isInfix

theorem StandsIn.after (h : c.StandsIn text) (before : String) : c.StandsIn (before ++ text) := by
  rw [StandsIn, String.toList_append]
  exact h.trans (List.suffix_append _ _).isInfix

end MappingClause

open MappingClause

theorem standsIn_wireCode (entries : List Mapping) :
    (wireClause entries).StandsIn (wireCode entries) :=
  (standsIn_code _).append ")"

theorem standsIn_of_builds {steps : List ArrowStep} {v : ArrowValue}
    (h : ArrowProgram.Builds steps e v) :
    ∀ c ∈ e.clauses, ∃ step ∈ steps, c.StandsIn (stepCode step) := by
  induction h with
  | use | split => exact List.forall_mem_nil _
  | paren _ ih | first _ _ _ ih | second _ _ _ ih => exact ih
  | compose _ _ _ _ _ ihl ihr
  | pairUp _ _ _ _ _ ihl ihr | fanOut _ _ _ _ _ ihl ihr | choose _ _ _ _ _ ihl ihr =>
    exact List.forall_mem_append.mpr ⟨ihl, ihr⟩
  | merge hk =>
    exact List.forall_mem_singleton.mpr ⟨_, List.mem_of_getElem? hk, (standsIn_code _).append ")"⟩
  | wire hk =>
    exact List.forall_mem_singleton.mpr ⟨_, List.mem_of_getElem? hk, standsIn_wireCode _⟩
  | wirePair hk =>
    refine List.forall_mem_cons.mpr ⟨⟨_, List.mem_of_getElem? hk, ?_⟩,
      List.forall_mem_singleton.mpr ⟨_, List.mem_of_getElem? hk, ?_⟩⟩
    · exact ((standsIn_wireCode _).append " ** ").append _
    · exact (standsIn_wireCode _).after _

theorem standsIn_declarationLines (instrument : Bool) (line : Nat) (d : Declaration)
    (localName : String) :
    ∀ c ∈ d.clauses, ∃ l ∈ declarationLines instrument line d localName, c.StandsIn l := by
  refine List.forall_mem_cons.mpr ⟨⟨_, List.mem_cons_self, standsIn_code _⟩, ?_⟩
  intro c hc
  cases hempty : d.settings.isEmpty with
  | true =>
    rw [hempty] at hc
    cases hc
  | false =>
    rw [hempty, if_neg Bool.false_ne_true, List.mem_singleton] at hc
    subst hc
    refine ⟨stateLine d, List.mem_append_right _ ?_, ?_⟩
    · rw [hempty]
      exact List.mem_singleton_self _
    · exact (((((standsIn_code _).append _).append _).append _).append _).append _

section ArrowLines

variable {instrument : Bool} {lines : LineIndex} {ds : List Declaration} {program : ArrowProgram}
  {c : MappingClause}

theorem standsIn_of_step {step : ArrowStep} (hstep : step ∈ program.steps)
    (h : c.StandsIn (stepCode step)) (depth : Nat) :
    c.code.toList <:+: laidOut
      (bodyLines depth ((arrowLines instrument lines ds program).map CodeLine.statement)) := by
  obtain ⟨k, hk⟩ := List.mem_iff_getElem?.mp hstep
  have hmem : Statement.line (valueCode (.temporary k) ++ " = " ++ stepCode step) ∈
      stepStatements program.steps :=
    List.mem_map.mpr ⟨(step, k), List.mem_zipIdx_iff_getElem?.mpr hk, rfl⟩
  rw [← statement_stepCodes] at hmem
  refine List.IsInfix.trans (h.after (valueCode (.temporary k) ++ " = ")) (infix_of_line ?_)
  simp only [arrowLines, List.map_append, List.mem_append]
  exact .inl (.inr hmem)

theorem standsIn_of_declaration {d : Declaration} (hd : d ∈ ds) (hc : c ∈ d.clauses) (depth : Nat) :
    c.code.toList <:+: laidOut
      (bodyLines depth ((arrowLines instrument lines ds program).map CodeLine.statement)) := by
  obtain ⟨l, hl, hstands⟩ :=
    standsIn_declarationLines instrument (lines.lineOf d.span.start) d d.component.name c hc
  have hmem := List.mem_map_of_mem (f := Statement.line) hl
  rw [← statement_instanceCode] at hmem
  refine List.IsInfix.trans hstands (infix_of_line ?_)
  simp only [arrowLines, List.map_append, List.map_flatMap, List.mem_append]
  exact .inl (.inl (.inl (List.mem_flatMap.mpr ⟨d, hd, hmem⟩)))

end ArrowLines

theorem standsIn_leafBody (instrument : Bool) (leaf : LoweredLeaf) (depth : Nat) :
    (returnClause instrument leaf).code.toList <:+:
    laidOut (bodyLines depth (leafBody instrument leaf)) := by
  refine List.IsInfix.trans ?_ (infix_of_define List.mem_cons_self)
  refine infix_of_line ?_
  cases instrument with
  | true => simp [returnClause, MappingClause.code]
  | false => simp [returnClause, MappingClause.code]

theorem standsIn_interface {c : Component}
    (h : s.configuration.map ConfigurationEntry.name = c.configuration.map Ident.name) :
    (configureClause c).code.toList <:+: laidOut (bodyLines 0 (interfaceFunctions c s)) := by
  have hcode : laidOut (entryLines "configure" "args" (dictionary (configureClause c).literal)) =
      (configureClause c).code.toList ++ ['\n', '\n'] := by
    simp [entryLines, laidOut, headLine, MappingClause.code, configureClause]
  have hlast : (entries c s).getLast? =
      some ("configure", "args", dictionary (configureClause c).literal) := by
    simp [entries, configureClause, h, Function.comp_def]
  obtain ⟨init, hinit⟩ := List.getLast?_eq_some_iff.mp hlast
  rw [bodyLines_interface, hinit, List.flatMap_append, laidOut_append, List.flatMap_singleton,
    hcode]
  exact ⟨_, _, List.append_assoc _ _ _⟩

end Target

namespace Program

variable {source file : String} {p : Program} {registry : Registry} {files : FileTree}
  {o : CodeOptions}

theorem kept_of_clean (hp : (Parsed.ofSource source).program = some p)
    (hnil : (Parsed.ofSource source).findings = []) (hdef : p.component.definition = .arrow e)
    (hcode : (compile source file registry files o).code.isSome = true) :
    ∀ c ∈ e.clauses, c.Kept := by
  have hreports := isError_of_reports hp hnil hcode
  rw [reports, hdef] at hreports
  exact Arrow.kept_of_layOut
    (Arena.nodup_sides_of_infer (hreports _ (List.mem_cons_of_mem _ List.mem_cons_self)))

theorem exists_builds {body : Body} {lines : LineIndex} {instrument : Bool}
    {statements : List Statement} {log : List LogEvent} (hdef : p.component.definition = .arrow e)
    (hclean : (p.resolve file registry files).Clean)
    (hleaves : p.Leaves (p.resolve file registry files) s body)
    (h : initialiseBody p.component s body lines instrument = .ok (statements, log)) :
    ∃ program, ArrowProgram.Builds program.steps e program.result ∧
      statements = (arrowLines instrument lines p.component.declarations program).map
        CodeLine.statement := by
  cases hleaves with
  | leaf hdef' => cases hdef.symm.trans hdef'
  | arrow hdef' =>
    cases hdef.symm.trans hdef'
    simp only [initialiseBody, hdef] at h
    obtain ⟨⟨statements', n⟩, harrow, hok⟩ := exists_of_bind_eq_ok h
    cases hok
    obtain ⟨program, hprogram, hstatements⟩ := statements_of_arrowBody
      (fun d hd => exists_declaration? hdef hclean hd) rfl harrow
    have hprogram := (ArrowProgram.ofArena_congr (Arena.shape_nodes_typed _ e)).symm.trans hprogram
    have hdeclared : ∀ id ∈ e.components,
        (p.component.declarations.map fun d => d.name.name).contains id.name = true := by
      intro id hid
      obtain ⟨d, hd, hname⟩ := declared_of_components hdef hclean hid
      exact List.contains_iff_mem.mpr (List.mem_map.mpr ⟨d, hd, hname⟩)
    obtain ⟨program', hprogram', hbuilds⟩ :=
      ArrowProgram.exists_ofArena_ofArrow (ArrowProgram.intact_of_ofArena hprogram) hdeclared
    cases hprogram.symm.trans hprogram'
    exact ⟨program, hbuilds, hstatements⟩

theorem exists_lowered {body : DoBlock} {body' : Body} {lines : LineIndex} {instrument : Bool}
    {statements : List Statement} {log : List LogEvent}
    (hp : (Parsed.ofSource source).program = some p)
    (hnil : (Parsed.ofSource source).findings = []) (hdef : p.component.definition = .leaf body)
    (hclean : (p.resolve file registry files).Clean)
    (hleaves : p.Leaves (p.resolve file registry files) s body')
    (h : initialiseBody p.component s body' lines instrument = .ok (statements, log)) :
    ∃ leaf, body.lower (p.resolve file registry files).symbols.tables = .ok leaf ∧
      leaf.returns.map Prod.fst = body.returns.map (fun m => m.target.name) ∧
      statements = leafBody instrument leaf := by
  have hintact := Parsed.intact_of_clean hp hnil
  rw [hdef] at hintact
  obtain ⟨leaf, hlower, hlowers⟩ :=
    (bodyAgrees_of_clean hdef hintact.1 hintact.2 hclean).exists_lower
  refine ⟨leaf, hlower, by rw [hlowers.2, List.map_map]; rfl, ?_⟩
  cases hleaves with
  | arrow hdef' => cases hdef.symm.trans hdef'
  | leaf hdef' hlower' =>
    cases hdef.symm.trans hdef'
    cases hlower.symm.trans hlower'
    simp only [initialiseBody, hdef] at h
    cases h
    rfl

end Program

open Target in
/-- Where there is code, the dictionary of each clause stands in it. Wires, merges, returns and the
own configuration keep all of their mappings. The settings of an instance are kept if and only if
their names are different, and none of them is the key that the state before is kept under. -/
theorem mappings_kept_iff (source file text : String) (registry : Registry) (files : FileTree)
    (o : CodeOptions) (h : (compile source file registry files o).code = some text) :
    ∃ p, (Parsed.ofSource source).program = some p ∧
      ((configureClause p.component).StandsIn text ∧ (configureClause p.component).Kept) ∧
      (∀ e, p.component.definition = .arrow e →
        (∀ c ∈ e.clauses, c.StandsIn text ∧ c.Kept) ∧
        ∀ d ∈ p.component.declarations, (∀ c ∈ d.clauses, c.StandsIn text) ∧
          ((∀ c ∈ d.clauses, c.Kept) ↔
            (d.settings.map fun m => m.target.name).Nodup ∧
            "____prev_" ∉ d.settings.map fun m => m.target.name)) ∧
      ∀ body, p.component.definition = .leaf body →
        ∃ leaf, body.lower (p.resolve file registry files).symbols.tables = .ok leaf ∧
          leaf.returns.map Prod.fst = body.returns.map (fun m => m.target.name) ∧
          (returnClause o.instrument leaf).StandsIn text ∧
          (returnClause o.instrument leaf).Kept := by
  have hsome : (compile source file registry files o).code.isSome = true := by rw [h]; rfl
  obtain ⟨p, s, generated, code, hp, hnil, hclean, hleaves, hcode, rfl⟩ := exists_of_code h
  obtain ⟨statements, log, hstatements, htext⟩ := text_of_generate hcode
  have hkeys : s.configuration.map ConfigurationEntry.name =
      p.component.configuration.map Ident.name :=
    congrArg Prod.fst (hleaves.promise.trans (p.promise_resolve hclean))
  -- what stands in the body of the last function stands in the text
  have hbody : laidOut (Statement.bodyLines 1 statements) <:+: code.text.toList := by
    rw [htext]
    exact (infix_of_define List.mem_cons_self).trans (List.suffix_append _ _).isInfix
  refine ⟨p, hp, ⟨?_, kept_configureClause (Program.nodup_configuration hclean)⟩, fun e hdef => ?_,
    fun body hdef => ?_⟩
  · rw [MappingClause.StandsIn, htext, openingLines, laidOut_append]
    exact ((standsIn_interface hkeys).trans (List.suffix_append _ _).isInfix).trans
      (List.prefix_append _ _).isInfix
  · obtain ⟨program, hbuilds, rfl⟩ := Program.exists_builds hdef hclean hleaves hstatements
    refine ⟨fun c hc => ⟨?_, Program.kept_of_clean hp hnil hdef hsome c hc⟩,
      fun d hd => ⟨fun c hc => ?_, d.kept_clauses_iff⟩⟩
    · obtain ⟨step, hstep, hstands⟩ := standsIn_of_builds hbuilds c hc
      exact (standsIn_of_step hstep hstands 1).trans hbody
    · exact (standsIn_of_declaration hd hc 1).trans hbody
  · obtain ⟨leaf, hlower, hreturns, rfl⟩ :=
      Program.exists_lowered hp hnil hdef hclean hleaves hstatements
    exact ⟨leaf, hlower, hreturns, (standsIn_leafBody _ leaf 1).trans hbody,
      kept_returnClause (hreturns ▸ Program.nodup_returns hdef hclean)⟩

def mapping : String :=
  "import g as g component c inputs a outputs a configuration k declare d := new g with k -> k "
    ++ "as (d &&& d) >>> wire (a -> x, 1 -> _), (a -> y, 2 -> _) "
    ++ ">>> merge bottom[y] -> b, true -> z, top[x] -> a, 0 -> _ >>> wire a -> _, b -> a, z -> _"

open Target in
theorem mapping_kept :
    ∃ p e text, (compile mapping "c.pcl" oneSetting .empty ⟨false, "now", none⟩).code = some text ∧
      (Parsed.ofSource mapping).program = some p ∧ p.component.definition = .arrow e ∧
      e.clauses.map MappingClause.literal =
        [[("x", "a['a']")], [("y", "a['a']")], [("a", "t['x']"), ("b", "b['y']"), ("z", "True")],
          [("a", "a['b']")]] ∧
      p.component.declarations.map (fun d => d.clauses.map MappingClause.literal) =
        [[[("k", "config['k']")], [("k", "s['k']"), ("____prev_", "s")]]] ∧
      (∀ c ∈ e.clauses, c.StandsIn text ∧ c.Kept) ∧
      ∀ d ∈ p.component.declarations, ∀ c ∈ d.clauses, c.StandsIn text ∧ c.Kept := by
  have hcode : (compile mapping "c.pcl" oneSetting .empty ⟨false, "now", none⟩).code.isSome =
      true := by
    decide +kernel
  have hfacts : (Parsed.ofSource mapping).program.any (fun p =>
      p.component.definition.clauses.map MappingClause.literal =
        [[("x", "a['a']")], [("y", "a['a']")], [("a", "t['x']"), ("b", "b['y']"), ("z", "True")],
          [("a", "a['b']")]] ∧
      p.component.declarations.map (fun d => d.clauses.map MappingClause.literal) =
        [[[("k", "config['k']")], [("k", "s['k']"), ("____prev_", "s")]]] ∧
      p.component.declarations.map (fun d => d.settings.map fun m => m.target.name) =
      [["k"]]) = true := by
    decide +kernel
  obtain ⟨text, htext⟩ := Option.isSome_iff_exists.mp hcode
  obtain ⟨p, hp, -, harrow, -⟩ :=
    mappings_kept_iff mapping "c.pcl" text oneSetting .empty ⟨false, "now", none⟩ htext
  rw [hp, Option.any_some, decide_eq_true_iff] at hfacts
  obtain ⟨hclauses, hsettings, hnames⟩ := hfacts
  cases hdef : p.component.definition with
  | leaf body =>
    rw [hdef] at hclauses
    cases hclauses
  | arrow e =>
    obtain ⟨hkept, hdeclared⟩ := harrow e hdef
    rw [hdef] at hclauses
    refine ⟨p, e, text, htext, hp, hdef, hclauses, hsettings, hkept, fun d hd c hc => ?_⟩
    obtain ⟨hstands, hiff⟩ := hdeclared d hd
    have hd : (d.settings.map fun m => m.target.name) ∈ [["k"]] := hnames ▸ List.mem_map_of_mem hd
    refine ⟨hstands c hc, hiff.mpr ?_ c hc⟩
    rw [List.mem_singleton.mp hd]
    decide

def repeatedSetting : String :=
  "import g as g component c inputs a outputs a configuration k, l "
    ++ "declare d := new g with k -> k, l -> k as d"

open Target in
theorem repeatedSetting_not_kept :
    (compile repeatedSetting "c.pcl" oneSetting .empty ⟨false, "now", none⟩).findings = [] ∧
      (compile repeatedSetting "c.pcl" oneSetting .empty ⟨false, "now", none⟩).code.isSome = true ∧
      ∃ p d, (Parsed.ofSource repeatedSetting).program = some p ∧ p.component.declarations = [d] ∧
        d.clauses.map MappingClause.asked =
          [[("k", "config['k']"), ("k", "config['l']")], [("k", "s['k']"), ("k", "s['l']")]] ∧
        d.clauses.map (fun c => held? c.literal "k") = [some "config['l']", some "s['l']"] ∧
        ∀ c ∈ d.clauses, ¬ c.Kept := by
  have hcompiled : (compile repeatedSetting "c.pcl" oneSetting .empty ⟨false, "now",
      none⟩).findings = [] ∧
      (compile repeatedSetting "c.pcl" oneSetting .empty ⟨false, "now", none⟩).code.isSome =
      true := by
    decide +kernel
  have hfacts : (Parsed.ofSource repeatedSetting).program.any
      (fun p => p.component.declarations.length = 1 ∧ ∀ d ∈ p.component.declarations,
        d.clauses.map MappingClause.asked =
          [[("k", "config['k']"), ("k", "config['l']")], [("k", "s['k']"), ("k", "s['l']")]] ∧
        d.clauses.map (fun c => held? c.literal "k") = [some "config['l']", some "s['l']"] ∧
        d.clauses.map (fun c => c.literal.map Prod.fst) =
        [["k", "k"], ["k", "k", "____prev_"]]) = true := by
    decide +kernel
  obtain ⟨p, hp, hfacts⟩ := (Option.any_eq_true _ _).mp hfacts
  obtain ⟨hone, hall⟩ := of_decide_eq_true hfacts
  obtain ⟨d, hd⟩ := List.length_eq_one_iff.mp hone
  obtain ⟨hasked, hheld, hkeys⟩ := hall d (hd ▸ List.mem_singleton_self d)
  refine ⟨hcompiled.1, hcompiled.2, p, d, hp, hd, hasked, hheld, fun c hc hkept => ?_⟩
  have hc : c.literal.map Prod.fst ∈ [["k", "k"], ["k", "k", "____prev_"]] :=
    hkeys ▸ List.mem_map_of_mem hc
  have hnodup := hkept.nodup
  revert hc hnodup
  generalize c.literal.map Prod.fst = keys
  simp only [List.mem_cons, List.not_mem_nil, or_false]
  rintro (rfl | rfl) <;> decide

end PipelineLang
