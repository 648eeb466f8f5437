import PipelineLang.Proofs.Grammar.Source
import PipelineLang.Proofs.Symbols.Header
import PipelineLang.Proofs.Symbols.Leaf

/-!
What a resolution without errors says of a leaf body. The inputs and states that are read are
declared ones, and every output is returned exactly once.
-/

namespace PipelineLang

variable {ref : Reference} {id : Ident}

/-- What may be recorded of an operand: as an input only a declared input, as a state only a
declared state. -/
def Operand.Warrants (inputs : SignalClause) (states : List String) : Operand → Reference → Prop
  | .ident id, .input => inputs.contains id.name = true
  | .ident _, .bound _ => True
  | .state id, .state => id.name ∈ states
  | .literal _, .literal => True
  | _, _ => False

namespace Resolution

variable {c : Component} {operands : List Operand} {r r' : Resolution}

/-- All that is recorded is what one of the operands warrants at its place. -/
def Warranted (c : Component) (operands : List Operand) (r : Resolution) : Prop :=
  ∀ span ref, r.tables.references.get? span = some ref →
    ∃ operand ∈ operands, operand.span = span ∧ operand.Warrants c.inputs r.symbols.promise.1 ref

theorem Keeps.promise (h : r.Keeps r') : r'.symbols.promise = r.symbols.promise :=
  congrArg Prod.fst h.frame

theorem Warranted.keep (h : Warranted c operands r) (hkeeps : r.Keeps r')
    (href : r'.tables.references = r.tables.references) : Warranted c operands r' := by
  intro span ref hget
  rw [hkeeps.promise]
  exact h span ref (href ▸ hget)

theorem Warranted.refer (h : Warranted c operands r) {operand : Operand} (ho : operand ∈ operands)
    (hw : operand.Warrants c.inputs r.symbols.promise.1 ref) :
    Warranted c operands (r.refer operand.span ref) := by
  intro span ref' hget
  have hinsert : (r.refer operand.span ref).tables.references =
      r.tables.references.insert operand.span ref := rfl
  rw [hinsert, Table.get?_insert] at hget
  split at hget
  · rename_i hspan
    cases hget
    exact ⟨operand, ho, hspan.symm, hw⟩
  · exact h span ref' hget

theorem warrants_of_meaning? (h : r.meaning? c id.name = some ref)
    (states : List String) : (Operand.ident id).Warrants c.inputs states ref := by
  unfold meaning? at h
  split at h
  · cases h
    trivial
  · split at h
    · cases h
      assumption
    · cases h

theorem Warranted.readName (h : Warranted c operands r) (ho : .ident id ∈ operands)
    (unknown : Problem) :
    Warranted c operands (readName c r id unknown) := by
  unfold Resolution.readName
  split
  · rename_i ref href
    exact h.refer ho (warrants_of_meaning? href _)
  · exact h.keep ((Keeps.refl r).report _ _) rfl

theorem Warranted.readState (h : Warranted c operands r) (ho : .state id ∈ operands)
    (unknown : Problem) :
    Warranted c operands (r.readState id unknown) := by
  unfold Resolution.readState
  split
  · rename_i hknown
    have hmem : id.name ∈ r.symbols.promise.1 := by
      simpa [Symbols.hasConfiguration, Symbols.promise] using hknown
    have hkeeps : r.Keeps { r with symbols := r.symbols.useConfiguration id.name } :=
      (Keeps.refl r).symbols (Symbols.frame_useConfiguration r.symbols id.name)
    refine (h.keep hkeeps rfl).refer ho ?_
    rw [hkeeps.promise]
    exact hmem
  · exact h.keep ((Keeps.refl r).report _ _) rfl

theorem Warranted.readOperand (h : Warranted c operands r) {operand : Operand}
    (ho : operand ∈ operands) (unknownState unknownName : Ident → Problem) :
    Warranted c operands (readOperand c unknownState unknownName r operand) := by
  cases operand with
  | ident id => exact h.readName ho _
  | state id => exact h.readState ho _
  | literal lit => exact h.refer ho trivial

theorem Warranted.readOperands (h : Warranted c operands r) {read : List Operand}
    (ho : read ⊆ operands) (unknownState unknownName : Ident → Problem) :
    Warranted c operands (read.foldl (Resolution.readOperand c unknownState unknownName) r) :=
  List.foldlRecOn read _ h fun _ hr _ hoperand => hr.readOperand (ho hoperand) _ _

theorem Warranted.assign (h : Warranted c operands r) (id : Ident) :
    Warranted c operands (assign c r id) := by
  refine h.keep (passes_assign r id).keeps ?_
  unfold Resolution.assign
  dsimp only
  split <;> simp [tables, withTables, report]

theorem Warranted.assignTarget (h : Warranted c operands r) (target : Option Ident) :
    Warranted c operands (assignTarget c target r) := by
  cases target with
  | none => exact h
  | some id => exact h.assign id

theorem Warranted.resolveCall (h : Warranted c operands r) {call : Call}
    (ho : call.arguments ⊆ operands) :
    Warranted c operands (resolveCall c r call) := by
  have hcallee : r.Keeps ({ r with symbols := r.symbols.useImport call.package.name }.reportAll
      (calleeFinding? r.symbols call).toList) :=
    ((Keeps.refl r).symbols (Symbols.frame_useImport r.symbols _)).reportAll _
  exact (h.keep hcallee rfl).readOperands ho _ _

theorem Warranted.resolveBranchResult (h : Warranted c operands r) {result : BranchResult}
    (ho : result.operands ⊆ operands) : Warranted c operands (resolveBranchResult c r result) := by
  unfold Resolution.resolveBranchResult
  split
  · exact h
  · split
    · exact h.keep ((Keeps.refl r).report _ _) rfl
    · exact h.readName (ho List.mem_cons_self) _
  · exact h.readOperand (ho List.mem_cons_self) _ _

theorem Warranted.resolveLetBindings (h : Warranted c operands r) {bindings : List LetBinding}
    (ho : bindings.flatMap (fun b => b.call.arguments) ⊆ operands) :
    Warranted c operands (bindings.foldl (resolveLetBinding c) r) := by
  refine List.foldlRecOn bindings _ h fun r hr b hb => ?_
  have hcall : b.call.arguments ⊆ operands := fun o hmem => ho (List.mem_flatMap.mpr ⟨b, hb, hmem⟩)
  exact (hr.resolveCall hcall).assign b.target

theorem warranted_resolveCommands :
    (∀ command : Command, command.operands ⊆ operands → ∀ r, Warranted c operands r →
      Warranted c operands (resolveCommand c command r)) ∧
    (∀ block : Block, block.operands ⊆ operands → ∀ r, Warranted c operands r →
      Warranted c operands (resolveBlock c block r)) ∧
    ∀ commands, operandsOf commands ⊆ operands → ∀ r, Warranted c operands r →
      Warranted c operands (resolveCommands c commands r) := by
  have henter : ∀ {r : Resolution} (span : Span), Warranted c operands r →
      Warranted c operands (r.enterCommand span) :=
    fun span h => h.keep (keeps_enterCommand _ span) rfl
  have hpush : ∀ {r : Resolution}, Warranted c operands r → Warranted c operands r.pushFrame :=
    fun h => h.keep (keeps_pushFrame _) rfl
  have hpop : ∀ {r : Resolution}, Warranted c operands r → Warranted c operands r.popFrame :=
    fun h => h.keep (keeps_popFrame _) rfl
  refine Command.induct ?call ?letIn ?branch ?failed ?block ?nil ?cons
  case call =>
    intro target call span ho r h
    rw [resolveCommand]
    exact ((henter span h).resolveCall ho).assignTarget target
  case letIn =>
    intro target bindings body span ho r h
    obtain ⟨hbindings, hbody⟩ := List.append_subset.mp ho
    rw [resolveCommand]
    exact (hpop (((hpush (henter span h)).resolveLetBindings hbindings).resolveCall
      hbody)).assignTarget target
  case branch =>
    intro target condition onTrue onFalse span iht ihf ho r h
    obtain ⟨hcondition, hblocks⟩ := List.append_subset.mp ho
    obtain ⟨htrue, hfalse⟩ := List.append_subset.mp hblocks
    have hread := (henter span h).readOperands hcondition (fun id => .conditionState id.name)
      fun id => .unknownConditionVariable id.name
    have hafter := hpop (iht htrue _ (hpush hread))
    rw [resolveCommand, resolveCondition, Condition.terminals_eq]
    exact (hpop (ihf hfalse _ (hpush hafter))).assignTarget target
  case failed =>
    intro span _ r h
    rw [resolveCommand]
    exact henter span h
  case block =>
    intro commands result span ih ho r h
    obtain ⟨hcommands, hresult⟩ := List.append_subset.mp ho
    rw [resolveBlock]
    exact (ih hcommands r h).resolveBranchResult hresult
  case nil =>
    intro _ r h
    rw [resolveCommands]
    exact h
  case cons =>
    intro command commands ihc ihs ho r h
    obtain ⟨hcommand, hcommands⟩ := List.append_subset.mp ho
    rw [resolveCommands]
    exact ihs hcommands _ (ihc hcommand r h)

theorem Warranted.resolveReturns (h : Warranted c operands r) (seen : List String)
    {returns : List ReturnMapping} (ho : returns.map ReturnMapping.source ⊆ operands) :
    Warranted c operands (resolveReturns c seen returns r) := by
  induction returns generalizing r seen with
  | nil => exact h
  | cons m returns ih =>
    obtain ⟨hsource, hrest⟩ := List.cons_subset.mp ho
    have hreport := h.keep ((Keeps.refl r).reportIf (!c.outputs.contains m.target.name &&
      !seen.contains m.target.name)
      m.target.span (.unknownReturn m.target.name)) (by rw [tables_reportIf])
    exact ih (hreport.readOperand hsource _ _) _ hrest

theorem warranted_resolveLeaf {body : DoBlock} (h : Warranted c body.operands r) :
    Warranted c body.operands (r.resolveLeaf c body) := by
  obtain ⟨hcommands, hreturns⟩ := List.append_subset.mp (List.Subset.refl body.operands)
  have hafter := warranted_resolveCommands.2.2 body.commands hcommands r h
  have hchecked : Warranted c body.operands
      (checkReturns c body (resolveCommands c body.commands r)) :=
    hafter.keep (((Keeps.refl _).reportAll _).reportAll _) rfl
  exact hchecked.resolveReturns [] hreturns

theorem outputs_of_resolveReturns {returns : List ReturnMapping}
    (h : (resolveReturns c [] returns r).Clean) :
    ∀ m ∈ returns, c.outputs.contains m.target.name = true := by
  induction returns generalizing r with
  | nil => exact List.forall_mem_nil _
  | cons m returns ih =>
    rw [resolveReturns] at h
    have hread := (passes_readOperand (fun _ => rfl) (fun _ => rfl) _ m.source).keeps.clean
      ((passes_resolveReturns _ _ _).keeps.clean h)
    have hknown : c.outputs.contains m.target.name = true := by
      by_contra hforeign
      have hwrong := (clean_reportIf.mp hread).2
      simp [hforeign, Problem.isError] at hwrong
    simp only [hknown, Bool.not_true, Bool.false_eq_true, if_false] at h
    exact List.forall_mem_cons.mpr ⟨hknown, ih h⟩

section CheckReturns

variable {body : DoBlock} (h : (checkReturns c body r).Clean)
include h

theorem nodup_of_checkReturns : (body.returns.map fun m => m.target.name).Nodup := by
  rw [checkReturns, clean_reportAll, clean_reportAll] at h
  have hnodup := nodup_of_duplicates (fun _ => rfl) h.1.2
  rwa [List.map_map] at hnodup

theorem returned_of_checkReturns :
    ∀ output ∈ c.outputs.names, ∃ m ∈ body.returns, m.target.name = output.name := by
  rw [checkReturns, clean_reportAll, clean_reportAll] at h
  intro output houtput
  by_contra hmissing
  have hwrong := h.2 ⟨body.returnSpan, .missingReturn output.name⟩
    (List.mem_map_of_mem (List.mem_filter.mpr ⟨houtput, by simpa using hmissing⟩))
  cases hwrong

end CheckReturns

theorem nodup_outputs_of_checkHeader {file : String} (hleaf : c.isLeaf = true)
    (h : (r.checkHeader c file).Clean) :
    (c.outputs.names.map Ident.name).Nodup := by
  have hclean := clean_checkedHeader h
  simp only [checkedHeader, clean_reportAll, clean_reportIf] at hclean
  obtain ⟨⟨⟨⟨-, hpair⟩, -⟩, houtputs⟩, -⟩ := hclean
  cases hclause : c.outputs with
  | flat names =>
    rw [hclause] at houtputs
    exact nodup_of_duplicateFindings houtputs
  | pair top bottom => simp [hleaf, hclause, isPairClause, Problem.isError] at hpair

end Resolution

namespace Program

variable {p : Program} {file : String} {registry : Registry} {files : FileTree} {body : DoBlock}
  (hdef : p.component.definition = .leaf body)
include hdef

theorem warranted_resolve :
    (p.resolve file registry files).Warranted p.component body.operands := by
  have htables : (p.declared file registry files).tables = .empty :=
    congrArg (fun header => header.2.2) (header_declared p file registry files)
  have hstart : (p.declared file registry files).Warranted p.component body.operands := by
    intro span ref hget
    rw [htables] at hget
    cases hget
  rw [resolve_leaf hdef]
  exact (Resolution.warranted_resolveLeaf hstart).keep (Resolution.keeps_reportUnused _) rfl

variable (hclean : (p.resolve file registry files).Clean)
include hclean

theorem warrants_of_reference (hnodup : body.marks.Nodup) {operand : Operand}
    (ho : operand ∈ body.operands)
    (hget : (p.resolve file registry files).symbols.tables.references.get? operand.span =
      some ref) :
    operand.Warrants p.component.inputs (p.component.configuration.map Ident.name) ref := by
  obtain ⟨operand', ho', hspan, hwarrants⟩ := warranted_resolve hdef operand.span ref hget
  obtain rfl : operand' = operand :=
    List.inj_on_of_nodup_map (DoBlock.nodup_operands hnodup) ho' ho hspan
  rwa [promise_resolve hclean] at hwarrants

theorem nodup_outputs : (p.component.outputs.names.map Ident.name).Nodup := by
  have hleaf : p.component.isLeaf = true := by rw [Component.isLeaf, hdef]
  exact Resolution.nodup_outputs_of_checkHeader hleaf
    ((p.keeps_resolve file registry files).clean hclean)

theorem returns_perm_outputs :
    (body.returns.map fun m => m.target.name).Perm (p.component.outputs.names.map Ident.name) := by
  have houtputs := nodup_outputs hdef hclean
  rw [resolve_leaf hdef] at hclean
  have hreturns := Resolution.clean_reportUnused.mp hclean
  have hknown := Resolution.outputs_of_resolveReturns hreturns
  have hchecked := (Resolution.passes_resolveReturns _ _ _).keeps.clean hreturns
  rw [List.perm_ext_iff_of_nodup (Resolution.nodup_of_checkReturns hchecked) houtputs]
  intro x
  constructor
  · intro hx
    obtain ⟨m, hm, rfl⟩ := List.mem_map.mp hx
    simpa [SignalClause.contains] using hknown m hm
  · intro hx
    obtain ⟨output, houtput, rfl⟩ := List.mem_map.mp hx
    obtain ⟨m, hm, hname⟩ := Resolution.returned_of_checkReturns hchecked output houtput
    exact List.mem_map.mpr ⟨m, hm, hname⟩

theorem nodup_returns : (body.returns.map fun m => m.target.name).Nodup :=
  (returns_perm_outputs hdef hclean).nodup_iff.mpr (nodup_outputs hdef hclean)

end Program

end PipelineLang
