import PipelineLang.Proofs.Symbols.Header

/-! Where no error is found, what a program calls or declares has been imported by it. -/

namespace PipelineLang

theorem Symbols.mem_importNames {s : Symbols} {name : String} {i : ImportEntry}
    (h : s.import? name = some i) :
    name ∈ s.importNames :=
  List.mem_map.mpr ⟨i, List.mem_of_find?_eq_some h, by simpa using List.find?_some h⟩

namespace Resolution

variable {r r' : Resolution} {c : Component}

theorem importNames_addImport (registry : Registry) (files : FileTree) (isLeaf : Bool)
    (r : Resolution) (i : Import) :
    (r.addImport registry files isLeaf i).symbols.importNames ⊆
    r.symbols.importNames ++ [i.localName.name] := by
  simp only [addImport]
  split
  · exact List.subset_append_left _ _
  · simp [Symbols.importNames]

theorem importNames_addImports (registry : Registry) (files : FileTree) (isLeaf : Bool)
    (imports : List Import) (r : Resolution) :
    (imports.foldl (addImport registry files isLeaf) r).symbols.importNames
      ⊆ r.symbols.importNames ++ imports.map fun i => i.localName.name := by
  induction imports generalizing r with
  | nil => simp
  | cons i imports ih =>
    intro name hname
    have hadd := importNames_addImport registry files isLeaf r i
    rcases List.mem_append.mp (ih _ hname) with hname | hname
    · have hname := hadd hname
      simp only [List.mem_append, List.mem_singleton] at hname
      simp only [List.map_cons, List.mem_append, List.mem_cons]
      exact hname.imp_right .inl
    · simp [hname]

theorem imports_checkHeader (c : Component) (file : String) (r : Resolution) :
    (r.checkHeader c file).symbols.imports = r.symbols.imports := by
  have hadd := foldl_keeps (f := addConfiguration) (fun r => r.symbols.imports)
    (fun r id => by unfold addConfiguration; split <;> rfl) c.configuration
  unfold checkHeader
  dsimp only
  split <;> simp [hadd]

theorem importNames_checkHeader (c : Component) (file : String) (r : Resolution) :
    (r.checkHeader c file).symbols.importNames = r.symbols.importNames :=
  congrArg (List.map ImportEntry.localName) (imports_checkHeader c file r)

theorem Keeps.importNames (h : r.Keeps r') : r'.symbols.importNames = r.symbols.importNames := by
  have hnames : ∀ s : Symbols, s.unmarked.imports.map ImportEntry.localName = s.importNames := by
    intro s
    rw [Symbols.unmarked, List.map_map]
    rfl
  rw [← hnames, ← hnames]
  exact congrArg (fun frame => frame.2.map ImportEntry.localName) h.frame

theorem calleeFinding?_of_keeps (h : r.Keeps r') (call : Call) :
    calleeFinding? r'.symbols call = calleeFinding? r.symbols call := by
  have hunmarked : ∀ s : Symbols, calleeFinding? s.unmarked call = calleeFinding? s call := by
    intro s
    rw [calleeFinding?, calleeFinding?, Symbols.import?_unmarked]
    cases s.import? call.package.name <;> rfl
  have himports : r'.symbols.unmarked.imports = r.symbols.unmarked.imports :=
    congrArg Prod.snd h.frame
  rw [← hunmarked, ← hunmarked r.symbols]
  simp only [calleeFinding?, Symbols.import?, himports]

theorem isError_of_calleeFinding? {s : Symbols} {call : Call} {f : Finding}
    (h : calleeFinding? s call = some f) :
    f.isError = true := by
  have harity : ∀ {signature : FunctionSignature} {problem : Problem},
      arityProblem? call signature = some problem → problem.isError = true := by
    intro signature problem hproblem
    unfold arityProblem? at hproblem
    dsimp only at hproblem
    split at hproblem <;> split at hproblem <;> cases hproblem <;> rfl
  unfold calleeFinding? at h
  split at h
  · cases h
    rfl
  · dsimp only at h
    split at h
    · cases h
      rfl
    · obtain ⟨problem, hproblem, rfl⟩ := Option.map_eq_some_iff.mp h
      exact harity hproblem

theorem calleeFinding?_of_resolveCall {call : Call} (h : (resolveCall c r call).Clean) :
    calleeFinding? r.symbols call = none := by
  have hkeeps : ({ r with symbols := r.symbols.useImport call.package.name }.reportAll
      (calleeFinding? r.symbols call).toList).Keeps (resolveCall c r call) :=
    (passes_readOperands (fun _ => rfl) (fun _ => rfl) call.arguments _).keeps
  have hfindings := (clean_reportAll.mp (hkeeps.clean h)).2
  cases hcallee : calleeFinding? r.symbols call with
  | none => rfl
  | some f =>
    have hfine : f.isError = false := hfindings f (by simp [hcallee])
    rw [isError_of_calleeFinding? hcallee] at hfine
    cases hfine

theorem calleeFinding?_of_resolveLetBindings {bindings : List LetBinding}
    (h : (bindings.foldl (resolveLetBinding c) r).Clean) :
    ∀ b ∈ bindings, calleeFinding? r.symbols b.call = none := by
  induction bindings generalizing r with
  | nil => exact List.forall_mem_nil _
  | cons b bindings ih =>
    have hrest : (resolveLetBinding c r b).Keeps
        (bindings.foldl (resolveLetBinding c) (resolveLetBinding c r b)) :=
      (passes_resolveLetBindings bindings _).keeps
    refine List.forall_mem_cons.mpr ⟨?_, fun b' hb' => ?_⟩
    · exact calleeFinding?_of_resolveCall ((passes_assign _ b.target).keeps.clean (hrest.clean h))
    · rw [← calleeFinding?_of_keeps (passes_resolveLetBinding r b).keeps]
      exact ih h b' hb'

theorem calleeFinding?_of_resolveCommands :
    (∀ command r, (resolveCommand c command r).Clean →
      ∀ call ∈ command.calls, calleeFinding? r.symbols call = none) ∧
    (∀ block r, (resolveBlock c block r).Clean →
      ∀ call ∈ block.calls, calleeFinding? r.symbols call = none) ∧
    ∀ commands r, (resolveCommands c commands r).Clean →
      ∀ call ∈ callsOf commands, calleeFinding? r.symbols call = none := by
  refine Command.induct ?call ?letIn ?branch ?failed ?block ?nil ?cons
  case call =>
    intro target call span r h
    rw [resolveCommand] at h
    have hcall := calleeFinding?_of_resolveCall ((passes_assignTarget target _).keeps.clean h)
    exact List.forall_mem_singleton.mpr hcall
  case letIn =>
    intro target bindings body span r h
    rw [resolveCommand] at h
    have hbody := (keeps_popFrame _).clean ((passes_assignTarget target _).keeps.clean h)
    have hbindings := calleeFinding?_of_resolveLetBindings
      ((passes_resolveCall _ body).keeps.clean hbody)
    have hkeeps : r.Keeps (bindings.foldl (resolveLetBinding c) (r.enterCommand span).pushFrame) :=
      ((keeps_enterCommand r span).trans (keeps_pushFrame _)).trans
        (passes_resolveLetBindings bindings _).keeps
    refine List.forall_mem_append.mpr ⟨List.forall_mem_map.mpr hbindings,
      List.forall_mem_singleton.mpr ?_⟩
    rw [← calleeFinding?_of_keeps hkeeps]
    exact calleeFinding?_of_resolveCall hbody
  case branch =>
    intro target condition onTrue onFalse span iht ihf r h
    rw [resolveCommand] at h
    have hfalse := (keeps_popFrame _).clean ((passes_assignTarget target _).keeps.clean h)
    have htrue := (keeps_popFrame _).clean ((keeps_pushFrame _).clean
      ((passes_resolveCommands.2.1 onFalse _).keeps.clean hfalse))
    have hcondition : r.Keeps (resolveCondition c (r.enterCommand span) condition) :=
      (keeps_enterCommand r span).trans (passes_resolveCondition _ condition).keeps
    have hbefore := hcondition.trans (keeps_pushFrame _)
    have hbranch := hbefore.trans ((passes_resolveCommands (c := c)).2.1 onTrue _).keeps
    have hbetween := (hbranch.trans (keeps_popFrame _)).trans (keeps_pushFrame _)
    refine List.forall_mem_append.mpr ⟨fun call hcall => ?_, fun call hcall => ?_⟩
    · rw [← calleeFinding?_of_keeps hbefore]
      exact iht _ htrue call hcall
    · rw [← calleeFinding?_of_keeps hbetween]
      exact ihf _ hfalse call hcall
  case failed => exact fun span r _ => List.forall_mem_nil _
  case block =>
    intro commands result span ih r h
    rw [resolveBlock] at h
    exact ih r ((passes_resolveBranchResult _ result).keeps.clean h)
  case nil => exact fun r _ => List.forall_mem_nil _
  case cons =>
    intro command commands ihc ihs r h
    rw [resolveCommands] at h
    have hfirst := (passes_resolveCommands.2.2 commands _).keeps.clean h
    refine List.forall_mem_append.mpr ⟨ihc r hfirst, fun call hcall => ?_⟩
    rw [← calleeFinding?_of_keeps (passes_resolveCommands.1 command r).keeps]
    exact ihs _ h call hcall

theorem exists_of_calleeFinding?_eq_none {s : Symbols} {call : Call}
    (h : calleeFinding? s call = none) :
    ∃ entry functions f, s.import? call.package.name = some entry ∧ entry.kind = .package functions
      ∧ functions.get? call.function.name = some f ∧ arityProblem? call f = none := by
  unfold calleeFinding? at h
  split at h
  · cases h
  · rename_i entry hentry
    cases hkind : entry.kind with
    | component signature => simp [hkind] at h
    | package functions =>
      simp only [hkind] at h
      cases hf : functions.get? call.function.name with
      | none => simp [hf] at h
      | some f =>
        simp only [hf, Option.map_eq_none_iff] at h
        exact ⟨entry, functions, f, hentry, hkind, hf, h⟩

end Resolution

namespace Program

variable {p : Program} {file : String} {registry : Registry} {files : FileTree}

theorem exists_import {name : String}
    (h : name ∈ (p.resolve file registry files).symbols.importNames) :
    ∃ i ∈ p.imports, i.localName.name = name := by
  rw [(p.keeps_resolve file registry files).importNames, Resolution.importNames_checkHeader] at h
  have hmem := Resolution.importNames_addImports registry files p.component.isLeaf p.imports
    (.start p.component) h
  simpa [Resolution.start, Symbols.importNames] using hmem

theorem calleeFinding?_of_clean {body : DoBlock} (hdef : p.component.definition = .leaf body)
    (hclean : (p.resolve file registry files).Clean) :
    ∀ call ∈ callsOf body.commands,
    Resolution.calleeFinding? (p.resolve file registry files).symbols call = none := by
  rw [resolve_leaf hdef] at hclean
  have hleaf := Resolution.clean_reportUnused.mp hclean
  have hcommands := (Resolution.passes_resolveReturns _ _ _).keeps.clean hleaf
  rw [Resolution.checkReturns, Resolution.clean_reportAll, Resolution.clean_reportAll] at hcommands
  have hkeeps : (p.declared file registry files).Keeps (p.resolve file registry files) := by
    rw [resolve_leaf hdef]
    exact (Resolution.passes_resolveLeaf body _).keeps.trans (Resolution.keeps_reportUnused _)
  intro call hcall
  rw [Resolution.calleeFinding?_of_keeps hkeeps]
  exact Resolution.calleeFinding?_of_resolveCommands.2.2 _ _ hcommands.1.1 call hcall

theorem imported_of_clean {body : DoBlock} (hdef : p.component.definition = .leaf body)
    (hclean : (p.resolve file registry files).Clean) :
    ∀ call ∈ callsOf body.commands, ∃ i ∈ p.imports, i.localName.name = call.package.name := by
  intro call hcall
  have hcallee := calleeFinding?_of_clean hdef hclean call hcall
  obtain ⟨entry, -, -, hentry, -⟩ := Resolution.exists_of_calleeFinding?_eq_none hcallee
  exact exists_import (Symbols.mem_importNames hentry)

end Program

end PipelineLang
