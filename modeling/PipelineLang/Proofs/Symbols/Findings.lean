import PipelineLang.Proofs.Symbols.Usage

/-! All that a resolution reports are problems of the program, and only headers and declarations
report repeated names. -/

namespace PipelineLang

theorem Problem.code_ne_of_tellsDuplicate {problem : Problem} (h : problem.tellsDuplicate = false) :
    problem.code ≠ "E0101" := by
  cases problem <;> simp [tellsDuplicate, code] at h ⊢

namespace Resolution

/-- All that was reported are problems of the program. -/
structure OfProgram (r : Resolution) : Prop where
  findings : ∀ f ∈ r.findings, f.problem.ofProgram = true

/-- The step reports plain problems, behind what was reported before. -/
def Adds (r r' : Resolution) : Prop :=
  ∃ new, r'.findings = r.findings ++ new ∧ ∀ f ∈ new, f.problem.isPlain = true

variable {r r' r'' : Resolution}

theorem OfProgram.reportAll (h : r.OfProgram) {findings : List Finding}
    (hf : ∀ f ∈ findings, f.problem.ofProgram = true) : (r.reportAll findings).OfProgram :=
  ⟨List.forall_mem_append.mpr ⟨h.findings, hf⟩⟩

namespace Adds

theorem refl (r : Resolution) : r.Adds r := ⟨[], (List.append_nil _).symm, List.forall_mem_nil _⟩

theorem trans (h : r.Adds r') (h' : r'.Adds r'') : r.Adds r'' := by
  obtain ⟨new, hnew, hplain⟩ := h
  obtain ⟨new', hnew', hplain'⟩ := h'
  exact ⟨new ++ new', by rw [hnew', hnew, List.append_assoc], List.forall_mem_append.mpr ⟨hplain,
    hplain'⟩⟩

theorem congr (h : r.Adds r') (heq : r''.findings = r'.findings) : r.Adds r'' := by
  obtain ⟨new, hnew, hplain⟩ := h
  exact ⟨new, heq.trans hnew, hplain⟩

theorem reportAll (h : r.Adds r') {findings : List Finding}
    (hf : ∀ f ∈ findings, f.problem.isPlain = true) :
    r.Adds (r'.reportAll findings) :=
  h.trans ⟨findings, rfl, hf⟩

theorem foldl {α : Type} {f : Resolution → α → Resolution} (h : r.Adds r')
    (hstep : ∀ (r : Resolution) x, r.Adds (f r x)) (xs : List α) : r.Adds (xs.foldl f r') := by
  induction xs generalizing r' with
  | nil => exact h
  | cons x xs ih => exact ih (h.trans (hstep r' x))

theorem ofProgram (h : r.Adds r') (hr : r.OfProgram) : r'.OfProgram := by
  obtain ⟨new, hnew, hplain⟩ := h
  refine ⟨hnew ▸ List.forall_mem_append.mpr ⟨hr.findings, fun f hf => ?_⟩⟩
  exact (Problem.isPlain_iff.mp (hplain f hf)).1

end Adds

theorem Passes.adds {names : Entity → List String} (h : Passes names r r') : r.Adds r' := by
  induction h with
  | refl | absent | tables | useImport | useDeclaration | useConfiguration => exact .refl _
  | trans _ _ ih ih' => exact ih.trans ih'
  | reports r hf => exact (Adds.refl r).reportAll hf

theorem adds_addImport (registry : Registry) (files : FileTree) (isLeaf : Bool) (r : Resolution)
    (i : Import) :
    r.Adds (r.addImport registry files isLeaf i) := by
  have hpackage : ∀ result, ∀ p ∈ (packageImport i.path.name result).2, p.isPlain = true := by
    intro result
    cases result with
    | error e => exact List.forall_mem_singleton.mpr rfl
    | ok package => exact List.forall_mem_map.mpr fun _ _ => rfl
  have hcomponent : ∀ result, ∀ p ∈ (componentImport i.path.name result).2, p.isPlain = true := by
    intro result
    cases result with
    | error e => exact List.forall_mem_singleton.mpr rfl
    | ok signature => exact List.forall_mem_map.mpr fun _ _ => rfl
  unfold addImport
  dsimp only
  split
  · exact ((Passes.refl r).report _ _ rfl).adds
  · cases isLeaf with
    | true => exact (Adds.refl r).reportAll (List.forall_mem_map.mpr (hpackage _))
    | false => exact (Adds.refl r).reportAll (List.forall_mem_map.mpr (hcomponent _))

theorem adds_addDeclaration (r : Resolution) (index : Nat) (d : Declaration) :
    r.Adds (r.addDeclaration index d) := by
  have hcheck := (passes_checkDeclaration r d).adds
  unfold addDeclaration
  dsimp only
  split
  · exact hcheck
  · exact hcheck.congr rfl

theorem ofProgram_duplicateFindings (clause : Clause) (ids : List Ident) :
    ∀ f ∈ duplicateFindings clause ids, f.problem.ofProgram = true :=
  List.forall_mem_map.mpr fun _ _ => rfl

theorem ofProgram_clauseFindings (clause : Clause) (signals : SignalClause) :
    ∀ f ∈ clauseFindings clause signals, f.problem.ofProgram = true := by
  cases signals with
  | flat names => exact ofProgram_duplicateFindings clause names
  | pair top bottom =>
    exact List.forall_mem_append.mpr
      ⟨ofProgram_duplicateFindings clause top, ofProgram_duplicateFindings clause bottom⟩

theorem ofProgram_checkHeader (c : Component) (file : String) (h : r.OfProgram) :
    (r.checkHeader c file).OfProgram := by
  have hshape := (((Passes.refl r).reportIf (Path.stem file != c.name.name) c.name.span
    (.misnamedFile c.name.name)
    rfl).reportIf (c.isLeaf && isPairClause c.inputs) c.span .inputPair rfl).reportIf
      (c.isLeaf && isPairClause c.outputs) c.span .outputPair rfl
  have hclauses :=
    (((hshape.adds.ofProgram h).reportAll (ofProgram_clauseFindings .input c.inputs)).reportAll
    (ofProgram_clauseFindings .output c.outputs)).reportAll
      (ofProgram_duplicateFindings .configuration c.configuration)
  have hconfiguration : ∀ (r : Resolution) id, r.Adds (r.addConfiguration id) := by
    intro r id
    unfold addConfiguration
    split <;> exact .refl r
  have hall := ((Adds.refl _).foldl hconfiguration c.configuration).ofProgram hclauses
  unfold checkHeader
  dsimp only
  split
  · exact ⟨hall.findings⟩
  · exact hall

end Resolution

open Resolution in
theorem Program.ofProgram_resolve (p : Program) (file : String) (registry : Registry)
    (files : FileTree) :
    (p.resolve file registry files).OfProgram := by
  have himports := ((Adds.refl _).foldl (adds_addImport registry files p.component.isLeaf)
    p.imports).ofProgram
    (⟨List.forall_mem_nil _⟩ : (start p.component).OfProgram)
  have hheader := (ofProgram_checkHeader p.component file himports).reportAll
    (ofProgram_duplicateFindings .component (p.component.declarations.map Declaration.name))
  have hdeclared := ((Adds.refl _).foldl (fun r (x : Declaration × Nat) =>
    adds_addDeclaration r x.2 x.1)
    p.component.declarations.zipIdx).ofProgram hheader
  have hunused : ∀ {r : Resolution}, r.OfProgram → r.reportUnused.OfProgram := by
    intro r h
    exact ((h.reportAll (List.forall_mem_map.mpr fun _ _ => rfl)).reportAll
      (List.forall_mem_map.mpr fun _ _ => rfl)).reportAll (List.forall_mem_map.mpr fun _ _ => rfl)
  refine hunused ?_
  split
  · exact (passes_resolveArrow _ _).adds.ofProgram hdeclared
  · exact (passes_resolveLeaf _ _).adds.ofProgram hdeclared

end PipelineLang
