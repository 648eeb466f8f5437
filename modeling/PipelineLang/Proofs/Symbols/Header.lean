import PipelineLang.Proofs.Symbols.Usage

/-! What a resolution promises of a component to others is what the header declares: nothing behind
the header changes it, and if no error is found, the names of the configuration are the declared
ones. -/

namespace PipelineLang

theorem nodup_of_duplicatesAfter {seen : List String} {ids : List Ident} (hseen : seen.Nodup)
    (h : duplicatesAfter seen ids = []) :
    (ids.map Ident.name).Nodup ∧ ∀ id ∈ ids, id.name ∉ seen := by
  induction ids generalizing seen with
  | nil => exact ⟨.nil, List.forall_mem_nil _⟩
  | cons id ids ih =>
    -- a name that came before came just once, and would be reported
    have hfree : id.name ∉ seen := by
      intro hmem
      have hcount : seen.count id.name = 1 := hseen.count.trans (if_pos hmem)
      simp [duplicatesAfter, hcount] at h
    have hrest : duplicatesAfter (id.name :: seen) ids = [] := by
      simpa [duplicatesAfter, List.count_eq_zero.mpr hfree] using h
    obtain ⟨hnodup, hids⟩ := ih (List.nodup_cons.mpr ⟨hfree, hseen⟩) hrest
    refine ⟨List.nodup_cons.mpr ⟨?_, hnodup⟩, List.forall_mem_cons.mpr ⟨hfree, ?_⟩⟩
    · intro hmem
      obtain ⟨id', hid', hname⟩ := List.mem_map.mp hmem
      exact hids id' hid' (hname ▸ List.mem_cons_self)
    · exact fun id' hid' hmem => hids id' hid' (List.mem_cons_of_mem _ hmem)

theorem nodup_of_duplicates {ids : List Ident} {finding : Ident → Finding}
    (herror : ∀ id, (finding id).isError = true)
    (h : ∀ f ∈ (duplicates ids).map finding, f.isError = false) : (ids.map Ident.name).Nodup := by
  have hnone : duplicates ids = [] := by
    refine List.eq_nil_iff_forall_not_mem.mpr fun id hid => ?_
    have hfound := h _ (List.mem_map_of_mem hid)
    rw [herror] at hfound
    cases hfound
  exact (nodup_of_duplicatesAfter .nil hnone).1

theorem nodup_of_duplicateFindings {clause : Clause} {ids : List Ident}
    (h : ∀ f ∈ Resolution.duplicateFindings clause ids, f.isError = false) :
    (ids.map Ident.name).Nodup :=
  nodup_of_duplicates (fun _ => rfl) h

/-- The names of the configuration, and the declared types. -/
def Symbols.promise (s : Symbols) : List String × SignalType × SignalType :=
  (s.configuration.map ConfigurationEntry.name, s.declaredInputs, s.declaredOutputs)

def Symbols.importNames (s : Symbols) : List String := s.imports.map ImportEntry.localName

/-- What is settled with the header and the imports, but for the marks of use. -/
def Symbols.frame (s : Symbols) : (List String × SignalType × SignalType) × List ImportEntry :=
  (s.promise, s.unmarked.imports)

theorem Symbols.frame_useConfiguration (s : Symbols) (name : String) :
    (s.useConfiguration name).frame = s.frame := by
  simp only [frame, promise, useConfiguration, List.map_map, Prod.mk.injEq, and_true]
  refine ⟨List.map_congr_left fun c _ => ?_, rfl⟩
  simp only [Function.comp_apply]
  split <;> rfl

theorem Symbols.frame_useImport (s : Symbols) (name : String) :
    (s.useImport name).frame = s.frame := by
  rw [frame, unmarked_useImport, frame]
  rfl

namespace Resolution

/-- A step that keeps the frame, and all findings. -/
structure Keeps (r r' : Resolution) : Prop where
  frame : r'.symbols.frame = r.symbols.frame
  findings : ∀ f ∈ r.findings, f ∈ r'.findings

variable {r r' r'' : Resolution} {c : Component}

namespace Keeps

theorem refl (r : Resolution) : r.Keeps r := ⟨rfl, fun _ => id⟩

theorem trans (h : r.Keeps r') (h' : r'.Keeps r'') : r.Keeps r'' :=
  ⟨h'.frame.trans h.frame, fun f hf => h'.findings f (h.findings f hf)⟩

theorem clean (h : r.Keeps r') (hclean : r'.Clean) : r.Clean :=
  fun f hf => hclean f (h.findings f hf)

theorem reportAll (h : r.Keeps r') (findings : List Finding) : r.Keeps (r'.reportAll findings) :=
  ⟨h.frame, fun f hf => List.mem_append_left _ (h.findings f hf)⟩

theorem report (h : r.Keeps r') (span : Span) (problem : Problem) :
    r.Keeps (r'.report span problem) :=
  h.reportAll _

theorem reportIf (h : r.Keeps r') (wrong : Bool) (span : Span) (problem : Problem) :
    r.Keeps (r'.reportIf wrong span problem) := by
  cases wrong with
  | true => exact h.report span problem
  | false => exact h

theorem symbols (h : r.Keeps r') {s : Symbols} (hs : s.frame = r'.symbols.frame) :
    r.Keeps { r' with symbols := s } :=
  ⟨hs.trans h.frame, h.findings⟩

theorem foldl {α : Type} {f : Resolution → α → Resolution} (h : r.Keeps r')
    (hstep : ∀ (r : Resolution) x, r.Keeps (f r x)) (xs : List α) : r.Keeps (xs.foldl f r') := by
  induction xs generalizing r' with
  | nil => exact h
  | cons x xs ih => exact ih (h.trans (hstep r' x))

end Keeps

theorem promise_addImport (registry : Registry) (files : FileTree) (isLeaf : Bool) (r : Resolution)
    (i : Import) :
    (r.addImport registry files isLeaf i).symbols.promise = r.symbols.promise := by
  simp only [addImport]
  split <;> rfl

theorem Passes.keeps {names : Entity → List String} (h : Passes names r r') : r.Keeps r' := by
  induction h with
  | refl | absent => exact .refl _
  | trans _ _ ih ih' => exact ih.trans ih'
  | reports r _ => exact (Keeps.refl r).reportAll _
  | tables r _ | useDeclaration r _ => exact (Keeps.refl r).symbols rfl
  | useImport r name => exact (Keeps.refl r).symbols (Symbols.frame_useImport r.symbols name)
  | useConfiguration r name =>
    exact (Keeps.refl r).symbols (Symbols.frame_useConfiguration r.symbols name)

theorem keeps_addDeclaration (r : Resolution) (index : Nat) (d : Declaration) :
    r.Keeps (r.addDeclaration index d) := by
  have hcheck := (passes_checkDeclaration r d).keeps
  unfold addDeclaration
  dsimp only
  split
  · exact hcheck
  · exact hcheck.symbols rfl

theorem keeps_addDeclarations (ds : List Declaration) (r : Resolution) :
    r.Keeps (r.addDeclarations ds) :=
  ((Keeps.refl r).reportAll _).foldl
    (fun r (x : Declaration × Nat) => keeps_addDeclaration r x.2 x.1) ds.zipIdx

theorem keeps_enterCommand (r : Resolution) (span : Span) : r.Keeps (r.enterCommand span) :=
  (Passes.tables r _).keeps

theorem keeps_pushFrame (r : Resolution) : r.Keeps r.pushFrame := (Passes.tables r _).keeps

theorem keeps_popFrame (r : Resolution) : r.Keeps r.popFrame := (Passes.tables r _).keeps

theorem keeps_reportUnused (r : Resolution) : r.Keeps r.reportUnused :=
  (((Keeps.refl r).reportAll _).reportAll _).reportAll _

theorem configuration_foldl {ids : List Ident} (hnodup : (ids.map Ident.name).Nodup)
    (r : Resolution) (hnew : ∀ id ∈ ids, r.symbols.hasConfiguration id.name = false) :
    (ids.foldl addConfiguration r).symbols.promise =
      (r.symbols.promise.1 ++ ids.map Ident.name, r.symbols.promise.2) := by
  induction ids generalizing r with
  | nil => simp
  | cons id ids ih =>
    rw [List.forall_mem_cons] at hnew
    rw [List.map_cons, List.nodup_cons] at hnodup
    rw [List.foldl_cons, ih hnodup.2]
    · simp [addConfiguration, hnew.1, Symbols.promise]
    · intro id' hid'
      have hne : id.name ≠ id'.name := fun heq => hnodup.1 (heq ▸ List.mem_map_of_mem hid')
      have hold := hnew.2 id' hid'
      simp only [Symbols.hasConfiguration] at hold ⊢
      simp [addConfiguration, hnew.1, hold, hne]

def checkedHeader (c : Component) (file : String) (r : Resolution) : Resolution :=
  (((((r.reportIf (Path.stem file != c.name.name) c.name.span (.misnamedFile c.name.name)).reportIf
      (c.isLeaf && isPairClause c.inputs) c.span .inputPair).reportIf
        (c.isLeaf && isPairClause c.outputs) c.span .outputPair).reportAll
          (clauseFindings .input c.inputs)).reportAll (clauseFindings .output c.outputs)).reportAll
            (duplicateFindings .configuration c.configuration)

theorem checkHeader_eq (r : Resolution) (c : Component) (file : String) :
    r.checkHeader c file =
      let r' := c.configuration.foldl addConfiguration (r.checkedHeader c file)
      if c.isLeaf then
        { r' with symbols := { r'.symbols with
          inputs := some r'.symbols.declaredInputs
          outputs := some r'.symbols.declaredOutputs } }
      else r' := rfl

theorem clean_checkedHeader {file : String} (h : (r.checkHeader c file).Clean) :
    (r.checkedHeader c file).Clean := by
  have hfindings : ∀ (r : Resolution),
      (c.configuration.foldl addConfiguration r).findings = r.findings :=
    foldl_keeps (fun r => r.findings) (fun r id => by unfold addConfiguration; split <;> rfl)
      c.configuration
  have hfold : (c.configuration.foldl addConfiguration (r.checkedHeader c file)).Clean := by
    rw [checkHeader_eq] at h
    dsimp only at h
    split at h <;> exact h
  rwa [Clean, hfindings] at hfold

theorem stem_of_checkHeader {file : String} (h : (r.checkHeader c file).Clean) :
    Path.stem file = c.name.name := by
  have hclean := clean_checkedHeader h
  simp only [checkedHeader, clean_reportAll, clean_reportIf] at hclean
  by_contra hne
  have hname := hclean.1.1.1.1.1.2
  simp [hne, Problem.isError] at hname

theorem nodup_configuration_of_checkHeader {file : String} (h : (r.checkHeader c file).Clean) :
    (c.configuration.map Ident.name).Nodup := by
  have hclean := clean_checkedHeader h
  rw [checkedHeader, clean_reportAll] at hclean
  exact nodup_of_duplicateFindings hclean.2

theorem promise_checkHeader {file : String} (hclean : (r.checkHeader c file).Clean)
    (hempty : r.symbols.configuration = []) :
    (r.checkHeader c file).symbols.promise =
      (c.configuration.map Ident.name, r.symbols.promise.2) := by
  have hsymbols : (r.checkedHeader c file).symbols = r.symbols := by simp [checkedHeader]
  have hpromise := configuration_foldl (nodup_configuration_of_checkHeader hclean)
    (r.checkedHeader c file)
    (by simp [Symbols.hasConfiguration, hsymbols, hempty])
  rw [hsymbols] at hpromise
  simp only [Symbols.promise, hempty, List.map_nil, List.nil_append] at hpromise ⊢
  rw [checkHeader_eq]
  dsimp only
  split <;> exact hpromise

end Resolution

namespace Program

variable {p : Program} {file : String} {registry : Registry} {files : FileTree}

theorem keeps_resolve (p : Program) (file : String) (registry : Registry) (files : FileTree) :
    ((p.imports.foldl (Resolution.addImport registry files p.component.isLeaf)
        (.start p.component)).checkHeader
      p.component file).Keeps (p.resolve file registry files) := by
  refine (Resolution.keeps_addDeclarations p.component.declarations _).trans ?_
  cases hdef : p.component.definition with
  | arrow e =>
    rw [resolve_arrow hdef]
    exact (Resolution.passes_resolveArrow e _).keeps.trans (Resolution.keeps_reportUnused _)
  | leaf body =>
    rw [resolve_leaf hdef]
    exact (Resolution.passes_resolveLeaf body _).keeps.trans (Resolution.keeps_reportUnused _)

theorem stem_of_clean (hclean : (p.resolve file registry files).Clean) :
    Path.stem file = p.component.name.name :=
  Resolution.stem_of_checkHeader ((p.keeps_resolve file registry files).clean hclean)

theorem nodup_configuration (hclean : (p.resolve file registry files).Clean) :
    (p.component.configuration.map Ident.name).Nodup :=
  Resolution.nodup_configuration_of_checkHeader ((p.keeps_resolve file registry files).clean hclean)

theorem promise_resolve (hclean : (p.resolve file registry files).Clean) :
    (p.resolve file registry files).symbols.promise =
      (p.component.configuration.map Ident.name, .ofClause p.component.inputs,
        .ofClause p.component.outputs) := by
  have hall := p.keeps_resolve file registry files
  have himports := Resolution.foldl_keeps (fun r => r.symbols.promise)
    (Resolution.promise_addImport registry files p.component.isLeaf) p.imports (.start p.component)
  generalize p.imports.foldl (Resolution.addImport registry files p.component.isLeaf)
    (.start p.component) = r
    at hall himports
  have hempty : r.symbols.configuration = [] := List.map_eq_nil_iff.mp (congrArg Prod.fst himports)
  have hpromise : (p.resolve file registry files).symbols.promise =
      (r.checkHeader p.component file).symbols.promise :=
    congrArg Prod.fst hall.frame
  rw [hpromise, Resolution.promise_checkHeader (hall.clean hclean) hempty, himports]
  rfl

end Program

end PipelineLang
