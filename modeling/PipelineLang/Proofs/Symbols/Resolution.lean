import PipelineLang.Proofs.Arrow.Agreement
import PipelineLang.Symbols.Leaf

/-! What a resolution without errors tells of the symbols: the header is that of the component, all
declared components have interfaces, and an arrow uses none but declared ones. -/

namespace PipelineLang

variable {ds : List Declaration} {α : Type} {d : Declaration}

namespace Symbols

def unmarked (s : Symbols) : Symbols :=
  { s with
    imports := s.imports.map fun i => { i with used := false }
    declarations := s.declarations.map fun d => { d with used := false }
    configuration := s.configuration.map fun c => { c with used := false } }

/-- What the header of a component gives, and the tables of a leaf body. -/
def header (s : Symbols) : SignalType × SignalType × LeafTables :=
  (s.declaredInputs, s.declaredOutputs, s.tables)

def opening (s : Symbols) : (SignalType × SignalType × LeafTables) × List DeclarationEntry :=
  (s.header, s.declarations)

variable {s t : Symbols}

@[simp] theorem unmarked_useImport (s : Symbols) (name : String) :
    (s.useImport name).unmarked = s.unmarked := by
  simp only [unmarked, useImport, List.map_map, mk.injEq, true_and, and_true]
  refine List.map_congr_left fun i _ => ?_
  simp only [Function.comp_apply]
  split <;> rfl

@[simp] theorem unmarked_useDeclaration (s : Symbols) (name : String) :
    (s.useDeclaration name).unmarked = s.unmarked := by
  simp only [unmarked, useDeclaration, List.map_map, mk.injEq, true_and, and_true]
  refine List.map_congr_left fun d _ => ?_
  simp only [Function.comp_apply]
  split <;> rfl

@[simp] theorem unmarked_useConfiguration (s : Symbols) (name : String) :
    (s.useConfiguration name).unmarked = s.unmarked := by
  simp only [unmarked, useConfiguration, List.map_map, mk.injEq, true_and, and_true]
  refine List.map_congr_left fun c _ => ?_
  simp only [Function.comp_apply]
  split <;> rfl

theorem import?_unmarked (s : Symbols) (name : String) :
    s.unmarked.import? name = (s.import? name).map fun i => { i with used := false } := by
  simp only [import?, unmarked, List.find?_map]
  rfl

theorem declaration?_unmarked (s : Symbols) (name : String) :
    s.unmarked.declaration? name = (s.declaration? name).map fun d => { d with used := false } := by
  simp only [declaration?, unmarked, List.find?_map]
  rfl

theorem isSome_declaration?_congr (h : s.unmarked = t.unmarked) (name : String) :
    (s.declaration? name).isSome = (t.declaration? name).isSome := by
  have hs := congrArg Option.isSome (declaration?_unmarked s name)
  rw [h, declaration?_unmarked] at hs
  simpa using hs.symm

theorem header_congr (h : s.unmarked = t.unmarked) : s.header = t.header :=
  show s.unmarked.header = t.unmarked.header from congrArg header h

/-- Every entry comes from one of the declarations, and has an interface. -/
def Traced (ds : List Declaration) (s : Symbols) : Prop :=
  ∀ entry ∈ s.declarations,
    (∃ d ∈ ds, d.name.name = entry.name ∧ d.component.name = entry.importName ∧ d.span =
      entry.span) ∧ ∃ i leaf, s.import? entry.importName = some i ∧ i.kind = .component leaf

theorem traced_unmarked : Traced ds s.unmarked ↔ Traced ds s := by
  simp only [Traced, unmarked, List.forall_mem_map]
  refine forall_congr' fun entry => imp_congr_right fun _ => and_congr_right fun _ => ?_
  change (∃ i leaf, s.unmarked.import? entry.importName = some i ∧ i.kind = .component leaf) ↔ _
  rw [import?_unmarked]
  cases s.import? entry.importName <;> simp

def Listed (ds : List Declaration) (s : Symbols) : Prop :=
  ∀ entry ∈ s.declarations,
    ∃ d ∈ ds, d.name.name = entry.name ∧ d.component.name = entry.importName ∧ d.span = entry.span

theorem Traced.listed (h : Traced ds s) : Listed ds s :=
  fun entry hentry => (h entry hentry).1

theorem leafOf?_of_traced (h : Traced ds s) {name : String}
    (hd : (s.declaration? name).isSome = true) : (s.leafOf? name).isSome = true := by
  obtain ⟨entry, he⟩ := Option.isSome_iff_exists.mp hd
  obtain ⟨-, i, leaf, hi, hk⟩ := h entry (List.mem_of_find?_eq_some he)
  simp [leafOf?, he, hi, hk]

end Symbols

namespace Resolution

def Clean (r : Resolution) : Prop := ∀ f ∈ r.findings, f.isError = false

variable {r : Resolution}

@[simp] theorem symbols_report (r : Resolution) (span : Span) (problem : Problem) :
    (r.report span problem).symbols = r.symbols := rfl

@[simp] theorem symbols_reportAll (r : Resolution) (findings : List Finding) :
    (r.reportAll findings).symbols = r.symbols := rfl

@[simp] theorem symbols_reportIf (r : Resolution) (wrong : Bool) (span : Span) (problem : Problem) :
    (r.reportIf wrong span problem).symbols = r.symbols := by
  cases wrong <;> rfl

@[simp] theorem clean_report {span : Span} {problem : Problem} :
    (r.report span problem).Clean ↔ r.Clean ∧ problem.isError = false := by
  simp only [Clean, report, List.forall_mem_append, List.forall_mem_singleton, Finding.isError]

@[simp] theorem clean_reportAll {findings : List Finding} :
    (r.reportAll findings).Clean ↔ r.Clean ∧ ∀ f ∈ findings, f.isError = false := by
  simp only [Clean, reportAll, List.forall_mem_append]

@[simp] theorem clean_reportIf {wrong : Bool} {span : Span} {problem : Problem} :
    (r.reportIf wrong span problem).Clean ↔ r.Clean ∧ (wrong = true → problem.isError = false) := by
  cases wrong <;> simp [reportIf]

@[simp] theorem clean_withSymbols {s : Symbols} :
    ({ r with symbols := s } : Resolution).Clean ↔ r.Clean :=
  Iff.rfl

theorem clean_of_foldl {f : Resolution → α → Resolution} {xs : List α}
    (hback : ∀ r x, (f r x).Clean → r.Clean) (h : (xs.foldl f r).Clean) : r.Clean := by
  induction xs generalizing r with
  | nil => exact h
  | cons x xs ih => exact hback r x (ih h)

theorem foldl_of_clean {f : Resolution → α → Resolution} {P : Resolution → Prop} {xs : List α}
    (hback : ∀ r x, (f r x).Clean → r.Clean)
    (hstep : ∀ r, ∀ x ∈ xs, P r → (f r x).Clean → P (f r x))
    (hr : P r) (h : (xs.foldl f r).Clean) : P (xs.foldl f r) := by
  induction xs generalizing r with
  | nil => exact hr
  | cons x xs ih =>
    have hx : (f r x).Clean := clean_of_foldl hback h
    exact ih (fun r y hy => hstep r y (List.mem_cons_of_mem x hy))
      (hstep r x List.mem_cons_self hr hx) h

theorem foldl_keeps {β : Type} {f : Resolution → α → Resolution} (g : Resolution → β)
    (h : ∀ r x, g (f r x) = g r) (xs : List α) (r : Resolution) : g (xs.foldl f r) = g r := by
  induction xs generalizing r with
  | nil => rfl
  | cons x xs ih => exact (ih (f r x)).trans (h r x)

theorem opening_addImport (registry : Registry) (files : FileTree) (isLeaf : Bool) (r : Resolution)
    (i : Import) : (r.addImport registry files isLeaf i).symbols.opening = r.symbols.opening := by
  simp only [addImport]
  split <;> rfl

theorem opening_addConfiguration (r : Resolution) (id : Ident) :
    (r.addConfiguration id).symbols.opening = r.symbols.opening := by
  unfold addConfiguration
  split <;> rfl

theorem opening_checkHeader (c : Component) (file : String) (r : Resolution) :
    (r.checkHeader c file).symbols.opening = r.symbols.opening := by
  have h := foldl_keeps (fun r => r.symbols.opening) opening_addConfiguration c.configuration
  unfold checkHeader
  split
  · refine (h _).trans ?_
    simp
  · rw [h]
    simp

theorem unmarked_useConfiguration (r : Resolution) (id : Ident) (unknown : Problem) :
    (r.useConfiguration id unknown).symbols.unmarked = r.symbols.unmarked := by
  unfold useConfiguration
  split
  · exact Symbols.unmarked_useConfiguration r.symbols id.name
  · rfl

theorem clean_of_useConfiguration {id : Ident} {unknown : Problem}
    (h : (r.useConfiguration id unknown).Clean) : r.Clean := by
  unfold useConfiguration at h
  split at h
  · exact h
  · exact (clean_report.mp h).1

theorem unmarked_checkSetting (leaf : Option (LeafSignature × String)) (r : Resolution)
    (m : Mapping) :
    (r.checkSetting leaf m).symbols.unmarked = r.symbols.unmarked := by
  have hread : (r.useSource m.source).symbols.unmarked = r.symbols.unmarked := by
    cases m.source with
    | ident id | state id => exact unmarked_useConfiguration _ _ _
    | literal lit => rfl
  cases leaf with
  | none => exact hread
  | some signature => simp [checkSetting, hread]

theorem clean_of_checkSetting {leaf : Option (LeafSignature × String)} (r : Resolution)
    (m : Mapping) (h : (r.checkSetting leaf m).Clean) : r.Clean := by
  have hread : (r.useSource m.source).Clean := by
    cases leaf with
    | none => exact h
    | some signature => exact (clean_reportIf.mp h).1
  cases hs : m.source with
  | ident id | state id =>
    rw [hs] at hread
    exact clean_of_useConfiguration hread
  | literal lit =>
    rw [hs] at hread
    exact hread

def entryOf (index : Nat) (d : Declaration) : DeclarationEntry :=
  ⟨d.name.name, d.component.name, index, d.span, false⟩

theorem unmarked_checkDeclaration (r : Resolution) (d : Declaration) :
    (r.checkDeclaration d).symbols.unmarked = r.symbols.unmarked := by
  simp only [checkDeclaration, symbols_reportIf]
  rw [foldl_keeps (fun r => r.symbols.unmarked) (unmarked_checkSetting _)]
  simp

theorem clean_of_checkDeclaration (h : (r.checkDeclaration d).Clean) :
    r.Clean ∧ ∃ i leaf, r.symbols.import? d.component.name = some i ∧ i.kind = .component leaf := by
  have h := clean_of_foldl clean_of_checkSetting (clean_reportIf.mp h).1
  obtain ⟨hr, hsome⟩ := clean_reportIf.mp h
  refine ⟨hr, ?_⟩
  simp only [Problem.isError, Bool.true_eq_false, imp_false, Bool.not_eq_true,
    Option.isNone_eq_false_iff, componentOf?] at hsome
  split at hsome
  · rename_i hi
    exact ⟨_, _, hi, rfl⟩
  · simp at hsome

theorem unmarked_addDeclaration (r : Resolution) (index : Nat) (d : Declaration) :
    (r.addDeclaration index d).symbols.unmarked =
      if (r.symbols.declaration? d.name.name).isSome then r.symbols.unmarked
      else { r.symbols.unmarked with
        declarations := r.symbols.unmarked.declarations ++ [entryOf index d] } := by
  have h := unmarked_checkDeclaration r d
  simp only [addDeclaration, Symbols.isSome_declaration?_congr h]
  split
  · exact h
  · rw [← h]
    simp [Symbols.unmarked, entryOf]

theorem clean_of_addDeclaration {index : Nat} (h : (r.addDeclaration index d).Clean) :
    (r.checkDeclaration d).Clean := by
  simp only [addDeclaration] at h
  split at h
  · exact h
  · exact h

theorem header_addDeclaration (r : Resolution) (index : Nat) (d : Declaration) :
    (r.addDeclaration index d).symbols.header = r.symbols.header := by
  change (r.addDeclaration index d).symbols.unmarked.header = _
  rw [unmarked_addDeclaration]
  split <;> rfl

theorem traced_addDeclaration {index : Nat} (hd : d ∈ ds)
    (ht : r.symbols.Traced ds) (h : (r.addDeclaration index d).Clean) :
    (r.addDeclaration index d).symbols.Traced ds := by
  obtain ⟨-, i, leaf, hi, hk⟩ := clean_of_checkDeclaration (clean_of_addDeclaration h)
  rw [← Symbols.traced_unmarked] at ht ⊢
  rw [unmarked_addDeclaration]
  split
  · exact ht
  · intro entry he
    rcases List.mem_append.mp he with he | he
    · exact ht entry he
    · obtain rfl := List.mem_singleton.mp he
      refine ⟨⟨d, hd, rfl, rfl, rfl⟩, { i with used := false }, leaf, ?_, hk⟩
      change r.symbols.unmarked.import? d.component.name = _
      rw [Symbols.import?_unmarked, hi]
      rfl

theorem traced_addDeclarations (ht : r.symbols.Traced ds)
    (h : (r.addDeclarations ds).Clean) : (r.addDeclarations ds).symbols.Traced ds := by
  refine foldl_of_clean (P := fun r => r.symbols.Traced ds)
    (fun r (x : Declaration × Nat) hx => (clean_of_checkDeclaration (clean_of_addDeclaration hx)).1)
    ?_ ht h
  rintro r ⟨d, index⟩ hx hr hclean
  exact traced_addDeclaration (List.fst_mem_of_mem_zipIdx hx) hr hclean

theorem header_addDeclarations (ds : List Declaration) (r : Resolution) :
    (r.addDeclarations ds).symbols.header = r.symbols.header := by
  have h := foldl_keeps (f := fun r (x : Declaration × Nat) => r.addDeclaration x.2 x.1)
    (fun r => r.symbols.header) (fun r x => header_addDeclaration r x.2 x.1) ds.zipIdx
  exact h (r.reportAll (duplicateFindings .component (ds.map Declaration.name)))

section Arrow

theorem unmarked_markState (r : Resolution) (operand : Operand) :
    (r.markState operand).symbols.unmarked = r.symbols.unmarked := by
  cases operand with
  | state id => exact Symbols.unmarked_useConfiguration r.symbols id.name
  | ident | literal => rfl

theorem clean_of_markState (r : Resolution) (operand : Operand) (h : (r.markState operand).Clean) :
    r.Clean := by
  cases operand <;> exact h

theorem unmarked_resolveArrow (e : Arrow) (r : Resolution) :
    (r.resolveArrow e).symbols.unmarked = r.symbols.unmarked := by
  induction e generalizing r with
  | compose _ _ _ ihl ihr | pairUp _ _ _ ihl ihr | fanOut _ _ _ ihl ihr =>
    exact (ihr _).trans (ihl r)
  | choose condition _ _ _ iht ihf =>
    exact (ihf _).trans ((iht _).trans
      (foldl_keeps (fun r => r.symbols.unmarked) unmarked_markState _ r))
  | first _ _ ih | second _ _ ih | paren _ _ ih => exact ih r
  | use id span =>
    unfold resolveArrow
    split <;> simp
  | split | merge | wire | wirePair | failed => rfl

theorem clean_of_resolveArrow {e : Arrow} (h : (r.resolveArrow e).Clean) :
    r.Clean ∧ ∀ id ∈ e.components, (r.symbols.declaration? id.name).isSome = true := by
  induction e generalizing r with
  | compose left _ _ ihl ihr | pairUp left _ _ ihl ihr | fanOut left _ _ ihl ihr =>
    obtain ⟨h, hright⟩ := ihr h
    obtain ⟨h, hleft⟩ := ihl h
    simp only [Symbols.isSome_declaration?_congr (unmarked_resolveArrow left r)] at hright
    exact ⟨h, List.forall_mem_append.mpr ⟨hleft, hright⟩⟩
  | choose condition onTrue _ _ iht ihf =>
    have hmark := foldl_keeps (fun r => r.symbols.unmarked) unmarked_markState condition.terminals r
    obtain ⟨h, hfalse⟩ := ihf h
    obtain ⟨h, htrue⟩ := iht h
    simp only [Symbols.isSome_declaration?_congr ((unmarked_resolveArrow onTrue _).trans hmark)]
      at hfalse
    simp only [Symbols.isSome_declaration?_congr hmark] at htrue
    exact ⟨clean_of_foldl clean_of_markState h, List.forall_mem_append.mpr ⟨htrue, hfalse⟩⟩
  | first _ _ ih | second _ _ ih | paren _ _ ih => exact ih h
  | use id span =>
    unfold resolveArrow at h
    split at h
    · exact ⟨h, by simpa [Arrow.components] using ‹_›⟩
    · exact absurd (clean_report.mp h).2 (by simp [Problem.isError])
  | split | merge | wire | wirePair | failed => exact ⟨h, by simp [Arrow.components]⟩

end Arrow

theorem clean_reportUnused : r.reportUnused.Clean ↔ r.Clean := by
  simp only [reportUnused, clean_reportAll, List.forall_mem_map, Finding.isError, Problem.isError,
    implies_true, and_true]

end Resolution

namespace Program

variable {p : Program} {file : String} {registry : Registry} {files : FileTree}

def declared (p : Program) (file : String) (registry : Registry) (files : FileTree) : Resolution :=
  ((p.imports.foldl (Resolution.addImport registry files p.component.isLeaf)
    (.start p.component)).checkHeader p.component file).addDeclarations p.component.declarations

theorem resolve_arrow {e : Arrow} (h : p.component.definition = .arrow e) :
    p.resolve file registry files =
      ((p.declared file registry files).resolveArrow e).reportUnused := by
  simp [resolve, declared, h]

theorem resolve_leaf {body : DoBlock} (h : p.component.definition = .leaf body) :
    p.resolve file registry files =
      ((p.declared file registry files).resolveLeaf p.component body).reportUnused := by
  simp [resolve, declared, h]

theorem opening_checked (p : Program) (file : String) (registry : Registry) (files : FileTree) :
    ((p.imports.foldl (Resolution.addImport registry files p.component.isLeaf)
      (.start p.component)).checkHeader p.component file).symbols.opening =
        (Resolution.start p.component).symbols.opening := by
  rw [Resolution.opening_checkHeader]
  exact Resolution.foldl_keeps (fun r => r.symbols.opening)
    (Resolution.opening_addImport registry files p.component.isLeaf) p.imports (.start p.component)

theorem header_declared (p : Program) (file : String) (registry : Registry) (files : FileTree) :
    (p.declared file registry files).symbols.header =
      (.ofClause p.component.inputs, .ofClause p.component.outputs, .empty) := by
  rw [declared, Resolution.header_addDeclarations]
  exact congrArg Prod.fst (opening_checked p file registry files)

theorem traced_declared (h : (p.declared file registry files).Clean) :
    (p.declared file registry files).symbols.Traced p.component.declarations := by
  refine Resolution.traced_addDeclarations ?_ h
  intro entry he
  have hnone := congrArg Prod.snd (opening_checked p file registry files)
  simp only [Symbols.opening] at hnone
  rw [hnone] at he
  exact absurd he List.not_mem_nil

section Arrow

variable {e : Arrow} (hd : p.component.definition = .arrow e)
  (hclean : (p.resolve file registry files).Clean)
include hd

theorem unmarked_resolve_arrow :
    (p.resolve file registry files).symbols.unmarked =
      (p.declared file registry files).symbols.unmarked := by
  rw [resolve_arrow hd]
  exact Resolution.unmarked_resolveArrow e _

theorem header_resolve_arrow :
    (p.resolve file registry files).symbols.header =
      (.ofClause p.component.inputs, .ofClause p.component.outputs, .empty) := by
  rw [Symbols.header_congr (unmarked_resolve_arrow hd), header_declared]

include hclean

theorem clean_resolveArrow : ((p.declared file registry files).resolveArrow e).Clean := by
  rw [resolve_arrow hd, Resolution.clean_reportUnused] at hclean
  exact hclean

theorem traced_resolve_arrow :
    (p.resolve file registry files).symbols.Traced p.component.declarations := by
  rw [← Symbols.traced_unmarked, unmarked_resolve_arrow hd, Symbols.traced_unmarked]
  exact traced_declared (Resolution.clean_of_resolveArrow (clean_resolveArrow hd hclean)).1

theorem isSome_declaration?_of_components {id : Ident} (hid : id ∈ e.components) :
    ((p.resolve file registry files).symbols.declaration? id.name).isSome = true := by
  rw [Symbols.isSome_declaration?_congr (unmarked_resolve_arrow hd)]
  exact (Resolution.clean_of_resolveArrow (clean_resolveArrow hd hclean)).2 id hid

theorem sound_of_clean (hi : e.intact = true) :
    e.Sound (p.resolve file registry files).symbols := by
  refine ⟨hi, fun id hid => ?_⟩
  exact Symbols.leafOf?_of_traced (traced_resolve_arrow hd hclean)
    (isSome_declaration?_of_components hd hclean hid)

end Arrow

end Program

end PipelineLang
