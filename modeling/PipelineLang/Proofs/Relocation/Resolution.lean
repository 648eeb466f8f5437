import PipelineLang.Proofs.Leaf.Body
import PipelineLang.Proofs.Relocation.Syntax
import PipelineLang.Proofs.Symbols.Resolution

/-!
Resolution at other places. A relocated program resolves to relocated symbols, with the same
problems at relocated places. The log plays no part: from the imports on, no step reads or writes
it, so it may be replaced along the way.
-/

namespace PipelineLang

variable {r : Resolution} {i : Import}

namespace Table

variable {φ : Relocation} {α : Type}

def relocate (φ : Relocation) (t : Table Span α) : Table Span α :=
  .ofList (t.entries.map fun e => (e.1.relocate φ, e.2))

theorem get?_relocate_eq_some_iff {t : Table Span α} {k : Span} {v : α} :
    (t.relocate φ).get? k = some v ↔ ∃ j, j.relocate φ = k ∧ t.get? j = some v := by
  have hnodup : ((t.entries.map fun e => (e.1.relocate φ, e.2)).map Prod.fst).Nodup := by
    have hkeys := t.nodup_keys.map (f := Span.relocate φ) fun _ _ heq => Span.relocate_inj.mp heq
    simpa [Function.comp_def] using hkeys
  rw [relocate, get?_ofList hnodup, find?_eq_some_iff hnodup, List.mem_map]
  constructor
  · rintro ⟨e, he, heq⟩
    obtain ⟨rfl, rfl⟩ := Prod.mk.inj heq
    exact ⟨e.1, rfl, mem_entries_iff.mp he⟩
  · rintro ⟨j, rfl, hj⟩
    exact ⟨(j, v), mem_entries_iff.mpr hj, rfl⟩

theorem get?_relocate (t : Table Span α) (k : Span) :
    (t.relocate φ).get? (k.relocate φ) = t.get? k := by
  ext v
  rw [get?_relocate_eq_some_iff]
  constructor
  · rintro ⟨j, hj, hv⟩
    rwa [Span.relocate_inj.mp hj] at hv
  · intro hv
    exact ⟨k, rfl, hv⟩

theorem relocate_insert (t : Table Span α) (k : Span) (v : α) :
    (t.insert k v).relocate φ = (t.relocate φ).insert (k.relocate φ) v := by
  apply ext_get?
  intro x
  by_cases hx : ∃ j : Span, j.relocate φ = x
  · obtain ⟨j, rfl⟩ := hx
    rw [get?_relocate, get?_insert, get?_insert, get?_relocate]
    simp only [Span.relocate_inj]
  · have hnone : ∀ t : Table Span α, (t.relocate φ).get? x = none := by
      intro t
      rw [Option.eq_none_iff_forall_ne_some]
      intro v hv
      obtain ⟨j, hj, -⟩ := get?_relocate_eq_some_iff.mp hv
      exact hx ⟨j, hj⟩
    have hk : x ≠ k.relocate φ := fun h => hx ⟨k, h.symm⟩
    rw [hnone, get?_insert, if_neg hk, hnone]

theorem relocate_refl (t : Table Span α) : t.relocate .refl = t := by
  apply ext_get?
  intro k
  exact get?_relocate t k

end Table

def LeafTables.relocate (φ : Relocation) (t : LeafTables) : LeafTables :=
  ⟨t.scopes, t.commandFrames.relocate φ, t.targets.relocate φ, t.references.relocate φ⟩

def ImportEntry.relocate (φ : Relocation) (i : ImportEntry) : ImportEntry :=
  { i with span := i.span.relocate φ }

def DeclarationEntry.relocate (φ : Relocation) (d : DeclarationEntry) : DeclarationEntry :=
  { d with span := d.span.relocate φ }

def ConfigurationEntry.relocate (φ : Relocation) (c : ConfigurationEntry) : ConfigurationEntry :=
  { c with span := c.span.relocate φ }

namespace Symbols

variable {φ : Relocation}

def relocate (φ : Relocation) (s : Symbols) : Symbols :=
  { s with
    imports := s.imports.map (ImportEntry.relocate φ)
    declarations := s.declarations.map (DeclarationEntry.relocate φ)
    configuration := s.configuration.map (ConfigurationEntry.relocate φ)
    tables := s.tables.relocate φ }

theorem import?_relocate (s : Symbols) (name : String) :
    (s.relocate φ).import? name = (s.import? name).map (ImportEntry.relocate φ) := by
  simp only [import?, relocate, List.find?_map]
  rfl

theorem declaration?_relocate (s : Symbols) (name : String) :
    (s.relocate φ).declaration? name = (s.declaration? name).map (DeclarationEntry.relocate φ) := by
  simp only [declaration?, relocate, List.find?_map]
  rfl

@[simp] theorem hasConfiguration_relocate (s : Symbols) (name : String) :
    (s.relocate φ).hasConfiguration name = s.hasConfiguration name := by
  simp only [hasConfiguration, relocate, List.any_map]
  rfl

theorem leafOf?_relocate (s : Symbols) (name : String) :
    (s.relocate φ).leafOf? name = s.leafOf? name := by
  simp only [leafOf?, declaration?_relocate]
  cases s.declaration? name with
  | none => rfl
  | some d =>
    simp only [Option.map_some, Option.bind_eq_bind, Option.bind_some, import?_relocate]
    change ((s.import? d.importName).map (ImportEntry.relocate φ)).bind _ = _
    cases s.import? d.importName <;> rfl

theorem map_mark {α : Type} {f g : α → α} {p : α → Bool} (hp : ∀ a, p (g a) = p a)
    (hmark : ∀ a, f (g a) = g (f a)) (xs : List α) :
    (xs.map g).map (fun a => if p a then f a else a) =
      (xs.map fun a => if p a then f a else a).map g := by
  rw [List.map_map, List.map_map]
  refine List.map_congr_left fun a _ => ?_
  simp only [Function.comp_apply, hp]
  by_cases h : p a = true
  · rw [if_pos h, if_pos h, hmark]
  · rw [if_neg h, if_neg h]

theorem relocate_useImport (s : Symbols) (name : String) :
    (s.relocate φ).useImport name = (s.useImport name).relocate φ := by
  have h := map_mark (g := ImportEntry.relocate φ) (f := fun i => { i with used := true })
    (p := fun i => i.localName = name) (fun _ => rfl) (fun _ => rfl) s.imports
  simp only [decide_eq_true_eq] at h
  simp only [useImport, relocate, h]

theorem relocate_useDeclaration (s : Symbols) (name : String) :
    (s.relocate φ).useDeclaration name = (s.useDeclaration name).relocate φ := by
  have h := map_mark (g := DeclarationEntry.relocate φ) (f := fun d => { d with used := true })
    (p := fun d => d.name = name) (fun _ => rfl) (fun _ => rfl) s.declarations
  simp only [decide_eq_true_eq] at h
  simp only [useDeclaration, relocate, h]

theorem relocate_useConfiguration (s : Symbols) (name : String) :
    (s.relocate φ).useConfiguration name = (s.useConfiguration name).relocate φ := by
  have h := map_mark (g := ConfigurationEntry.relocate φ) (f := fun c => { c with used := true })
    (p := fun c => c.name = name) (fun _ => rfl) (fun _ => rfl) s.configuration
  simp only [decide_eq_true_eq] at h
  simp only [useConfiguration, relocate, h]

end Symbols

theorem NameSet.ofIdents_relocate (φ : Relocation) (ids : List Ident) :
    NameSet.ofIdents (ids.map (Ident.relocate φ)) = NameSet.ofIdents ids := by
  rw [NameSet.ofIdents, Ident.map_name_relocate, NameSet.ofIdents]

theorem SignalType.ofClause_relocate (φ : Relocation) (clause : SignalClause) :
    SignalType.ofClause (clause.relocate φ) = SignalType.ofClause clause := by
  cases clause <;> simp only [SignalClause.relocate, ofClause, NameSet.ofIdents_relocate]

def Finding.relocate (φ : Relocation) (f : Finding) : Finding := ⟨f.span.relocate φ, f.problem⟩

theorem duplicatesAfter_relocate (φ : Relocation) (seen : List String) (ids : List Ident) :
    duplicatesAfter seen (ids.map (Ident.relocate φ)) =
      (duplicatesAfter seen ids).map (Ident.relocate φ) := by
  induction ids generalizing seen with
  | nil => rfl
  | cons id ids ih =>
    simp only [List.map_cons, duplicatesAfter, Ident.name_relocate, ih]
    split <;> rfl

theorem duplicates_relocate (φ : Relocation) (ids : List Ident) :
    duplicates (ids.map (Ident.relocate φ)) = (duplicates ids).map (Ident.relocate φ) :=
  duplicatesAfter_relocate φ [] ids

namespace Resolution

variable {φ : Relocation} {log : List LogEvent}

def relocate (φ : Relocation) (log : List LogEvent) (r : Resolution) : Resolution :=
  ⟨r.symbols.relocate φ, r.findings.map (Finding.relocate φ), log⟩

@[simp] theorem symbols_relocate (r : Resolution) :
    (r.relocate φ log).symbols = r.symbols.relocate φ := rfl

theorem foldl_relocate {α : Type} {f f' : Resolution → α → Resolution} {g : α → α}
    (h : ∀ r a, f' (r.relocate φ log) (g a) = (f r a).relocate φ log) (xs : List α)
    (r : Resolution) :
    (xs.map g).foldl f' (r.relocate φ log) = (xs.foldl f r).relocate φ log := by
  induction xs generalizing r with
  | nil => rfl
  | cons x xs ih => rw [List.map_cons, List.foldl_cons, h, ih, List.foldl_cons]

theorem relocate_report (r : Resolution) (span : Span) (problem : Problem) :
    (r.relocate φ log).report (span.relocate φ) problem =
      (r.report span problem).relocate φ log := by
  simp [report, relocate, Finding.relocate]

theorem relocate_reportAll (r : Resolution) (findings : List Finding) :
    (r.relocate φ log).reportAll (findings.map (Finding.relocate φ)) =
      (r.reportAll findings).relocate φ log := by
  simp [reportAll, relocate]

theorem relocate_reportIf (r : Resolution) (wrong : Bool) (span : Span) (problem : Problem) :
    (r.relocate φ log).reportIf wrong (span.relocate φ) problem =
      (r.reportIf wrong span problem).relocate φ log := by
  cases wrong
  · rfl
  · exact relocate_report r span problem

theorem relocate_withSymbols {s : Symbols} :
    { r.relocate φ log with symbols := s.relocate φ } = { r with symbols := s }.relocate φ log :=
  rfl

theorem duplicateFindings_relocate (clause : Clause) (ids : List Ident) :
    duplicateFindings clause (ids.map (Ident.relocate φ)) =
      (duplicateFindings clause ids).map (Finding.relocate φ) := by
  rw [duplicateFindings, duplicateFindings, duplicates_relocate, List.map_map, List.map_map]
  rfl

theorem clauseFindings_relocate (clause : Clause) (signals : SignalClause) :
    clauseFindings clause (signals.relocate φ) =
      (clauseFindings clause signals).map (Finding.relocate φ) := by
  cases signals with
  | flat names => exact duplicateFindings_relocate clause names
  | pair top bottom =>
    simp only [SignalClause.relocate, clauseFindings, duplicateFindings_relocate, List.map_append]

theorem isPairClause_relocate (clause : SignalClause) :
    isPairClause (clause.relocate φ) = isPairClause clause := by
  cases clause <;> rfl

theorem relocate_addConfiguration (r : Resolution) (id : Ident) :
    (r.relocate φ log).addConfiguration (id.relocate φ) =
      (r.addConfiguration id).relocate φ log := by
  simp only [addConfiguration, symbols_relocate, Symbols.hasConfiguration_relocate,
    Ident.name_relocate]
  split
  · rfl
  · simp [relocate, Symbols.relocate, ConfigurationEntry.relocate, Ident.relocate]

theorem relocate_checkHeader (c : Component) (file : String) (r : Resolution) :
    (r.relocate φ log).checkHeader (c.relocate φ) file = (r.checkHeader c file).relocate φ log := by
  have hname : (c.relocate φ).name = c.name.relocate φ := rfl
  have hinputs : (c.relocate φ).inputs = c.inputs.relocate φ := rfl
  have houtputs : (c.relocate φ).outputs = c.outputs.relocate φ := rfl
  have hspan : (c.relocate φ).span = c.span.relocate φ := rfl
  have hnamespan : (c.name.relocate φ).span = c.name.span.relocate φ := rfl
  have hconfiguration : (c.relocate φ).configuration = c.configuration.map (Ident.relocate φ) := rfl
  simp only [checkHeader, hname, hnamespan, hinputs, houtputs, hspan, hconfiguration,
    Ident.name_relocate, Component.isLeaf_relocate, isPairClause_relocate, clauseFindings_relocate,
    duplicateFindings_relocate, relocate_reportIf, relocate_reportAll,
    foldl_relocate relocate_addConfiguration]
  split <;> rfl

theorem relocate_useConfiguration (r : Resolution) (id : Ident) (unknown : Problem) :
    (r.relocate φ log).useConfiguration (id.relocate φ) unknown =
      (r.useConfiguration id unknown).relocate φ log := by
  simp only [useConfiguration, symbols_relocate, Symbols.hasConfiguration_relocate,
    Ident.name_relocate]
  split
  · rw [Symbols.relocate_useConfiguration]
    rfl
  · exact relocate_report r id.span unknown

theorem relocate_useSource (r : Resolution) (operand : Operand) :
    (r.relocate φ log).useSource (operand.relocate φ) = (r.useSource operand).relocate φ log := by
  cases operand with
  | ident id | state id => exact relocate_useConfiguration r id _
  | literal lit => rfl

theorem relocate_checkSetting (leaf : Option (LeafSignature × String)) (r : Resolution)
    (m : Mapping) :
    (r.relocate φ log).checkSetting leaf (m.relocate φ) =
      (r.checkSetting leaf m).relocate φ log := by
  have hsource : (r.relocate φ log).useSource (m.source.relocate φ) =
      (r.useSource m.source).relocate φ log :=
    relocate_useSource r m.source
  cases leaf with
  | none => exact hsource
  | some leaf =>
    simp only [checkSetting, Mapping.relocate, hsource, Ident.name_relocate]
    exact relocate_reportIf _ _ _ _

theorem missingSettings_relocate (leaf : Option (LeafSignature × String)) (d : Declaration) :
    missingSettings leaf (d.relocate φ) = missingSettings leaf d := by
  obtain ⟨_, _, withClause, _⟩ := d
  cases withClause with
  | none => rfl
  | some settings =>
    cases leaf with
    | none => rfl
    | some leaf =>
      simp only [Declaration.relocate, Option.map_some, missingSettings, List.any_map]
      rfl

theorem componentOf?_relocate (s : Symbols) (name : String) :
    componentOf? (s.relocate φ) name = componentOf? s name := by
  rw [componentOf?, componentOf?, Symbols.import?_relocate]
  cases s.import? name with
  | none => rfl
  | some i =>
    obtain ⟨_, _, _, kind, _⟩ := i
    cases kind <;> rfl

theorem relocate_checkDeclaration (r : Resolution) (d : Declaration) :
    (r.relocate φ log).checkDeclaration (d.relocate φ) = (r.checkDeclaration d).relocate φ log := by
  have hname : (d.relocate φ).name = d.name.relocate φ := rfl
  have hcomponent : (d.relocate φ).component = d.component.relocate φ := rfl
  have hcomponentspan : (d.component.relocate φ).span = d.component.span.relocate φ := rfl
  have hspan : (d.relocate φ).span = d.span.relocate φ := rfl
  simp only [checkDeclaration, hname, hcomponent, hcomponentspan, hspan, Ident.name_relocate,
    symbols_relocate, componentOf?_relocate, Symbols.relocate_useImport, missingSettings_relocate,
    Declaration.settings_relocate, relocate_withSymbols, relocate_reportIf,
    foldl_relocate (relocate_checkSetting _)]

theorem relocate_addDeclaration (r : Resolution) (index : Nat) (d : Declaration) :
    (r.relocate φ log).addDeclaration index (d.relocate φ) =
      (r.addDeclaration index d).relocate φ log := by
  have hname : (d.relocate φ).name.name = d.name.name := rfl
  simp only [addDeclaration, relocate_checkDeclaration, symbols_relocate,
    Symbols.declaration?_relocate, hname, Option.isSome_map]
  split
  · rfl
  · simp [relocate, Symbols.relocate, DeclarationEntry.relocate, Declaration.relocate,
      Ident.relocate]

theorem relocate_addDeclarations (ds : List Declaration) (r : Resolution) :
    (r.relocate φ log).addDeclarations (ds.map (Declaration.relocate φ)) =
      (r.addDeclarations ds).relocate φ log := by
  have hnames : (ds.map (Declaration.relocate φ)).map Declaration.name =
      (ds.map Declaration.name).map (Ident.relocate φ) := by
    rw [List.map_map, List.map_map]
    rfl
  let add (r : Resolution) (x : Declaration × Nat) : Resolution := r.addDeclaration x.2 x.1
  have hadd : ∀ r x, add (r.relocate φ log) (Prod.map (Declaration.relocate φ) id x) =
      (add r x).relocate φ log :=
    fun r x => relocate_addDeclaration r x.2 x.1
  rw [addDeclarations, addDeclarations, hnames, duplicateFindings_relocate, relocate_reportAll,
    List.zipIdx_map]
  exact foldl_relocate hadd ds.zipIdx _

theorem relocate_markState (r : Resolution) (operand : Operand) :
    (r.relocate φ log).markState (operand.relocate φ) = (r.markState operand).relocate φ log := by
  cases operand with
  | state id =>
    simp only [Operand.relocate, markState, symbols_relocate, Ident.name_relocate,
      Symbols.relocate_useConfiguration]
    rfl
  | ident | literal => rfl

theorem relocate_resolveArrow (e : Arrow) (r : Resolution) :
    (r.relocate φ log).resolveArrow (e.relocate φ) = (r.resolveArrow e).relocate φ log := by
  induction e generalizing r with
  | compose _ _ _ ihl ihr | pairUp _ _ _ ihl ihr | fanOut _ _ _ ihl ihr =>
    simp only [Arrow.relocate, resolveArrow, ihl, ihr]
  | choose condition _ _ _ iht ihf =>
    simp only [Arrow.relocate, resolveArrow, Condition.terminals_relocate,
      foldl_relocate relocate_markState, iht, ihf]
  | first _ _ ih | second _ _ ih | paren _ _ ih => exact ih r
  | use id span =>
    simp only [Arrow.relocate, resolveArrow, symbols_relocate, Symbols.declaration?_relocate,
      Ident.name_relocate, Option.isSome_map, Symbols.relocate_useDeclaration]
    split
    · rfl
    · exact relocate_report r id.span _
  | split | merge | wire | wirePair | failed => rfl

theorem unused_relocate {ε : Type} {g : ε → ε} {p : ε → Bool} {f : ε → Finding}
    (hused : ∀ e, p (g e) = p e) (hfinding : ∀ e, f (g e) = (f e).relocate φ) (es : List ε) :
    ((es.map g).filter fun e => !p e).map f =
      ((es.filter fun e => !p e).map f).map (Finding.relocate φ) := by
  rw [List.filter_map, List.map_map, List.map_map]
  simp only [Function.comp_def, hused, hfinding]

theorem relocate_reportUnused (r : Resolution) :
    (r.relocate φ log).reportUnused = r.reportUnused.relocate φ log := by
  have himports := unused_relocate (φ := φ) (g := ImportEntry.relocate φ) (p := ImportEntry.used)
    (f := fun i => ⟨i.span, .unusedImport i.path⟩) (fun _ => rfl) (fun _ => rfl) r.symbols.imports
  have hdeclarations := unused_relocate (φ := φ) (g := DeclarationEntry.relocate φ)
    (p := DeclarationEntry.used) (f := fun d => ⟨d.span, .unusedComponent d.name⟩)
    (fun _ => rfl) (fun _ => rfl) r.symbols.declarations
  have hconfiguration := unused_relocate (φ := φ) (g := ConfigurationEntry.relocate φ)
    (p := ConfigurationEntry.used) (f := fun c => ⟨c.span, .unusedConfiguration c.name⟩)
    (fun _ => rfl) (fun _ => rfl) r.symbols.configuration
  simp only [reportUnused, symbols_relocate, Symbols.relocate, himports, hdeclarations,
    hconfiguration, relocate_reportAll]

theorem relocate_withTables {f f' : LeafTables → LeafTables}
    (h : ∀ t : LeafTables, f' (t.relocate φ) = (f t).relocate φ) (r : Resolution) :
    (r.relocate φ log).withTables f' = (r.withTables f).relocate φ log := by
  simp [withTables, relocate, Symbols.relocate, h]

theorem relocate_pushFrame (r : Resolution) :
    (r.relocate φ log).pushFrame = r.pushFrame.relocate φ log :=
  rfl

theorem relocate_popFrame (r : Resolution) :
    (r.relocate φ log).popFrame = r.popFrame.relocate φ log :=
  rfl

theorem relocate_refer (r : Resolution) (span : Span) (ref : Reference) :
    (r.relocate φ log).refer (span.relocate φ) ref = (r.refer span ref).relocate φ log :=
  relocate_withTables (fun t => by simp [LeafTables.relocate, Table.relocate_insert]) r

theorem relocate_enterCommand (r : Resolution) (span : Span) :
    (r.relocate φ log).enterCommand (span.relocate φ) = (r.enterCommand span).relocate φ log :=
  relocate_withTables (fun t => by simp [LeafTables.relocate, Table.relocate_insert]) r

theorem relocate_readState (r : Resolution) (id : Ident) (unknown : Problem) :
    (r.relocate φ log).readState (id.relocate φ) unknown =
      (r.readState id unknown).relocate φ log := by
  simp only [readState, symbols_relocate, Symbols.hasConfiguration_relocate, Ident.name_relocate,
    Symbols.relocate_useConfiguration]
  split
  · exact relocate_refer { r with symbols := r.symbols.useConfiguration id.name } id.span .state
  · exact relocate_report r id.span unknown

variable (c : Component)

theorem meaning?_relocate (r : Resolution) (name : String) :
    (r.relocate φ log).meaning? (c.relocate φ) name = r.meaning? c name := by
  have hinputs : (c.relocate φ).inputs.contains name = c.inputs.contains name :=
    SignalClause.contains_relocate φ c.inputs name
  simp only [meaning?, hinputs]
  rfl

theorem relocate_readName (r : Resolution) (id : Ident) (unknown : Problem) :
    readName (c.relocate φ) (r.relocate φ log) (id.relocate φ) unknown =
      (readName c r id unknown).relocate φ log := by
  simp only [readName, meaning?_relocate, Ident.name_relocate]
  cases r.meaning? c id.name with
  | some ref => exact relocate_refer r id.span ref
  | none => exact relocate_report r id.span unknown

theorem relocate_readOperand {unknownState unknownName : Ident → Problem}
    (hstate : ∀ id : Ident, unknownState (id.relocate φ) = unknownState id)
    (hname : ∀ id : Ident, unknownName (id.relocate φ) = unknownName id) (r : Resolution)
    (operand : Operand) :
    readOperand (c.relocate φ) unknownState unknownName (r.relocate φ log) (operand.relocate φ) =
      (readOperand c unknownState unknownName r operand).relocate φ log := by
  cases operand with
  | state id =>
    simp only [Operand.relocate, readOperand, hstate]
    exact relocate_readState r id _
  | ident id =>
    simp only [Operand.relocate, readOperand, hname]
    exact relocate_readName c r id _
  | literal lit => exact relocate_refer r lit.span .literal

theorem relocate_assign (r : Resolution) (target : Ident) :
    assign (c.relocate φ) (r.relocate φ log) (target.relocate φ) =
      (assign c r target).relocate φ log := by
  have hinputs : (c.relocate φ).inputs.contains target.name = c.inputs.contains target.name :=
    SignalClause.contains_relocate φ c.inputs target.name
  have houtputs : (c.relocate φ).outputs.contains target.name = c.outputs.contains target.name :=
    SignalClause.contains_relocate φ c.outputs target.name
  have hspan : (target.relocate φ).span = target.span.relocate φ := rfl
  simp only [assign, Ident.name_relocate, hinputs, houtputs, hspan, relocate_reportIf]
  generalize (r.reportIf (c.inputs.contains target.name) target.span
    (.writtenInput target.name)).reportIf
    (c.outputs.contains target.name) target.span (.writtenOutput target.name) = r'
  have hscopes : (r'.relocate φ log).symbols.tables.scopes = r'.symbols.tables.scopes := rfl
  rw [hscopes]
  cases r'.symbols.tables.scopes.bind? target.name with
  | none => exact relocate_report r' target.span _
  | some bound =>
    exact relocate_withTables (fun t => by simp [LeafTables.relocate, Table.relocate_insert]) r'

theorem calleeFinding?_relocate (s : Symbols) (call : Call) :
    calleeFinding? (s.relocate φ) (call.relocate φ) =
      (calleeFinding? s call).map (Finding.relocate φ) := by
  have harity : ∀ f, arityProblem? (call.relocate φ) f = arityProblem? call f := by
    intro f
    simp [arityProblem?, Call.relocate, Call.qualifiedName]
  have hpackage : (call.relocate φ).package.name = call.package.name := rfl
  have hfunction : (call.relocate φ).function.name = call.function.name := rfl
  rw [calleeFinding?, calleeFinding?, hpackage, Symbols.import?_relocate]
  cases s.import? call.package.name with
  | none => rfl
  | some entry =>
    obtain ⟨_, _, _, kind, _⟩ := entry
    cases kind with
    | component leaf => rfl
    | package functions =>
      simp only [Option.map_some, ImportEntry.relocate, hfunction]
      cases functions.get? call.function.name with
      | none => rfl
      | some f =>
        simp only [harity, Option.map_map]
        rfl

theorem relocate_resolveCall (r : Resolution) (call : Call) :
    resolveCall (c.relocate φ) (r.relocate φ log) (call.relocate φ) =
      (resolveCall c r call).relocate φ log := by
  have hpackage : (call.relocate φ).package.name = call.package.name := rfl
  have harguments : (call.relocate φ).arguments = call.arguments.map (Operand.relocate φ) := rfl
  have htoList : ∀ o : Option Finding,
      (o.map (Finding.relocate φ)).toList = o.toList.map (Finding.relocate φ) := by
    intro o
    cases o <;> rfl
  simp only [resolveCall, symbols_relocate, calleeFinding?_relocate, htoList, hpackage, harguments,
    Symbols.relocate_useImport, relocate_withSymbols, relocate_reportAll]
  exact foldl_relocate (relocate_readOperand c (fun _ => rfl) fun _ => rfl) call.arguments _

theorem relocate_resolveCondition (r : Resolution) (condition : Condition) :
    resolveCondition (c.relocate φ) (r.relocate φ log) (condition.relocate φ) =
      (resolveCondition c r condition).relocate φ log := by
  rw [resolveCondition, resolveCondition, Condition.terminals_relocate]
  exact foldl_relocate (relocate_readOperand c (fun _ => rfl) fun _ => rfl) condition.terminals _

theorem relocate_resolveBranchResult (r : Resolution) (result : BranchResult) :
    resolveBranchResult (c.relocate φ) (r.relocate φ log) (result.relocate φ) =
      (resolveBranchResult c r result).relocate φ log := by
  cases result with
  | unit span => rfl
  | value operand =>
    cases operand with
    | ident id =>
      have houtputs : (c.relocate φ).outputs.contains id.name = c.outputs.contains id.name :=
        SignalClause.contains_relocate φ c.outputs id.name
      simp only [BranchResult.relocate, Operand.relocate, resolveBranchResult, Ident.name_relocate,
        houtputs]
      split
      · exact relocate_report r id.span _
      · exact relocate_readName c r id _
    | literal lit => exact relocate_refer r lit.span .literal
    | state id => exact relocate_readState r id _

theorem relocate_resolveLetBinding (r : Resolution) (b : LetBinding) :
    resolveLetBinding (c.relocate φ) (r.relocate φ log) (b.relocate φ) =
      (resolveLetBinding c r b).relocate φ log := by
  simp only [resolveLetBinding, LetBinding.relocate, relocate_resolveCall, relocate_assign]

theorem relocate_assignTarget (target : Option Ident) (r : Resolution) :
    assignTarget (c.relocate φ) (target.map (Ident.relocate φ)) (r.relocate φ log) =
      (assignTarget c target r).relocate φ log := by
  cases target with
  | none => rfl
  | some id => exact relocate_assign c r id

theorem relocate_resolveCommands :
    (∀ command r, resolveCommand (c.relocate φ) (command.relocate φ) (r.relocate φ log) =
      (resolveCommand c command r).relocate φ log) ∧
    (∀ block r, resolveBlock (c.relocate φ) (block.relocate φ) (r.relocate φ log) =
      (resolveBlock c block r).relocate φ log) ∧
    ∀ commands r, resolveCommands (c.relocate φ) (relocateCommands φ commands) (r.relocate φ log) =
      (resolveCommands c commands r).relocate φ log := by
  refine Command.induct ?call ?letIn ?branch ?failed ?block ?nil ?cons
  case call =>
    intro target call span r
    simp only [Command.relocate, resolveCommand, relocate_enterCommand, relocate_resolveCall,
      relocate_assignTarget]
  case letIn =>
    intro target bindings body span r
    simp only [Command.relocate, resolveCommand, relocate_enterCommand, relocate_pushFrame,
      foldl_relocate (relocate_resolveLetBinding c), relocate_resolveCall, relocate_popFrame,
      relocate_assignTarget]
  case branch =>
    intro target condition onTrue onFalse span iht ihf r
    simp only [Command.relocate, resolveCommand, relocate_enterCommand, relocate_resolveCondition,
      relocate_pushFrame, iht, ihf, relocate_popFrame, relocate_assignTarget]
  case failed =>
    intro span r
    simp only [Command.relocate, resolveCommand, relocate_enterCommand]
  case block =>
    intro commands result span ih r
    simp only [Block.relocate, resolveBlock, ih, relocate_resolveBranchResult]
  case nil =>
    intro r
    rfl
  case cons =>
    intro command commands ihc ihs r
    simp only [relocateCommands, resolveCommands, ihc, ihs]

theorem relocate_resolveReturns (seen : List String) (ms : List ReturnMapping) (r : Resolution) :
    resolveReturns (c.relocate φ) seen (ms.map (ReturnMapping.relocate φ)) (r.relocate φ log) =
      (resolveReturns c seen ms r).relocate φ log := by
  induction ms generalizing seen r with
  | nil => rfl
  | cons m ms ih =>
    have houtputs : (c.relocate φ).outputs.contains m.target.name =
        c.outputs.contains m.target.name :=
      SignalClause.contains_relocate φ c.outputs m.target.name
    have hspan : (m.target.relocate φ).span = m.target.span.relocate φ := rfl
    have hread : ∀ r operand,
        readOperand (c.relocate φ) unknownReturnedState unknownReturnedName
          (Resolution.relocate φ log r) (operand.relocate φ) =
          (readOperand c unknownReturnedState unknownReturnedName r operand).relocate φ log :=
      relocate_readOperand c (fun _ => rfl) (fun _ => rfl)
    simp only [List.map_cons, resolveReturns, ReturnMapping.relocate, Ident.name_relocate, houtputs,
      hspan, relocate_reportIf, hread, ih]

theorem relocate_checkReturns (body : DoBlock) (r : Resolution) :
    checkReturns (c.relocate φ) (body.relocate φ) (r.relocate φ log) =
      (checkReturns c body r).relocate φ log := by
  have htargets : (body.relocate φ).returns.map ReturnMapping.target =
      (body.returns.map ReturnMapping.target).map (Ident.relocate φ) := by
    rw [DoBlock.relocate, List.map_map, List.map_map]
    rfl
  have hduplicate : ∀ ids : List Ident,
      (ids.map (Ident.relocate φ)).map (fun id => Finding.mk id.span (.duplicateReturn id.name)) =
        (ids.map fun id => ⟨id.span, .duplicateReturn id.name⟩).map (Finding.relocate φ) := by
    intro ids
    rw [List.map_map, List.map_map]
    rfl
  have hnames : (c.relocate φ).outputs.names = c.outputs.names.map (Ident.relocate φ) :=
    SignalClause.names_relocate φ c.outputs
  have hreturned : ∀ name, ((body.relocate φ).returns.any fun m => m.target.name = name) =
      body.returns.any fun m => m.target.name = name := by
    intro name
    rw [DoBlock.relocate, List.any_map]
    rfl
  have hmissing : ∀ ids : List Ident,
      (ids.map (Ident.relocate φ)).map
        (fun id => Finding.mk (body.relocate φ).returnSpan (.missingReturn id.name)) =
        (ids.map fun id => ⟨body.returnSpan, .missingReturn id.name⟩).map (Finding.relocate φ) := by
    intro ids
    rw [List.map_map, List.map_map]
    rfl
  simp only [checkReturns, htargets, duplicates_relocate, hduplicate, hnames, hreturned,
    List.filter_map, Function.comp_def, Ident.name_relocate, hmissing, relocate_reportAll]
  rfl

theorem relocate_resolveLeaf (body : DoBlock) (r : Resolution) :
    resolveLeaf (c.relocate φ) (body.relocate φ) (r.relocate φ log) =
      (resolveLeaf c body r).relocate φ log := by
  simp only [resolveLeaf, DoBlock.relocate, (relocate_resolveCommands c).2.2]
  have hcheck : ∀ r, checkReturns (c.relocate φ) (body.relocate φ) (Resolution.relocate φ log r) =
      (checkReturns c body r).relocate φ log := relocate_checkReturns c body
  simp only [DoBlock.relocate] at hcheck
  rw [hcheck, relocate_resolveReturns]

def imported (registry : Registry) (files : FileTree) (isLeaf : Bool) (path : String) :
    ImportKind × List Problem :=
  if isLeaf then packageImport path (registry.functions files path).2
  else componentImport path (registry.component files path).2

theorem addImport_taken {registry : Registry} {files : FileTree} {isLeaf : Bool}
    (h : (r.symbols.import? i.localName.name).isSome = true) :
    r.addImport registry files isLeaf i =
      r.report i.localName.span (.duplicateAlias i.localName.name) := by
  simp only [addImport, h, if_true]

theorem exists_addImport_fresh (registry : Registry) (files : FileTree) (isLeaf : Bool)
    (h : (r.symbols.import? i.localName.name).isSome = false) :
    ∃ log, r.addImport registry files isLeaf i =
      ⟨{ r.symbols with
          imports := r.symbols.imports ++
            [⟨i.localName.name, i.path.name, i.span, (imported registry files isLeaf i.path.name).1,
              false⟩] },
        r.findings ++ (imported registry files isLeaf i.path.name).2.map (Finding.mk i.span),
        log⟩ := by
  cases isLeaf
  · exact ⟨_, by simp only [addImport, h, imported]; rfl⟩
  · exact ⟨_, by simp only [addImport, h, imported]; rfl⟩

variable {registry registry' : Registry} {files files' : FileTree} {isLeaf : Bool}

theorem relocate_addImport (r : Resolution) (log : List LogEvent)
    (h : imported registry' files' isLeaf i.path.name =
      imported registry files isLeaf i.path.name) :
    ∃ log', (r.relocate φ log).addImport registry' files' isLeaf (i.relocate φ) =
      (r.addImport registry files isLeaf i).relocate φ log' := by
  have himport := Symbols.import?_relocate (φ := φ) r.symbols i.localName.name
  cases htaken : (r.symbols.import? i.localName.name).isSome with
  | true =>
    have htaken' : ((r.relocate φ log).symbols.import? (i.relocate φ).localName.name).isSome =
        true := by
      rw [symbols_relocate, Import.relocate, Ident.name_relocate, himport, Option.isSome_map,
        htaken]
    rw [addImport_taken htaken, addImport_taken htaken']
    exact ⟨log, relocate_report r i.localName.span _⟩
  | false =>
    have htaken' : ((r.relocate φ log).symbols.import? (i.relocate φ).localName.name).isSome =
        false := by
      rw [symbols_relocate, Import.relocate, Ident.name_relocate, himport, Option.isSome_map,
        htaken]
    obtain ⟨_, heq⟩ := exists_addImport_fresh registry files isLeaf htaken
    obtain ⟨log', heq'⟩ := exists_addImport_fresh registry' files' isLeaf htaken'
    have hpath : (i.relocate φ).path.name = i.path.name := rfl
    refine ⟨log', ?_⟩
    rw [heq, heq', hpath, h]
    simp [relocate, Symbols.relocate, ImportEntry.relocate, Import.relocate, Finding.relocate]

theorem relocate_addImports {imports : List Import}
    (h : ∀ i ∈ imports, imported registry' files' isLeaf i.path.name =
      imported registry files isLeaf i.path.name)
    (r : Resolution) (log : List LogEvent) :
    ∃ log', (imports.map (Import.relocate φ)).foldl (addImport registry' files' isLeaf)
      (r.relocate φ log) = (imports.foldl (addImport registry files isLeaf) r).relocate φ log' := by
  induction imports generalizing r log with
  | nil => exact ⟨log, rfl⟩
  | cons i imports ih =>
    obtain ⟨log', hi⟩ := relocate_addImport (φ := φ) r log (h i List.mem_cons_self)
    rw [List.map_cons, List.foldl_cons, hi, List.foldl_cons]
    exact ih (fun j hj => h j (List.mem_cons_of_mem i hj)) _ log'

theorem relocate_start (c : Component) : start (c.relocate φ) = (start c).relocate φ [] := by
  have hinputs := SignalType.ofClause_relocate φ c.inputs
  have houtputs := SignalType.ofClause_relocate φ c.outputs
  simp only [start, Component.relocate, hinputs, houtputs]
  rfl

end Resolution

namespace Program

variable {φ : Relocation} {p : Program} {registry registry' : Registry} {files files' : FileTree}

theorem exists_declared_relocate (file : String)
    (h : ∀ i ∈ p.imports, Resolution.imported registry' files' p.component.isLeaf i.path.name =
      Resolution.imported registry files p.component.isLeaf i.path.name) :
    ∃ log, (p.relocate φ).declared file registry' files' = (p.declared file registry files).relocate
      φ log := by
  obtain ⟨log, himports⟩ := Resolution.relocate_addImports (φ := φ) h (.start p.component) []
  refine ⟨log, ?_⟩
  have hcomponent : (p.relocate φ).component = p.component.relocate φ := rfl
  have hlist : (p.relocate φ).imports = p.imports.map (Import.relocate φ) := rfl
  have hdeclarations : (p.component.relocate φ).declarations =
      p.component.declarations.map (Declaration.relocate φ) := rfl
  rw [declared, declared, hcomponent, hlist, hdeclarations, Component.isLeaf_relocate,
    Resolution.relocate_start, himports, Resolution.relocate_checkHeader,
    Resolution.relocate_addDeclarations]

theorem exists_resolve_relocate (φ : Relocation) (file : String)
    (h : ∀ i ∈ p.imports, Resolution.imported registry' files' p.component.isLeaf i.path.name =
      Resolution.imported registry files p.component.isLeaf i.path.name) :
    ∃ log, (p.relocate φ).resolve file registry' files' = (p.resolve file registry files).relocate φ
      log := by
  obtain ⟨log, hdeclared⟩ := exists_declared_relocate (φ := φ) file h
  refine ⟨log, ?_⟩
  cases hdef : p.component.definition with
  | arrow e =>
    have hdef' : (p.relocate φ).component.definition = .arrow (e.relocate φ) :=
      congrArg (Definition.relocate φ) hdef
    rw [resolve_arrow hdef, resolve_arrow hdef', hdeclared, Resolution.relocate_resolveArrow,
      Resolution.relocate_reportUnused]
  | leaf body =>
    have hdef' : (p.relocate φ).component.definition = .leaf (body.relocate φ) :=
      congrArg (Definition.relocate φ) hdef
    have hcomponent : (p.relocate φ).component = p.component.relocate φ := rfl
    rw [resolve_leaf hdef, resolve_leaf hdef', hdeclared, hcomponent,
      Resolution.relocate_resolveLeaf, Resolution.relocate_reportUnused]

end Program

end PipelineLang
