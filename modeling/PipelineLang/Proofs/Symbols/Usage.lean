import PipelineLang.Proofs.Leaf.Body
import PipelineLang.Proofs.Symbols.Resolution

/-! Passes over the parts of a program. Each step of a resolution marks just those entries of the
symbols whose names stand in the part that it goes through, and what it reports there are plain
problems. -/

namespace PipelineLang

/-- What a program introduces by a name, and may leave unused. -/
inductive Entity where
  | imported | declared | configured
deriving DecidableEq

structure Entry where
  name : String
  /-- What a warning calls it. -/
  shown : String
  span : Span
deriving DecidableEq

namespace Entry

/-- Marks an entry if its name is among those that are used. -/
def mark (names : List String) (e : Entry × Bool) : Entry × Bool :=
  (e.1, e.2 || names.contains e.1.name)

@[simp] theorem mark_nil : mark [] = id := by
  funext e
  simp [mark]

theorem mark_append (names names' : List String) :
    mark (names ++ names') = mark names' ∘ mark names := by
  funext e
  simp [mark, Bool.or_assoc]

theorem map_mark_singleton {es : List (Entry × Bool)} {name : String}
    (h : ∀ e ∈ es, e.1.name ≠ name) :
    es.map (mark [name]) = es := by
  refine (List.map_congr_left fun e he => ?_).trans (List.map_id es)
  simp [mark, h e he]

end Entry

/-- The entries of a kind, with their marks of use. -/
def Symbols.entries (s : Symbols) : Entity → List (Entry × Bool)
  | .imported => s.imports.map fun i => (⟨i.localName, i.path, i.span⟩, i.used)
  | .declared => s.declarations.map fun d => (⟨d.name, d.name, d.span⟩, d.used)
  | .configured => s.configuration.map fun c => (⟨c.name, c.name, c.span⟩, c.used)

namespace Arrow

/-- The operands that occur in the conditions of an expression. -/
def tested : Arrow → List Operand
  | compose left right _ | pairUp left right _ | fanOut left right _ => left.tested ++ right.tested
  | first inner _ | second inner _ | paren inner _ => inner.tested
  | choose condition onTrue onFalse _ => condition.operands ++ (onTrue.tested ++ onFalse.tested)
  | use _ _ | split _ | merge _ _ | wire _ _ | wirePair _ _ _ | failed _ => []

end Arrow

namespace Declaration

/-- The import that a declaration instantiates, and the configuration names that its with-clause
passes on. -/
def mentions (d : Declaration) : Entity → List String
  | .imported => [d.component.name]
  | .declared => []
  | .configured => d.settings.filterMap fun m => m.source.name?

end Declaration

/-- The names in a part of a definition with the given calls, components and operands. -/
def mentions (calls : List Call) (components : List Ident) (operands : List Operand) :
    Entity → List String
  | .imported => calls.map fun call => call.package.name
  | .declared => components.map Ident.name
  | .configured => operands.filterMap Operand.state?

theorem mentions_append (calls calls' : List Call) (components components' : List Ident)
    (operands operands' : List Operand) (k : Entity) :
    mentions (calls ++ calls') (components ++ components') (operands ++ operands') k =
      mentions calls components operands k ++ mentions calls' components' operands' k := by
  cases k <;> simp [mentions]

namespace Definition

def mentions : Definition → Entity → List String
  | arrow expression => PipelineLang.mentions [] expression.components expression.tested
  | leaf body => PipelineLang.mentions (callsOf body.commands) [] body.operands

end Definition

/-- Does the problem tell that something is not used? -/
def Problem.tellsUnused : Problem → Bool
  | unusedImport _ | unusedComponent _ | unusedConfiguration _ => true
  | _ => false

/-- Is the problem that a clause has a name twice? -/
def Problem.tellsDuplicate : Problem → Bool
  | duplicateName _ _ => true
  | _ => false

/-- A problem of the program other than a name that is repeated or not used. -/
def Problem.isPlain (problem : Problem) : Bool :=
  problem.ofProgram && !problem.tellsDuplicate && !problem.tellsUnused

theorem Problem.isPlain_iff {problem : Problem} : problem.isPlain = true ↔
    problem.ofProgram = true ∧ problem.tellsDuplicate = false ∧ problem.tellsUnused = false := by
  simp [isPlain, and_assoc]

def Entity.only (k : Entity) (name : String) (k' : Entity) : List String :=
  if k' = k then [name] else []

namespace Symbols

theorem entries_useImport (s : Symbols) (name : String) (k : Entity) :
    (s.useImport name).entries k =
      (s.entries k).map (Entry.mark (Entity.imported.only name k)) := by
  cases k with
  | imported =>
    simp only [entries, useImport, List.map_map, Entity.only, if_true]
    refine List.map_congr_left fun i _ => ?_
    by_cases h : i.localName = name <;> simp [Entry.mark, h]
  | declared | configured => simp [Entity.only, entries, useImport]

theorem entries_useDeclaration (s : Symbols) (name : String) (k : Entity) :
    (s.useDeclaration name).entries k =
      (s.entries k).map (Entry.mark (Entity.declared.only name k)) := by
  cases k with
  | declared =>
    simp only [entries, useDeclaration, List.map_map, Entity.only, if_true]
    refine List.map_congr_left fun d _ => ?_
    by_cases h : d.name = name <;> simp [Entry.mark, h]
  | imported | configured => simp [Entity.only, entries, useDeclaration]

theorem entries_useConfiguration (s : Symbols) (name : String) (k : Entity) :
    (s.useConfiguration name).entries k =
      (s.entries k).map (Entry.mark (Entity.configured.only name k)) := by
  cases k with
  | configured =>
    simp only [entries, useConfiguration, List.map_map, Entity.only, if_true]
    refine List.map_congr_left fun c _ => ?_
    by_cases h : c.name = name <;> simp [Entry.mark, h]
  | imported | declared => simp [Entity.only, entries, useConfiguration]

end Symbols

namespace Resolution

/-- A step that marks the names in question, and says of nothing that it is not used. -/
structure Marks (names : Entity → List String) (r r' : Resolution) : Prop where
  entries : ∀ k, r'.symbols.entries k = (r.symbols.entries k).map (Entry.mark (names k))
  findings : ∀ f ∈ r'.findings, f ∈ r.findings ∨ f.problem.tellsUnused = false

variable {names names' : Entity → List String} {r r' r'' : Resolution} {c : Component}

namespace Marks

theorem refl (r : Resolution) : Marks (fun _ => []) r r :=
  ⟨fun k => by simp, fun _ hf => .inl hf⟩

theorem trans (h : Marks names r r') (h' : Marks names' r' r'') :
    Marks (fun k => names k ++ names' k) r r'' where
  entries k := by rw [h'.entries, h.entries, List.map_map, Entry.mark_append]
  findings f hf := by
    rcases h'.findings f hf with hf | hf
    · exact h.findings f hf
    · exact .inr hf

theorem reportAll (h : Marks names r r') {findings : List Finding}
    (hf : ∀ f ∈ findings, f.problem.tellsUnused = false) :
    Marks names r (r'.reportAll findings) where
  entries := h.entries
  findings f hmem := by
    rcases List.mem_append.mp hmem with hmem | hmem
    · exact h.findings f hmem
    · exact .inr (hf f hmem)

theorem report (h : Marks names r r') (span : Span) (problem : Problem)
    (hp : problem.tellsUnused = false) :
    Marks names r (r'.report span problem) :=
  h.reportAll (List.forall_mem_singleton.mpr hp)

theorem reportIf (h : Marks names r r') (wrong : Bool) (span : Span) (problem : Problem)
    (hp : problem.tellsUnused = false) : Marks names r (r'.reportIf wrong span problem) := by
  cases wrong with
  | true => exact h.report span problem hp
  | false => exact h

end Marks

/-- What a pass over a part of a program may do: report plain problems, note what it finds in the
tables of a leaf, and mark the names in question. A name that no entry has need not be marked. -/
inductive Passes : (Entity → List String) → Resolution → Resolution → Prop where
  | refl (r : Resolution) : Passes (fun _ => []) r r
  | trans {names names' : Entity → List String} {r r' r'' : Resolution} :
      Passes names r r' → Passes names' r' r'' → Passes (fun k => names k ++ names' k) r r''
  | reports (r : Resolution) {findings : List Finding} :
      (∀ f ∈ findings, f.problem.isPlain = true) → Passes (fun _ => []) r (r.reportAll findings)
  | tables (r : Resolution) (f : LeafTables → LeafTables) : Passes (fun _ => []) r (r.withTables f)
  | useImport (r : Resolution) (name : String) :
      Passes (Entity.imported.only name) r { r with symbols := r.symbols.useImport name }
  | useDeclaration (r : Resolution) (name : String) :
      Passes (Entity.declared.only name) r { r with symbols := r.symbols.useDeclaration name }
  | useConfiguration (r : Resolution) (name : String) :
      Passes (Entity.configured.only name) r { r with symbols := r.symbols.useConfiguration name }
  | absent {r : Resolution} {k : Entity} {name : String} :
      (∀ e ∈ r.symbols.entries k, e.1.name ≠ name) → Passes (k.only name) r r

namespace Passes

theorem congr (h : Passes names r r') (hnames : ∀ k, names k = names' k) : Passes names' r r' := by
  rwa [← funext hnames]

theorem reportAll (h : Passes names r r') {findings : List Finding}
    (hf : ∀ f ∈ findings, f.problem.isPlain = true) :
    Passes names r (r'.reportAll findings) :=
  (h.trans (.reports r' hf)).congr fun _ => List.append_nil _

theorem report (h : Passes names r r') (span : Span) (problem : Problem)
    (hp : problem.isPlain = true) :
    Passes names r (r'.report span problem) :=
  h.reportAll (List.forall_mem_singleton.mpr hp)

theorem reportIf (h : Passes names r r') (wrong : Bool) (span : Span) (problem : Problem)
    (hp : problem.isPlain = true) : Passes names r (r'.reportIf wrong span problem) := by
  cases wrong with
  | true => exact h.report span problem hp
  | false => exact h

theorem withTables (h : Passes names r r') (f : LeafTables → LeafTables) :
    Passes names r (r'.withTables f) :=
  (h.trans (.tables r' f)).congr fun _ => List.append_nil _

theorem foldl {α : Type} {f : Resolution → α → Resolution} {g : α → Entity → List String}
    (hstep : ∀ r x, Passes (g x) r (f r x)) (xs : List α) (r : Resolution) :
    Passes (fun k => xs.flatMap fun x => g x k) r (xs.foldl f r) := by
  induction xs generalizing r with
  | nil => exact refl r
  | cons x xs ih => exact (hstep r x).trans (ih (f r x))

theorem marks (h : Passes names r r') : Marks names r r' := by
  induction h with
  | refl r => exact .refl r
  | trans _ _ ih ih' => exact ih.trans ih'
  | reports r hf =>
    exact (Marks.refl r).reportAll fun f hmem => (Problem.isPlain_iff.mp (hf f hmem)).2.2
  | tables r f => exact ⟨(Marks.refl r).entries, fun _ hf => .inl hf⟩
  | useImport r name => exact ⟨Symbols.entries_useImport r.symbols name, fun _ hf => .inl hf⟩
  | useDeclaration r name =>
    exact ⟨Symbols.entries_useDeclaration r.symbols name, fun _ hf => .inl hf⟩
  | useConfiguration r name =>
    exact ⟨Symbols.entries_useConfiguration r.symbols name, fun _ hf => .inl hf⟩
  | @absent r k name h =>
    refine ⟨fun k' => ?_, fun _ hf => .inl hf⟩
    by_cases hk : k' = k
    · rw [hk, Entity.only, if_pos rfl, Entry.map_mark_singleton h]
    · rw [Entity.only, if_neg hk, Entry.mark_nil, List.map_id]

end Passes

theorem absent_of_hasConfiguration {s : Symbols} {name : String}
    (h : ¬ s.hasConfiguration name = true) :
    ∀ e ∈ s.entries .configured, e.1.name ≠ name := by
  simpa [Symbols.entries, Symbols.hasConfiguration] using h

theorem passes_useSource (r : Resolution) (source : Operand) :
    Passes (fun k => if k = .configured then source.name?.toList else []) r
      (r.useSource source) := by
  have huse : ∀ id : Ident,
      Passes (Entity.configured.only id.name) r
        (r.useConfiguration id (.unknownConfiguration id.name)) := by
    intro id
    unfold useConfiguration
    split
    · exact .useConfiguration r id.name
    · rename_i habsent
      exact (Passes.absent (absent_of_hasConfiguration habsent)).report id.span _ rfl
  cases source with
  | ident id | state id => exact huse id
  | literal lit => exact (Passes.refl r).congr fun k => by simp [Operand.name?, Operand.ident?]

theorem passes_checkSetting (leaf : Option (LeafSignature × String)) (r : Resolution)
    (m : Mapping) :
    Passes (fun k => if k = .configured then m.source.name?.toList else []) r
      (r.checkSetting leaf m) := by
  have hsource := passes_useSource r m.source
  cases leaf with
  | none => exact hsource
  | some leaf => exact hsource.reportIf _ _ _ rfl

theorem passes_checkDeclaration (r : Resolution) (d : Declaration) :
    Passes d.mentions r (r.checkDeclaration d) := by
  have himport := (Passes.useImport r d.component.name).reportIf
    (componentOf? r.symbols d.component.name).isNone d.component.span
      (.unknownImport d.component.name) rfl
  have hsettings := himport.trans
    (Passes.foldl (passes_checkSetting (componentOf? r.symbols d.component.name)) d.settings _)
  refine (hsettings.reportIf _ _ _ rfl).congr fun k => ?_
  cases k with
  | imported | declared => simp [Declaration.mentions, Entity.only]
  | configured => simp [Declaration.mentions, Entity.only, List.filterMap_eq_flatMap_toList]

theorem passes_markState (r : Resolution) (operand : Operand) :
    Passes (mentions [] [] [operand]) r (r.markState operand) := by
  cases operand with
  | state id => exact (Passes.useConfiguration r id.name).congr fun k => by cases k <;> rfl
  | ident id | literal lit => exact (Passes.refl r).congr fun k => by cases k <;> rfl

theorem flatMap_mentions (operands : List Operand) (k : Entity) :
    (operands.flatMap fun operand => mentions [] [] [operand] k) = mentions [] [] operands k := by
  induction operands with
  | nil => cases k <;> rfl
  | cons operand operands ih =>
    rw [List.flatMap_cons, ih, ← mentions_append]
    rfl

theorem passes_resolveArrow (e : Arrow) (r : Resolution) :
    Passes (mentions [] e.components e.tested) r (r.resolveArrow e) := by
  induction e generalizing r with
  | compose _ _ _ ihl ihr | pairUp _ _ _ ihl ihr | fanOut _ _ _ ihl ihr =>
    exact ((ihl r).trans (ihr _)).congr fun k => (mentions_append [] [] _ _ _ _ k).symm
  | first _ _ ih | second _ _ ih | paren _ _ ih => exact ih r
  | choose condition _ _ _ iht ihf =>
    have hcondition := (Passes.foldl passes_markState condition.operands r).congr
      (flatMap_mentions condition.operands)
    rw [resolveArrow, Condition.terminals_eq]
    refine (hcondition.trans ((iht _).trans (ihf _))).congr fun k => ?_
    rw [← mentions_append, ← mentions_append]
    rfl
  | use id span =>
    have hname : ∀ k, Entity.declared.only id.name k = mentions [] [id] [] k := fun k => by
      cases k <;> rfl
    refine Passes.congr ?_ hname
    unfold resolveArrow
    split
    · exact .useDeclaration r id.name
    · rename_i habsent
      refine Passes.report (.absent ?_) id.span _ rfl
      simpa [Symbols.entries, Symbols.declaration?] using habsent
  | split | merge | wire | wirePair | failed =>
    exact (Passes.refl r).congr fun k => by cases k <;> rfl

section Leaf

variable {unknownState unknownName : Ident → Problem}

theorem passes_nothing (h : Passes (fun _ => []) r r') : Passes (mentions [] [] []) r r' :=
  h.congr fun k => by cases k <;> rfl

theorem passes_withTables (r : Resolution) (f : LeafTables → LeafTables) :
    Passes (mentions [] [] []) r (r.withTables f) :=
  passes_nothing (.tables r f)

theorem passes_readName (r : Resolution) (id : Ident) {unknown : Problem}
    (hu : unknown.isPlain = true) :
    Passes (mentions [] [] [.ident id]) r (readName c r id unknown) := by
  unfold readName
  split
  · exact passes_withTables r _
  · exact passes_nothing ((Passes.refl r).report id.span unknown hu)

theorem passes_readOperand (hs : ∀ id, (unknownState id).isPlain = true)
    (hn : ∀ id, (unknownName id).isPlain = true) (r : Resolution) (operand : Operand) :
    Passes (mentions [] [] [operand]) r (readOperand c unknownState unknownName r operand) := by
  cases operand with
  | ident id => exact passes_readName r id (hn id)
  | literal lit =>
    have hrefer : Passes (mentions [] [] []) r (r.refer lit.span .literal) := passes_withTables r _
    exact hrefer
  | state id =>
    have hname : ∀ k, Entity.configured.only id.name k = mentions [] [] [.state id] k := fun k => by
      cases k <;> rfl
    refine Passes.congr ?_ hname
    change Passes _ r (r.readState id (unknownState id))
    unfold readState
    split
    · exact (Passes.useConfiguration r id.name).withTables _
    · rename_i habsent
      exact (Passes.absent (absent_of_hasConfiguration habsent)).report id.span _ (hs id)

theorem passes_readOperands (hs : ∀ id, (unknownState id).isPlain = true)
    (hn : ∀ id, (unknownName id).isPlain = true) (operands : List Operand) (r : Resolution) :
    Passes (mentions [] [] operands) r
      (operands.foldl (readOperand c unknownState unknownName) r) :=
  (Passes.foldl (passes_readOperand hs hn) operands r).congr (flatMap_mentions operands)

theorem passes_assign (r : Resolution) (id : Ident) :
    Passes (mentions [] [] []) r (assign c r id) := by
  have hwritten := ((Passes.refl r).reportIf (c.inputs.contains id.name) id.span
    (.writtenInput id.name) rfl).reportIf
    (c.outputs.contains id.name) id.span (.writtenOutput id.name) rfl
  unfold assign
  dsimp only
  split
  · exact passes_nothing (hwritten.withTables _)
  · exact passes_nothing (hwritten.report id.span _ rfl)

theorem passes_assignTarget (target : Option Ident) (r : Resolution) :
    Passes (mentions [] [] []) r (assignTarget c target r) := by
  cases target with
  | none => exact passes_nothing (Passes.refl r)
  | some id => exact passes_assign r id

theorem isPlain_calleeFinding? (s : Symbols) (call : Call) :
    ∀ f ∈ (calleeFinding? s call).toList, f.problem.isPlain = true := by
  have harity : ∀ f p, arityProblem? call f = some p → p.isPlain = true := by
    intro f p hp
    simp only [arityProblem?] at hp
    split at hp <;> rw [Option.ite_none_right_eq_some, Option.some.injEq] at hp
    · rw [← hp.2]
      rfl
    · rw [← hp.2]
      rfl
  intro f hf
  rw [Option.mem_toList] at hf
  unfold calleeFinding? at hf
  split at hf
  · cases hf
    rfl
  · dsimp only at hf
    split at hf
    · cases hf
      rfl
    · obtain ⟨p, hp, rfl⟩ := Option.map_eq_some_iff.mp hf
      exact harity _ p hp

theorem passes_resolveCall (r : Resolution) (call : Call) :
    Passes (mentions [call] [] call.arguments) r (resolveCall c r call) := by
  have hcallee := (Passes.useImport r call.package.name).reportAll
    (isPlain_calleeFinding? r.symbols call)
  refine (hcallee.trans (passes_readOperands (fun _ => rfl) (fun _ => rfl) call.arguments _)).congr
    fun k => ?_
  cases k <;> rfl

theorem passes_resolveCondition (r : Resolution) (condition : Condition) :
    Passes (mentions [] [] condition.operands) r (resolveCondition c r condition) := by
  rw [resolveCondition, Condition.terminals_eq]
  exact passes_readOperands (fun _ => rfl) (fun _ => rfl) condition.operands r

theorem passes_resolveBranchResult (r : Resolution) (result : BranchResult) :
    Passes (mentions [] [] result.operands) r (resolveBranchResult c r result) := by
  unfold resolveBranchResult
  split
  · exact passes_nothing (Passes.refl r)
  · split
    · exact passes_nothing ((Passes.refl r).report _ _ rfl)
    · exact passes_readName r _ rfl
  · exact passes_readOperand (fun _ => rfl) (fun _ => rfl) r _

theorem Passes.follow {calls calls' : List Call} {operands operands' : List Operand}
    (h : Passes (mentions calls [] operands) r r')
    (h' : Passes (mentions calls' [] operands') r' r'') :
    Passes (mentions (calls ++ calls') [] (operands ++ operands')) r r'' :=
  (h.trans h').congr fun k => (mentions_append calls calls' [] [] operands operands' k).symm

theorem Passes.done {calls : List Call} {operands : List Operand}
    (h : Passes (mentions calls [] operands) r r') (h' : Passes (mentions [] [] []) r' r'') :
    Passes (mentions calls [] operands) r r'' := by
  simpa using h.follow h'

theorem passes_resolveLetBinding (r : Resolution) (b : LetBinding) :
    Passes (mentions [b.call] [] b.call.arguments) r (resolveLetBinding c r b) :=
  (passes_resolveCall r b.call).done (passes_assign _ b.target)

theorem passes_resolveLetBindings (bindings : List LetBinding) (r : Resolution) :
    Passes (mentions (bindings.map LetBinding.call) [] (bindings.flatMap fun b => b.call.arguments))
      r
      (bindings.foldl (resolveLetBinding c) r) := by
  induction bindings generalizing r with
  | nil => exact passes_nothing (Passes.refl r)
  | cons b bindings ih => exact (passes_resolveLetBinding r b).follow (ih _)

theorem passes_resolveCommands :
    (∀ command r, Passes (mentions command.calls [] command.operands) r
        (resolveCommand c command r)) ∧
    (∀ block r, Passes (mentions block.calls [] block.operands) r (resolveBlock c block r)) ∧
    ∀ commands r, Passes (mentions (callsOf commands) [] (operandsOf commands)) r
      (resolveCommands c commands r) := by
  have henter : ∀ (r : Resolution) span, Passes (mentions [] [] []) r (r.enterCommand span) :=
    fun r span => passes_withTables r _
  refine Command.induct ?call ?letIn ?branch ?failed ?block ?nil ?cons
  case call =>
    intro target call span r
    rw [resolveCommand]
    exact ((henter r span).follow (passes_resolveCall _ call)).done (passes_assignTarget target _)
  case letIn =>
    intro target bindings body span r
    have hopen : Passes (mentions [] [] []) r (r.enterCommand span).pushFrame :=
      (henter r span).done (passes_withTables _ _)
    have hbindings := hopen.follow (passes_resolveLetBindings (c := c) bindings _)
    have hbody := hbindings.follow (passes_resolveCall (c := c) _ body)
    rw [resolveCommand]
    exact (hbody.done (passes_withTables _ _)).done (passes_assignTarget target _)
  case branch =>
    intro target condition onTrue onFalse span iht ihf r
    have hcondition := (henter r span).follow
      (passes_resolveCondition (c := c) (r.enterCommand span) condition)
    have hblock : ∀ (block : Block) (r : Resolution),
        (∀ r, Passes (mentions block.calls [] block.operands) r (resolveBlock c block r)) →
          Passes (mentions block.calls [] block.operands) r
            (resolveBlock c block r.pushFrame).popFrame :=
      fun block r h => ((passes_withTables r _).follow (h _)).done (passes_withTables _ _)
    rw [resolveCommand]
    exact (hcondition.follow ((hblock onTrue _ iht).follow (hblock onFalse _ ihf))).done
      (passes_assignTarget target _)
  case failed =>
    intro span r
    rw [resolveCommand]
    exact henter r span
  case block =>
    intro commands result span ih r
    rw [resolveBlock]
    simpa [Block.calls, Block.operands] using (ih r).follow (passes_resolveBranchResult _ result)
  case nil =>
    intro r
    rw [resolveCommands]
    exact passes_nothing (Passes.refl r)
  case cons =>
    intro command commands ihc ihs r
    rw [resolveCommands]
    exact (ihc r).follow (ihs _)

theorem passes_resolveReturns (seen : List String) (returns : List ReturnMapping) (r : Resolution) :
    Passes (mentions [] [] (returns.map ReturnMapping.source)) r
      (resolveReturns c seen returns r) := by
  induction returns generalizing seen r with
  | nil => exact passes_nothing (Passes.refl r)
  | cons m returns ih =>
    have hforeign := passes_nothing ((Passes.refl r).reportIf
      (!c.outputs.contains m.target.name && !seen.contains m.target.name) m.target.span
      (.unknownReturn m.target.name) rfl)
    exact (hforeign.follow (passes_readOperand (fun _ => rfl) (fun _ => rfl) _ m.source)).follow
      (ih _ _)

theorem passes_resolveLeaf (body : DoBlock) (r : Resolution) :
    Passes (mentions (callsOf body.commands) [] body.operands) r (r.resolveLeaf c body) := by
  have hcommands := (passes_resolveCommands (c := c)).2.2 body.commands r
  have hchecked : Passes _ r (checkReturns c body (resolveCommands c body.commands r)) :=
    (hcommands.reportAll (List.forall_mem_map.mpr fun _ _ => rfl)).reportAll
      (List.forall_mem_map.mpr fun _ _ => rfl)
  have hreturns := hchecked.follow (passes_resolveReturns (c := c) [] body.returns _)
  rwa [List.append_nil] at hreturns

end Leaf

end Resolution

end PipelineLang
