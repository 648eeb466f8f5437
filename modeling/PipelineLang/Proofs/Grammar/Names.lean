import PipelineLang.Proofs.Grammar.Exactness

/-! The names of a program are spelled as words, since each of them is a token of its text. -/

namespace PipelineLang

variable {p : Program} {source : String} {body : DoBlock} {α : Type} {ts : List Lexeme}

theorem Row.exists_of_mem {Item : List Lexeme → α → Prop} {as : List α} (h : Row Item ts as) {a : α}
    (ha : a ∈ as) :
    ∃ us ⊆ ts, Item us a := by
  induction h with
  | nil => cases ha
  | cons hb _ ih =>
    rcases List.mem_cons.mp ha with rfl | ha
    · exact ⟨_, List.subset_append_left _ _, hb⟩
    · obtain ⟨us, hus, h⟩ := ih ha
      exact ⟨us, List.subset_append_of_subset_right _ hus, h⟩

theorem CommaRow.exists_of_mem {Item : List Lexeme → α → Prop} {as : List α}
    (h : CommaRow Item ts as) {a : α} (ha : a ∈ as) : ∃ us ⊆ ts, Item us a := by
  induction h with
  | single hb =>
    rw [List.mem_singleton] at ha
    exact ⟨_, List.Subset.refl _, ha ▸ hb⟩
  | cons hb _ _ ih =>
    rcases List.mem_cons.mp ha with rfl | ha
    · exact ⟨_, List.subset_append_left _ _, hb⟩
    · obtain ⟨us, hus, h⟩ := ih ha
      exact ⟨us, List.subset_append_of_subset_right _ (List.subset_cons_of_subset _ hus), h⟩

theorem Enclosed.exists_inside {Item : List Lexeme → α → Prop} {a : α} (h : Enclosed Item ts a) :
    ∃ us ⊆ ts, Item us a := by
  cases h with
  | mk _ h _ => exact ⟨_, List.subset_cons_of_subset _ (List.subset_append_left _ _), h⟩

/-- Every token spells its names, and no name is reserved. -/
def Spelled (ts : List Lexeme) : Prop :=
  ∀ l ∈ ts, l.Spelled ∧ ∀ name, l.token = .ident name → IsName name

theorem Spelled.mono {us : List Lexeme} (h : Spelled ts) (hus : us ⊆ ts) : Spelled us :=
  fun l hl => h l (hus hl)

theorem IdentPhrase.isName {id : Ident} (h : IdentPhrase ts id) (hs : Spelled ts) :
    IsName id.name := by
  cases h with
  | mk hl => exact (hs _ List.mem_cons_self).2 _ hl

theorem CommaRow.isName {ids : List Ident} (h : CommaRow IdentPhrase ts ids) (hs : Spelled ts) :
    ∀ id ∈ ids, IsName id.name := by
  intro id hid
  obtain ⟨us, hus, h⟩ := h.exists_of_mem hid
  exact h.isName (hs.mono hus)

theorem SignalClausePhrase.isName {clause : SignalClause} (h : SignalClausePhrase ts clause)
    (hs : Spelled ts) :
    ∀ id ∈ clause.names, IsName id.name := by
  have hinside : ∀ {us ids}, Enclosed (CommaRow IdentPhrase) us ids → Spelled us →
      ∀ id ∈ ids, IsName id.name := by
    intro us ids h hs
    obtain ⟨vs, hvs, h⟩ := h.exists_inside
    exact h.isName (hs.mono hvs)
  cases h with
  | flat h => exact h.isName hs
  | pair htop _ hbottom =>
    refine List.forall_mem_append.mpr ⟨hinside htop (hs.mono (List.subset_append_left _ _)), ?_⟩
    exact hinside hbottom (hs.mono
      (List.subset_append_of_subset_right _ (List.subset_cons_self _ _)))

theorem ConfigurationPhrase.isName {names : List Ident} (h : ConfigurationPhrase ts names)
    (hs : Spelled ts) :
    ∀ id ∈ names, IsName id.name := by
  cases h with
  | absent => exact List.forall_mem_nil _
  | present _ h => exact h.isName (hs.mono (List.subset_cons_self _ _))

theorem ImportPhrase.isName {i : Import} (h : ImportPhrase ts i) (hs : Spelled ts) :
    (∀ c ∈ i.path.name.toList, Munch.isWordPart c = true ∨ c = '.') ∧ IsName i.localName.name := by
  cases h with
  | @mk word aliasWord us vs path localName _ hpath _ hname =>
    have hs₁ : Spelled us := hs.mono (List.subset_cons_of_subset _ (List.subset_append_left _ _))
    have hs₂ : Spelled vs :=
      hs.mono (List.subset_cons_of_subset _
        (List.subset_append_of_subset_right _ (List.subset_cons_self _ _)))
    refine ⟨?_, hname.isName hs₂⟩
    cases hpath with
    | plain h => exact fun c hc => .inl ((h.isName hs₁).isWord.forall c hc)
    | @dotted l qualifier name hl =>
      obtain ⟨-, hname, hqualifier⟩ := (hs₁ l List.mem_cons_self).1.qualified qualifier name hl
      simp only [String.toList_append, List.forall_mem_append]
      exact ⟨⟨hqualifier, by simp⟩, fun c hc => .inl (hname.forall c hc)⟩

theorem DefinitionPhrase.isName {ds : List Declaration} {definition : Definition}
    (h : DefinitionPhrase ts ds definition) (hs : Spelled ts) : ∀ d ∈ ds, IsName d.name.name := by
  cases h with
  | leaf => exact List.forall_mem_nil _
  | arrow hds =>
    have hs := hs.mono (List.subset_append_left _ _)
    cases hds with
    | absent => exact List.forall_mem_nil _
    | present _ h =>
      intro d hd
      obtain ⟨us, hus, h⟩ := h.exists_of_mem hd
      have hs := (hs.mono (List.subset_cons_self _ _)).mono hus
      cases h with
      | mk hname => exact hname.isName (hs.mono (List.subset_append_left _ _))

theorem AssigneePhrase.isName {id : Ident} (h : AssigneePhrase ts id) (hs : Spelled ts) :
    IsName id.name := by
  cases h with
  | mk hid => exact hid.isName (hs.mono (List.subset_append_left _ _))

theorem TargetPhrase.isName {target : Option Ident} (h : TargetPhrase ts target) (hs : Spelled ts) :
    ∀ id ∈ target.toList, IsName id.name := by
  cases h with
  | none => exact List.forall_mem_nil _
  | some hid => exact List.forall_mem_singleton.mpr (hid.isName hs)

theorem isName_of_commands :
    (∀ command ts, CommandPhrase ts command → Spelled ts → ∀ id ∈ command.bound, IsName id.name) ∧
      (∀ block ts, BlockPhrase ts block → Spelled ts → ∀ id ∈ block.bound, IsName id.name) ∧
      ∀ commands ts, Row CommandPhrase ts commands → Spelled ts → ∀ id ∈ allBound commands,
      IsName id.name := by
  refine Command.induct ?call ?letIn ?branch ?failed ?block ?nil ?cons
  case call =>
    intro target call span ts h hs
    cases h with
    | call htarget => exact htarget.isName (hs.mono (List.subset_append_left _ _))
  case letIn =>
    intro target bindings body span ts h hs
    cases h with
    | @letIn us₁ us₂ us₃ _ opening separator _ _ htarget _ hbindings =>
      refine List.forall_mem_append.mpr ⟨List.forall_mem_map.mpr fun b hb => ?_,
        htarget.isName (hs.mono (List.subset_append_left _ _))⟩
      obtain ⟨vs, hvs, hb⟩ := hbindings.exists_of_mem hb
      have hs : Spelled vs := hs.mono fun l hl => by simp [hvs hl]
      cases hb with
      | mk htarget => exact htarget.isName (hs.mono (List.subset_append_left _ _))
  case branch =>
    intro target condition onTrue onFalse span iht ihf ts h hs
    cases h with
    | branch htarget _ _ _ htrue _ hfalse =>
      simp only [Command.bound, List.forall_mem_append]
      refine ⟨⟨iht _ htrue (hs.mono ?_), ihf _ hfalse (hs.mono ?_)⟩, htarget.isName (hs.mono ?_)⟩
      all_goals
        intro l hl
        simp [hl]
  case failed =>
    intro span ts h
    cases h
  case block =>
    intro commands result span ih ts h hs
    cases h with
    | mk hcommands => exact ih _ hcommands (hs.mono (List.subset_append_left _ _))
  case nil => exact fun ts _ _ => List.forall_mem_nil _
  case cons =>
    intro command commands ihc ihs ts h hs
    cases h with
    | cons hcommand hcommands =>
      exact List.forall_mem_append.mpr ⟨ihc _ hcommand (hs.mono (List.subset_append_left _ _)),
        ihs _ hcommands (hs.mono (List.subset_append_right _ _))⟩

theorem DefinitionPhrase.isName_bound {ds : List Declaration} {definition : Definition}
    (h : DefinitionPhrase ts ds definition) (hs : Spelled ts) (hleaf : definition = .leaf body) :
    ∀ id ∈ allBound body.commands, IsName id.name := by
  cases h with
  | arrow => cases hleaf
  | leaf _ h =>
    cases hleaf
    cases h with
    | mk hcommands =>
      exact isName_of_commands.2.2 _ _ hcommands
        (hs.mono (List.subset_cons_of_subset _ (List.subset_append_left _ _)))

theorem exists_callPhrase :
    (∀ command ts, CommandPhrase ts command → ∀ c ∈ command.calls, ∃ us ⊆ ts, CallPhrase us c) ∧
      (∀ block ts, BlockPhrase ts block → ∀ c ∈ block.calls, ∃ us ⊆ ts, CallPhrase us c) ∧
      ∀ commands ts, Row CommandPhrase ts commands → ∀ c ∈ callsOf commands, ∃ us ⊆ ts,
      CallPhrase us c := by
  refine Command.induct ?call ?letIn ?branch ?failed ?block ?nil ?cons
  case call =>
    intro target call span ts h
    cases h with
    | call _ hcall => exact List.forall_mem_singleton.mpr ⟨_, List.subset_append_right _ _, hcall⟩
  case letIn =>
    intro target bindings body span ts h
    cases h with
    | @letIn us₁ us₂ us₃ _ opening separator _ _ _ _ hbindings _ _ hbody =>
      refine List.forall_mem_append.mpr ⟨List.forall_mem_map.mpr fun b hb => ?_,
        List.forall_mem_singleton.mpr ⟨us₃, fun l hl => by simp [hl], hbody⟩⟩
      obtain ⟨vs, hvs, hb⟩ := hbindings.exists_of_mem hb
      cases hb with
      | mk _ hcall => exact ⟨_, fun l hl => by simp [hvs (List.mem_append_right _ hl)], hcall⟩
  case branch =>
    intro target condition onTrue onFalse span iht ihf ts h
    cases h with
    | branch _ _ _ _ htrue _ hfalse =>
      refine List.forall_mem_append.mpr ⟨fun c hc => ?_, fun c hc => ?_⟩
      · obtain ⟨us, hus, hcall⟩ := iht _ htrue c hc
        exact ⟨us, fun l hl => by simp [hus hl], hcall⟩
      · obtain ⟨us, hus, hcall⟩ := ihf _ hfalse c hc
        exact ⟨us, fun l hl => by simp [hus hl], hcall⟩
  case failed =>
    intro span ts h
    cases h
  case block =>
    intro commands result span ih ts h c hc
    cases h with
    | mk hcommands =>
      obtain ⟨us, hus, hcall⟩ := ih _ hcommands c hc
      exact ⟨us, List.subset_append_of_subset_left _ hus, hcall⟩
  case nil => exact fun ts _ => List.forall_mem_nil _
  case cons =>
    intro command commands ihc ihs ts h
    cases h with
    | cons hcommand hcommands =>
      refine List.forall_mem_append.mpr ⟨fun c hc => ?_, fun c hc => ?_⟩
      · obtain ⟨us, hus, hcall⟩ := ihc _ hcommand c hc
        exact ⟨us, List.subset_append_of_subset_left _ hus, hcall⟩
      · obtain ⟨us, hus, hcall⟩ := ihs _ hcommands c hc
        exact ⟨us, List.subset_append_of_subset_right _ hus, hcall⟩

theorem ProgramPhrase.isWord_function (h : ProgramPhrase ts p) (hs : Spelled ts)
    (hleaf : p.component.definition = .leaf body) :
    ∀ c ∈ callsOf body.commands, IsWord c.function.name := by
  cases h with
  | mk _ hcomponent =>
    cases hcomponent with
    | mk _ _ _ _ _ _ _ hdefinition =>
      cases hdefinition with
      | arrow => cases hleaf
      | leaf _ hbody =>
        cases hleaf
        cases hbody with
        | mk hcommands =>
          intro c hc
          obtain ⟨us, hus, hcall⟩ := exists_callPhrase.2.2 _ _ hcommands c hc
          cases hcall with
          | mk htoken =>
            refine ((hs _ ?_).1.qualified _ _ htoken).2.1
            have hmem := hus List.mem_cons_self
            simp [componentTokens, hmem]

/-- The names that a program gives to its signals, its configuration, its imports, its declarations
and its variables. -/
structure Program.Worded (p : Program) : Prop where
  imports : ∀ i ∈ p.imports, (∀ c ∈ i.path.name.toList, Munch.isWordPart c = true ∨ c = '.') ∧
    IsName i.localName.name
  inputs : ∀ id ∈ p.component.inputs.names, IsName id.name
  outputs : ∀ id ∈ p.component.outputs.names, IsName id.name
  configuration : ∀ id ∈ p.component.configuration, IsName id.name
  declarations : ∀ d ∈ p.component.declarations, IsName d.name.name
  bound : ∀ body, p.component.definition = .leaf body → ∀ id ∈ allBound body.commands,
    IsName id.name

theorem ProgramPhrase.worded (h : ProgramPhrase ts p) (hs : Spelled ts) : p.Worded := by
  cases h with
  | mk himports hcomponent =>
    cases hcomponent with
    | mk _ _ _ hinputs _ houtputs hconfiguration hdefinition =>
      have hs' := hs.mono (List.subset_append_right _ _)
      refine ⟨?_, hinputs.isName (hs'.mono ?_), houtputs.isName (hs'.mono ?_),
        hconfiguration.isName (hs'.mono ?_), hdefinition.isName (hs'.mono ?_),
        fun body => hdefinition.isName_bound (hs'.mono ?_)⟩
      · intro i hi
        obtain ⟨us, hus, h⟩ := himports.exists_of_mem hi
        exact h.isName (hs.mono (List.subset_append_of_subset_left _ hus))
      all_goals
        intro l hl
        simp [componentTokens, hl]

theorem Parsed.phrase_of_program (h : (ofSource source).program = some p)
    (hclean : (ofSource source).findings = []) :
    ProgramPhrase (Scan.ofSource source).lexemes p := by
  obtain ⟨-, q, hq⟩ := phrase_of_clean hclean
  have heq : q = p := Option.some.inj ((program_of_phrase hq).1.symm.trans h)
  exact heq ▸ hq

theorem Parsed.spelled_of_clean (hclean : (ofSource source).findings = []) :
    Spelled (Scan.ofSource source).lexemes := fun _ hl =>
  ⟨spelled_of_mem hl, fun _ => isName_of_mem (phrase_of_clean hclean).1 hl⟩

theorem Parsed.worded_of_clean (h : (ofSource source).program = some p)
    (hclean : (ofSource source).findings = []) : p.Worded :=
  (phrase_of_program h hclean).worded (spelled_of_clean hclean)

theorem Parsed.isWord_function_of_clean
    (h : (ofSource source).program = some p) (hclean : (ofSource source).findings = [])
    (hleaf : p.component.definition = .leaf body) :
    ∀ c ∈ callsOf body.commands, IsWord c.function.name :=
  (phrase_of_program h hclean).isWord_function (spelled_of_clean hclean) hleaf

end PipelineLang
