import PipelineLang.Grammar.Program
import PipelineLang.Proofs.Grammar.Taking.Arrow

/-! Leaf bodies and whole programs are read by their rules. -/

namespace PipelineLang

variable {ds : List Declaration}

theorem CommandPhrase.ne_nil {ts : List Lexeme} {c : Command} (h : CommandPhrase ts c) :
    ts ≠ [] := by
  cases h with
  | call _ hcall =>
    cases hcall
    simp
  | letIn => simp
  | branch => simp

theorem DeclarationPhrase.begins {ts : List Lexeme} {d : Declaration} (h : DeclarationPhrase ts d) :
    ∃ name, ∀ rest, nextToken (ts ++ rest) = some (.ident name) := by
  cases h with
  | mk hname =>
    cases hname with
    | @mk l name hl => exact ⟨name, fun rest => by simp [hl]⟩

theorem DefinitionPhrase.begins {ts : List Lexeme} {d : Definition}
    (h : DefinitionPhrase ts ds d) :
    ∃ word, word ≠ .configuration ∧ ∀ rest, nextToken (ts ++ rest) = some (.keyword word) := by
  cases h with
  | arrow hds hw =>
    cases hds with
    | absent => exact ⟨.aliasAs, by simp, fun rest => by simp [hw]⟩
    | present hd => exact ⟨.declare, by simp, fun rest => by simp [hd]⟩
  | leaf hw => exact ⟨.doBlock, by simp, fun rest => by simp [hw]⟩

namespace Rule

variable {ts rest : List Lexeme}

theorem takes_call {c : Call} (h : CallPhrase ts c) : Takes call ts rest c := by
  cases h with
  | @mk l qualifier name ts arguments hl hargs =>
    have hlist : Takes (inParens (commaSeparated operand)) ts rest arguments := by
      refine takes_inParens hargs fun ts₁ closing rest₁ harguments hcl => ?_
      cases harguments with
      | none =>
        have hend : Refuses (commaSeparated1 operand) (closing :: rest₁) :=
          Refuses.bind (refuses_operand (by simp [hcl]) (by simp [hcl]) (by simp [hcl])).attempt
        exact hend.optional.map (f := fun found => found.getD [])
      | some hrow =>
        have hrow' : Takes (commaSeparated1 operand) ts₁ (closing :: rest₁) arguments :=
          takes_commaRow hrow (fun _ _ _ => takes_operand) (by simp [hcl])
        exact hrow'.optional.map (f := fun found => found.getD [])
    refine Takes.spanned (f := Call.mk _ _ arguments) ?_ (List.cons_ne_nil l ts)
    have hname : Takes callName [l] (ts ++ rest) _ := takes_accept (by rw [hl])
    exact Takes.bind hname hlist.map

theorem refuses_call {ahead : List Lexeme}
    (h : ∀ q name, nextToken ahead ≠ some (.qualified q name)) :
    Refuses call ahead := by
  refine Refuses.spanned (Refuses.bind (refuses_accept fun l hl => ?_))
  split
  · rename_i q name hq
    exact absurd (by rw [nextToken, hl, Option.map_some, hq]) (h q name)
  · rfl

theorem takes_assignee {id : Ident} (h : AssigneePhrase ts id) : Takes assignee ts rest id := by
  cases h with
  | mk hid hsign => exact (takes_ident hid).closed hsign

theorem refuses_assignee {ahead : List Lexeme} (h : ∀ name, nextToken ahead ≠ some (.ident name)) :
    Refuses assignee ahead :=
  Refuses.bind (refuses_ident h)

theorem takes_target {target : Option Ident} (h : TargetPhrase ts target)
    (hrest : ∀ name, nextToken rest ≠ some (.ident name)) :
    Takes (optional assignee) ts rest target := by
  cases h with
  | none => exact (refuses_assignee hrest).optional
  | some h => exact (takes_assignee h).optional

theorem takes_letBinding {b : LetBinding} (h : LetBindingPhrase ts b) :
    Takes letBinding ts rest b := by
  cases h with
  | mk htarget hcall =>
    refine Takes.spanned (f := LetBinding.mk _ _)
      (Takes.bind (takes_assignee htarget) (takes_call hcall).map) ?_
    cases htarget
    simp

theorem takes_letBindings {bs : List LetBinding} (h : Row LetBindingPhrase ts bs) (hne : bs ≠ [])
    (hrest : ∀ name, nextToken rest ≠ some (.ident name)) :
    Takes (many1 letBinding) ts rest bs := by
  have hstop : Refuses letBinding rest := Refuses.spanned (Refuses.bind (refuses_assignee hrest))
  cases h with
  | nil => exact absurd rfl hne
  | cons hb hbs =>
    refine Takes.many1 (takes_letBinding hb) ?_
    refine takes_row hbs (fun _ _ _ h _ _ => takes_letBinding h) ?_ hstop
    intro ts₁ b h
    cases h with
    | mk htarget _ =>
      cases htarget
      simp

theorem takes_branchResult {result : BranchResult} (h : BranchResultPhrase ts result) :
    Takes branchResult ts rest result := by
  cases h with
  | unit hw ho hcl =>
    refine Takes.behind hw (Takes.firstOf (Takes.spanned (f := BranchResult.unit) ?_ (by simp)))
    exact Takes.behind ho (Takes.behind hcl takes_pure)
  | @value word ts o hw h =>
    have hparen : nextToken (ts ++ rest) ≠ some (.symbol .openParen) := by
      cases h with
      | source h =>
        cases h with
        | ident h => cases h with | mk hl => simp [hl]
        | literal h => cases h with | mk hl => simp [hl]
      | state hmark => simp [hmark]
    refine Takes.behind hw (Refuses.firstOf (Refuses.spanned (Refuses.bind (refuses_token hparen)))
      ?_)
    exact (takes_operand h).map.firstOf

/-- Where a body returns, no command is read, and nothing is skipped as a wrong one. -/
theorem refuses_command (hnext : nextToken rest = some (.keyword .returnValue)) :
    Refuses command rest := by
  have hend : ∀ t, t ≠ .keyword .returnValue → nextToken rest ≠ some t := by
    rintro t ht heq
    exact ht (Option.some.inj (heq.symm.trans hnext))
  refine refuses_fix fun self => Refuses.recover (Refuses.spanned ?_)
    (Refuses.spanned (Refuses.bind ?_))
  · have htarget : Takes (optional assignee) [] rest none :=
      (refuses_assignee fun name => hend _ (by simp)).optional
    refine Takes.bind_refuses htarget (refuses_firstOf fun r hr => ?_)
    simp only [List.mem_cons, List.not_mem_nil, or_false] at hr
    rcases hr with rfl | rfl | rfl
    · exact Refuses.bind (refuses_token (hend _ (by simp)))
    · exact Refuses.bind (refuses_token (hend _ (by simp)))
    · exact Refuses.bind (refuses_call fun q name => hend _ (by simp))
  · refine refuses_accept fun l hl => if_pos ?_
    rw [nextToken, hl, Option.map_some] at hnext
    rw [Option.some.inj hnext]
    simp [commandEnds]

theorem takes_commands {self : Rule Command} {commands : List Command}
    (h : Row CommandPhrase ts commands)
    (hself : ∀ ts₁ rest₁ c, CommandPhrase ts₁ c → ts₁.length ≤ ts.length →
      ts₁.length + rest₁.length ≤ ts.length + rest.length → Takes self ts₁ rest₁ c)
    (hstop : Refuses self rest) : Takes (many self) ts rest commands :=
  takes_row h (fun ts₁ rest₁ c hc hlen hle => hself ts₁ rest₁ c hc hle hlen)
    (fun _ _ hc => hc.ne_nil) hstop

theorem takes_block {self : Rule Command} {b : Block} (h : BlockPhrase ts b)
    (hself : ∀ ts₁ rest₁ c, CommandPhrase ts₁ c → ts₁.length ≤ ts.length →
      ts₁.length + rest₁.length ≤ ts.length + rest.length → Takes self ts₁ rest₁ c)
    (hstop : ∀ rest₁, nextToken rest₁ = some (.keyword .returnValue) → Refuses self rest₁) :
    Takes (block self) ts rest b := by
  cases h with
  | @mk ts ts' commands result hcommands hresult =>
    have hreturn : nextToken (ts' ++ rest) = some (.keyword .returnValue) := by
      cases hresult with
      | unit hw => simp [hw]
      | value hw => simp [hw]
    have hne : ts ++ ts' ≠ [] := by
      cases hresult <;> simp
    refine Takes.spanned (f := Block.mk commands result) ?_ hne
    refine Takes.bind (takes_commands hcommands ?_ (hstop _ hreturn))
      (takes_branchResult hresult).map
    intro ts₁ rest₁ c hc hle hlen
    refine hself ts₁ rest₁ c hc ?_ ?_ <;> simp only [List.length_append] at * <;> omega

theorem takes_command {c : Command} (h : CommandPhrase ts c) : Takes command ts rest c := by
  generalize hk : ts.length = k
  induction k using Nat.strongRecOn generalizing ts rest c with
  | ind k ih =>
    subst hk
    refine takes_fix fun self hself => Takes.recover ?_
    have hinner : ∀ ts₁ rest₁ c, CommandPhrase ts₁ c → ts₁.length < ts.length →
        ts₁.length + rest₁.length < ts.length + rest.length → Takes self ts₁ rest₁ c :=
      fun ts₁ rest₁ c₁ h₁ hlt hlen => hself.takes ts₁ rest₁ c₁ hlen (ih ts₁.length hlt h₁ rfl)
    have hstop : ∀ rest₁, nextToken rest₁ = some (.keyword .returnValue) → Refuses self rest₁ :=
      fun rest₁ hnext => hself.refuses rest₁ (refuses_command hnext)
    cases h with
    | @call ts ts' target c htarget hcall =>
      obtain ⟨l, us, q, name, rfl, hl⟩ :
        ∃ l us q name, ts' = l :: us ∧ l.token = .qualified q name := by
        cases hcall with
        | mk hl => exact ⟨_, _, _, _, rfl, hl⟩
      refine Takes.spanned (f := Command.call target c)
        (Takes.bind (takes_target htarget (by simp [hl])) ?_) (by simp)
      refine Refuses.firstOf (Refuses.bind (refuses_token (by simp [hl])))
        (Refuses.firstOf (Refuses.bind
        (refuses_token (by simp [hl]))) (Takes.firstOf ?_))
      exact (takes_call hcall).map
    | @letIn ts ts₁ ts₂ target opening separator bindings body htarget ho hbindings hne hsep
        hbody =>
      refine Takes.spanned (f := Command.letIn target bindings body)
        (Takes.bind (takes_target htarget (by simp [ho])) (Takes.firstOf ?_)) (by simp)
      refine Takes.behind ho (Takes.bind (takes_letBindings hbindings hne (by simp [hsep])) ?_)
      exact Takes.behind hsep (takes_call hbody).map
    | @branch ts ts₁ ts₂ ts₃ target word onTrueWord onFalseWord closing c onTrue onFalse htarget hw
        hc hthen htrue helse hfalse hend =>
      refine Takes.spanned (f := Command.branch target c onTrue onFalse)
        (Takes.bind (takes_target htarget (by simp [hw])) ?_) (by simp)
      refine Refuses.firstOf (Refuses.bind (refuses_token (by simp [hw]))) (Takes.firstOf ?_)
      have hfollows : ConditionPhrase.Follows 9
          (onTrueWord :: (ts₂ ++ onFalseWord :: (ts₃ ++ [closing])) ++ rest) :=
        ConditionPhrase.follows_of_not_sign fun op => by cases op <;> simp [hthen, ConditionOp.sign]
      have htrue' : Takes (block self) ts₂ (onFalseWord :: (ts₃ ++ [closing]) ++ rest) onTrue := by
        refine takes_block htrue
          (fun us rest₁ c₁ h₁ hle hlen => hinner us rest₁ c₁ h₁ ?_ ?_) hstop <;>
          simp only [List.length_append, List.length_cons] at * <;> omega
      have hfalse' : Takes (block self) ts₃ ([closing] ++ rest) onFalse := by
        refine takes_block hfalse
          (fun us rest₁ c₁ h₁ hle hlen => hinner us rest₁ c₁ h₁ ?_ ?_) hstop <;>
          simp only [List.length_append, List.length_cons] at * <;> omega
      refine Takes.behind hw (Takes.bind (takes_condition hc hfollows) (Takes.behind hthen ?_))
      exact Takes.bind htrue' (Takes.behind helse
        (Takes.bind hfalse' (Takes.behind hend takes_pure)))

theorem takes_returnMapping {m : ReturnMapping} (h : ReturnMappingPhrase ts m) :
    Takes returnMapping ts rest m := by
  cases h with
  | mk htarget hsource =>
    refine Takes.spanned (f := ReturnMapping.mk _ _)
      (Takes.bind (takes_assignee htarget) (takes_operand hsource).map) ?_
    cases htarget
    simp

theorem takes_doBlock {body : DoBlock} (h : DoBlockPhrase ts body)
    (hstop : nextToken rest ≠ some (.symbol .comma)) : Takes doBlock ts rest body := by
  cases h with
  | @mk ts ts' word commands returns hcommands hw hreturns =>
    refine Takes.spanned (f := DoBlock.mk commands returns word.span) ?_ (by simp)
    have hread : Takes (many command) ts (word :: ts' ++ rest) commands :=
      takes_commands hcommands (fun _ _ _ hc _ _ => takes_command hc)
        (refuses_command (by simp [hw]))
    have hreturn : Takes (spanned do keyword .returnValue; return id) [word] (ts' ++ rest)
        word.span :=
      Takes.spanned (f := id) (Takes.behind hw takes_pure) (by simp)
    have hlist : Takes (commaSeparated1 returnMapping) ts' rest returns :=
      takes_commaRow hreturns (fun _ _ _ => takes_returnMapping) hstop
    exact Takes.bind hread (Takes.bind hreturn hlist.map)

theorem takes_identList {names : List Ident} (h : CommaRow IdentPhrase ts names)
    (hstop : nextToken rest ≠ some (.symbol .comma)) : Takes identList ts rest names :=
  takes_commaRow h (fun _ _ _ => takes_ident) hstop

theorem takes_signalClause {clause : SignalClause} (h : SignalClausePhrase ts clause)
    (hstop : nextToken rest ≠ some (.symbol .comma)) : Takes signalClause ts rest clause := by
  have henclosed : ∀ {ts names} {rest : List Lexeme}, Enclosed (CommaRow IdentPhrase) ts names →
      Takes (inParens identList) ts rest names :=
    fun h => takes_inParens h fun _ l _ hnames hl => takes_identList hnames (by simp [hl])
  cases h with
  | flat h =>
    have hparen : nextToken (ts ++ rest) ≠ some (.symbol .openParen) := by
      cases h with
      | single hid | cons hid => cases hid with | mk hl => simp [hl]
    refine Refuses.firstOf (Refuses.bind (Refuses.bind (refuses_token hparen))) (Takes.firstOf ?_)
    exact (takes_identList h hstop).map
  | pair htop hcomma hbottom =>
    refine Takes.firstOf (Takes.bind (henclosed htop) (Takes.behind hcomma ?_))
    exact (henclosed hbottom).map

theorem takes_declaration {d : Declaration} (h : DeclarationPhrase ts d)
    (hcomma : nextToken rest ≠ some (.symbol .comma))
    (hwith : nextToken rest ≠ some (.keyword .withMap)) :
    Takes declaration ts rest (some d) := by
  cases h with
  | @mk ts ts₁ ts₂ sign word name component withClause hname hsign hw hcomponent hclause =>
    have hread : Takes (optional do keyword .withMap; mappings) ts₂ rest withClause := by
      cases hclause with
      | absent => exact (Refuses.bind (refuses_token hwith)).optional
      | present hw hsettings => exact (Takes.behind hw (takes_mappings hsettings hcomma)).optional
    have hne : ts ++ sign :: word :: (ts₁ ++ ts₂) ≠ [] := by simp
    refine Takes.recover (Takes.spanned (f := fun span => some (Declaration.mk name component
      withClause span)) ?_
      hne)
    refine Takes.bind (takes_ident hname) (Takes.behind hsign (Takes.behind hw ?_))
    exact Takes.bind (takes_ident hcomponent) hread.map

theorem refuses_declaration (h : nextToken rest = some (.keyword .aliasAs)) :
    Refuses declaration rest := by
  refine Refuses.recover (Refuses.spanned (Refuses.bind (refuses_ident (by simp [h]))))
    (Refuses.bind ?_)
  refine refuses_accept fun l hl => if_pos ?_
  rw [nextToken, hl, Option.map_some] at h
  rw [Option.some.inj h]
  simp

theorem nextToken_declarations (h : Row DeclarationPhrase ts ds)
    (hrest : nextToken rest = some (.keyword .aliasAs)) :
    nextToken (ts ++ rest) = some (.keyword .aliasAs) ∨
    ∃ name, nextToken (ts ++ rest) = some (.ident name) := by
  cases h with
  | nil => exact .inl hrest
  | cons hd _ =>
    obtain ⟨name, hname⟩ := hd.begins
    exact .inr ⟨name, by rw [List.append_assoc, hname]⟩

theorem takes_declarations (h : Row DeclarationPhrase ts ds) (hne : ds ≠ [])
    (hrest : nextToken rest = some (.keyword .aliasAs)) :
    Takes (many1 declaration) ts rest (ds.map some) := by
  have hread : ∀ {ts₁ rest₁ d}, DeclarationPhrase ts₁ d →
      (nextToken rest₁ = some (.keyword .aliasAs) ∨ ∃ name, nextToken rest₁ = some (.ident name)) →
      Takes declaration ts₁ rest₁ (some d) := by
    rintro ts₁ rest₁ d hd (hnext | ⟨name, hnext⟩) <;> exact takes_declaration hd (by simp [hnext])
      (by simp [hnext])
  have hmany : ∀ {ts ds}, Row DeclarationPhrase ts ds →
      Takes (many declaration) ts rest (ds.map some) := by
    intro ts ds h
    induction h with
    | nil => exact (refuses_declaration hrest).many
    | @cons d ds ts ts' hd hds ih =>
      refine (hread hd (nextToken_declarations hds hrest)).many_cons ?_ ih
      rintro rfl
      obtain ⟨name, hname⟩ := hd.begins
      cases hname []
  cases h with
  | nil => exact absurd rfl hne
  | cons hd hds => exact Takes.many1 (hread hd (nextToken_declarations hds hrest)) (hmany hds)

theorem takes_definition {d : Definition} (h : DefinitionPhrase ts ds d) :
    Takes (firstOf [arrowDefinition, leafDefinition]) ts [] (ds, d) := by
  cases h with
  | @arrow ts ts' word ds e hds hw he =>
    have hdeclared : ∃ found, Takes (optional declarations) ts (word :: ts' ++ []) found ∧
        found.getD [] = ds := by
      cases hds with
      | absent => exact ⟨none, (Refuses.bind (refuses_token (by simp [hw]))).optional, rfl⟩
      | present hd hrow hne =>
        have hnext : nextToken (word :: ts' ++ []) = some (.keyword .aliasAs) := by simp [hw]
        have hread := (takes_declarations hrow hne hnext).map (f := fun found => found.filterMap id)
        rw [List.filterMap_map, Function.id_comp, List.filterMap_some] at hread
        exact ⟨some ds, (Takes.behind hd hread).optional, rfl⟩
    obtain ⟨found, hfound, rfl⟩ := hdeclared
    exact Takes.firstOf (Takes.bind hfound
      (Takes.behind hw (takes_arrow he fun s _ => by simp).map))
  | @leaf word ts body hw hbody =>
    have hnone : Takes (optional declarations) [] (word :: ts ++ []) none :=
      (Refuses.bind (refuses_token (by simp [hw]))).optional
    have harrow : Refuses arrowDefinition ([] ++ (word :: ts ++ [])) :=
      Takes.bind_refuses hnone (Refuses.bind (refuses_token (by simp [hw])))
    refine Refuses.firstOf harrow (Takes.firstOf ?_)
    exact Takes.behind hw (takes_doBlock hbody (by simp)).map

theorem takes_component {c : Component} (h : ComponentPhrase ts c) : Takes component ts [] c := by
  cases h with
  | @mk word inputsWord outputsWord ts ts₁ ts₂ ts₃ ts₄ name inputs outputs configuration
      declarations definition hw hname hin hinputs hout houtputs hconfiguration hdefinition =>
    refine Takes.spanned (f := Component.mk name inputs outputs configuration declarations
      definition) ?_
      (by simp [componentTokens])
    obtain ⟨t, hne, ht⟩ := hdefinition.begins
    have ht := ht []
    have hconfigured : ∃ found,
        Takes (optional do keyword .configuration; identList) ts₃ (ts₄ ++ []) found ∧
        found.getD [] = configuration := by
      cases hconfiguration with
      | absent =>
        exact ⟨none, (Refuses.bind (refuses_token (by rw [ht]; simpa using hne))).optional, rfl⟩
      | present hw hnames =>
        exact ⟨some configuration,
          (Takes.behind hw (takes_identList hnames (by rw [ht]; simp))).optional, rfl⟩
    have hcomma : nextToken (ts₃ ++ ts₄ ++ []) ≠ some (.symbol .comma) := by
      cases hconfiguration with
      | absent =>
        rw [List.nil_append, ht]
        simp
      | present hw _ => simp [hw]
    obtain ⟨found, hfound, rfl⟩ := hconfigured
    refine Takes.behind hw (Takes.bind (takes_ident hname) (Takes.behind hin ?_))
    refine Takes.bind (takes_signalClause hinputs (by simp [hout])) (Takes.behind hout ?_)
    refine Takes.bind (takes_signalClause houtputs hcomma) (Takes.bind hfound ?_)
    exact (takes_definition hdefinition).map
      (f := fun d => Component.mk name inputs outputs (found.getD []) d.1 d.2)

theorem takes_importClause {i : Import} (h : ImportPhrase ts i) : Takes importClause ts rest i := by
  cases h with
  | @mk word aliasWord ts ts' path localName hw hpath halias hname =>
    have hread : Takes modulePath ts (aliasWord :: ts' ++ rest) path := by
      cases hpath with
      | plain hid => exact (takes_ident hid).firstOf
      | dotted hl =>
        exact Refuses.firstOf (refuses_ident (by simp [hl]))
          (Takes.firstOf (takes_accept (by rw [hl])))
    refine Takes.spanned (f := Import.mk path localName) (Takes.behind hw ?_) (by simp)
    exact Takes.bind hread (Takes.behind halias (takes_ident hname).map)

theorem takes_finish : Takes finish [] [] () := by
  intro c t hc
  refine ⟨t, ?_, rfl⟩
  rw [Cursor.past_nil hc, finish, hc]
  rfl

theorem takes_program {p : Program} (h : ProgramPhrase ts p) : Takes program ts [] p := by
  cases h with
  | @mk ts ts' imports c himports hc =>
    have hword : nextToken (ts' ++ []) = some (.keyword .component) := by
      cases hc with
      | mk hw => simp [componentTokens, hw]
    have hstop : Refuses importClause (ts' ++ []) :=
      Refuses.spanned (Refuses.bind (refuses_token (by rw [hword]; simp)))
    have hread : Takes (many importClause) ts (ts' ++ []) imports := by
      refine takes_row himports (fun _ _ _ hi _ _ => takes_importClause hi) ?_ hstop
      intro ts₁ i hi
      cases hi
      simp
    have hne : ts ++ ts' ≠ [] := by
      rintro hnil
      rw [(List.append_eq_nil_iff.mp hnil).2] at hword
      cases hword
    refine Takes.spanned (f := Program.mk imports c) (Takes.bind hread ?_) hne
    have hend : Takes ((fun _ => Program.mk imports c) <$> finish) [] [] (Program.mk imports c) :=
      takes_finish.map
    have hbody : Takes (component >>= fun c => finish >>= fun _ => pure (Program.mk imports c))
        (ts' ++ []) []
        (Program.mk imports c) := Takes.bind (takes_component hc) hend
    rwa [List.append_nil] at hbody

end Rule

end PipelineLang
