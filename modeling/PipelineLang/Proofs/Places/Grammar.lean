import PipelineLang.Grammar.Program
import PipelineLang.Proofs.Places.Rule

/-! The rules of the grammar lay the trees of what they read, also where they recover from what is
wrong. -/

namespace PipelineLang

variable {source : String} {s : Bool}

namespace Lexeme.Stands

variable {l : Lexeme}

theorem leaf (h : l.Stands source) {name : Option String} (hname : ∀ word ∈ name, l.text = word) :
    Stand source l.span.start l.span.stop [.node l.span name []] := by
  refine stand_nil.named h.start_lt_stop fun word hword => ?_
  rw [← hname word hword]
  exact h.cuts

theorem halves (h : l.Stands source) {qualifier name : String}
    (hl : l.token = .qualified qualifier name) :
    Stand source l.span.start l.span.stop
      [.node ⟨l.span.start, l.span.start + qualifier.utf8ByteSize⟩ qualifier [],
       .node ⟨l.span.start + qualifier.utf8ByteSize + 1, l.span.stop⟩ name []] := by
  obtain ⟨before, after, hcuts⟩ := h.cuts
  obtain ⟨htext, hspelled, -⟩ := h.spelled.qualified qualifier name hl
  obtain ⟨d, ds, hname, -⟩ := hspelled
  have hbytes : qualifier.utf8ByteSize = utf8Length qualifier.toList := by
    rw [← utf8ByteSize_ofList, String.ofList_toList]
  have hsplit : l.text.toList = qualifier.toList ++ '.' :: name.toList := by
    rw [htext, String.toList_append, String.toList_append, List.append_assoc]
    rfl
  have hdot : '.'.utf8Size = 1 := rfl
  have hstart := hcuts.start
  have hstop := hcuts.stop
  rw [hsplit, utf8Length_append, utf8Length_append, utf8Length_cons, hdot] at hstop
  have hqualifier : 0 < utf8Length qualifier.toList :=
    utf8Length_pos fun hnil => h.qualifier hl (String.toList_eq_nil_iff.mp hnil)
  have hnamePos : 0 < utf8Length name.toList :=
    utf8Length_pos (by rw [hname]; exact List.cons_ne_nil _ _)
  have hfirst : (⟨l.span.start, l.span.start + qualifier.utf8ByteSize⟩ : Span).Cuts source.toList
      before
      qualifier.toList ('.' :: (name.toList ++ after)) := by
    refine ⟨?_, hstart, ?_⟩
    · rw [hcuts.text, hsplit, List.append_assoc, List.cons_append]
    · rw [utf8Length_append, hbytes, hstart]
  have hsecond : (⟨l.span.start + qualifier.utf8ByteSize + 1, l.span.stop⟩ : Span).Cuts
      source.toList
      (before ++ (qualifier.toList ++ ['.'])) name.toList after := by
    refine ⟨?_, ?_, ?_⟩
    · rw [hcuts.text, hsplit]
      simp
    · simp only [utf8Length_append, utf8Length_cons, utf8Length_nil, hdot, hbytes, hstart]
      omega
    · simp only [utf8Length_append, utf8Length_cons, utf8Length_nil, hdot, hstop]
      omega
  have hword : ∀ {span : Span} {word : String},
      (∃ before after, span.Cuts source.toList before word.toList after) →
      ∀ other ∈ some word, ∃ before after, span.Cuts source.toList before other.toList after := by
    intro span word hcuts other hother
    cases hother
    exact hcuts
  have hleft := stand_nil.named (by dsimp only; omega) (hword ⟨_, _, hfirst⟩)
  have hright := stand_nil.named (by dsimp only; omega) (hword ⟨_, _, hsecond⟩)
  refine hleft.append hright ?_ ?_ ?_ <;> dsimp only <;> omega

end Lexeme.Stands

namespace Rule

theorem lays_ident : Lays source s ident (Gives fun id => [id.tree]) := by
  refine lays_accept fun l id hl h => ?_
  split at h
  · rename_i name htoken
    cases h
    refine ⟨_, rfl, hl.leaf ?_⟩
    intro word hword
    cases hword
    exact (hl.spelled.ident name htoken).1
  · cases h

theorem lays_modulePath : Lays source s modulePath (Gives fun id => [id.tree]) := by
  refine lays_firstOf fun r hr => ?_
  simp only [List.mem_cons, List.not_mem_nil, or_false] at hr
  rcases hr with rfl | rfl
  · exact lays_ident
  · refine lays_accept fun l id hl h => ?_
    split at h
    · rename_i qualifier name htoken
      cases h
      refine ⟨_, rfl, hl.leaf ?_⟩
      intro word hword
      cases hword
      exact (hl.spelled.qualified qualifier name htoken).1
    · cases h

theorem lays_callName : Lays source s callName (Gives fun x => [x.1.tree, x.2.tree]) := by
  refine lays_accept fun l x hl h => ?_
  split at h
  · rename_i qualifier name htoken
    cases h
    exact ⟨_, rfl, hl.halves htoken⟩
  · cases h

theorem lays_literal : Lays source s literal (Gives fun lit => [lit.tree]) := by
  refine lays_accept fun l lit hl h => ?_
  split at h
  · cases h
    refine ⟨_, rfl, hl.leaf ?_⟩
    intro word hword
    cases hword
  · cases h

theorem lays_identOrLiteral : Lays source s identOrLiteral (Gives fun o => [o.tree]) := by
  refine lays_firstOf fun r hr => ?_
  simp only [List.mem_cons, List.not_mem_nil, or_false] at hr
  rcases hr with rfl | rfl
  · exact lays_literal.map fun _ _ h => h
  · exact lays_ident.map fun _ _ h => h

theorem lays_operand : Lays source s operand (Gives fun o => [o.tree]) := by
  refine lays_firstOf fun r hr => ?_
  simp only [List.mem_cons, List.not_mem_nil, or_false] at hr
  rcases hr with rfl | rfl
  · exact Lays.after _ (lays_ident.map fun _ _ h => h)
  · exact lays_identOrLiteral

section Whole

variable {α β : Type} {tree : α → SyntaxTree} {r : Rule α}

def Parts (tree : α → SyntaxTree) (f : Span → α) (parts : List SyntaxTree) : Prop :=
  ∀ span, tree (f span) = .node span none parts

theorem Lays.whole {r : Rule (Span → α)} (h : Lays source true r (Parts tree)) :
    Lays source s (Rule.spanned r) (Gives fun a => [tree a]) :=
  Lays.spanned (h.imp fun _ _ hparts span => congrArg (fun t => [t]) (hparts span).symm)

theorem Lays.row {r : Rule (List α)}
    (h : Lays source s r (Gives fun as => as.flatMap fun a => [tree a])) :
    Lays source s r (Gives fun as => as.map tree) :=
  h.imp fun _ _ has => has.trans List.map_eq_flatMap.symm

end Whole

theorem lays_mapping : Lays source s mapping (Gives fun m => [m.tree]) := by
  refine Lays.whole (lays_identOrLiteral.bind fun o trees ho => ?_)
  refine Lays.after _ (lays_ident.map fun id trees' hid span => ?_)
  rw [ho, hid]
  rfl

theorem lays_mappings : Lays source s mappings (Gives fun ms => ms.map Mapping.tree) :=
  lays_mapping.commaSeparated1.row

theorem lays_conditionAtom {self : Rule Condition}
    (h : Lays source true self (Gives fun c => [c.tree])) :
    Lays source s (conditionAtom self) (Gives fun c => [c.tree]) := by
  refine lays_firstOf fun r hr => ?_
  simp only [List.mem_cons, List.not_mem_nil, or_false] at hr
  rcases hr with rfl | rfl
  · exact lays_operand.map fun _ _ h => h
  · refine Lays.whole (h.relax.inParens.map fun c trees hc span => ?_)
    rw [hc]
    rfl

theorem lays_conditionLevels (levels : List (Token × ConditionOp)) {closer : Rule Condition}
    (h : Lays source true closer (Gives fun c => [c.tree])) :
    Lays source true (levels.foldl conditionLevel closer) (Gives fun c => [c.tree]) := by
  induction levels generalizing closer with
  | nil => exact h
  | cons level levels ih => exact ih (h.chain (lays_token _) fun _ _ _ => rfl)

theorem lays_condition : Lays source s condition (Gives fun c => [c.tree]) :=
  Lays.relax (lays_fix fun _ hself => lays_conditionLevels _ (lays_conditionAtom hself))

theorem lays_bracketed : Lays source s (bracketed ident) (Gives fun id => [id.tree]) :=
  Lays.after _ (lays_ident.closed _)

theorem lays_mergeSource : Lays source s mergeSource (Gives fun m => [m.tree]) := by
  refine lays_firstOf fun r hr => ?_
  simp only [List.mem_cons, List.not_mem_nil, or_false] at hr
  rcases hr with rfl | rfl | rfl
  · exact Lays.after _ (lays_bracketed.map fun _ _ h => h)
  · exact Lays.after _ (lays_bracketed.map fun _ _ h => h)
  · exact lays_literal.map fun _ _ h => h

theorem lays_mergeMapping : Lays source s mergeMapping (Gives fun m => [m.tree]) := by
  refine Lays.whole (lays_mergeSource.bind fun o trees ho =>
    Lays.after _ (lays_ident.map fun id trees' hid span => ?_))
  rw [ho, hid]
  rfl

theorem lays_maybeWord (word : Keyword) :
    Lays source false (optional (keyword word)) fun _ trees => trees = [] :=
  Lays.optional (lays_token _) (fun _ _ h => h) rfl

theorem lays_choice {unary : Rule Arrow} (h : Lays source true unary (Gives fun e => [e.tree])) :
    Lays source s (choice unary) (Parts Arrow.tree) := by
  refine Lays.after _ (lays_condition.bind fun c trees hc => ?_)
  refine (lays_maybeWord _).bind fun _ trees₁ h₁ => h.relax.bind fun onTrue trees₂ h₂ => ?_
  refine (lays_maybeWord _).bind fun _ trees₃ h₃ => h.relax.map fun onFalse trees₄ h₄ span => ?_
  rw [hc, h₁, h₂, h₃, h₄]
  rfl

theorem lays_wirePair : Lays source s wirePair (Parts Arrow.tree) := by
  refine Lays.after _ (lays_mappings.inParens.bind fun top trees htop => ?_)
  refine Lays.after _ (lays_mappings.inParens.map fun bottom trees' hbottom span => ?_)
  rw [htop, hbottom]
  rfl

theorem lays_wire : Lays source s wire (Parts Arrow.tree) := by
  refine Lays.after _ (lays_mappings.map fun entries trees h span => ?_)
  rw [h]
  rfl

theorem Lays.blank {α : Type} {r : Rule (List α)}
    (h : Lays source s r (Gives fun as => as.flatMap fun _ => [])) :
    Lays source s r fun _ trees => trees = [] :=
  h.imp fun _ _ has => has.trans (List.flatMap_eq_nil_iff.mpr fun _ _ => rfl)

theorem lays_unaryArrow {arrow : Rule Arrow}
    (h : Lays source true arrow (Gives fun e => [e.tree])) :
    Lays source s (unaryArrow arrow) (Gives fun e => [e.tree]) := by
  refine Lays.relax (lays_fix fun self hself => ?_)
  refine Lays.recover (Lays.whole (lays_firstOf fun r hr => ?_)) (Lays.whole ?_)
  · simp only [List.mem_cons, List.not_mem_nil, or_false] at hr
    rcases hr with rfl | rfl | rfl | rfl | rfl | rfl | rfl | rfl | rfl
    · refine Lays.after _ (hself.relax.map fun e trees he span => ?_)
      rw [he]
      rfl
    · refine Lays.after _ (hself.relax.map fun e trees he span => ?_)
      rw [he]
      rfl
    · exact Lays.after _ (lays_pure fun _ => rfl)
    · refine Lays.after _ (lays_mergeMapping.commaSeparated1.row.map
        fun entries trees hentries span => ?_)
      rw [hentries]
      rfl
    · exact lays_wirePair
    · exact lays_wire
    · exact lays_choice hself
    · refine lays_ident.map fun id trees hid span => ?_
      rw [hid]
      rfl
    · refine h.relax.inParens.map fun e trees he span => ?_
      rw [he]
      rfl
  · refine (lays_skipUnless resumption).many1.blank.bind fun as trees has => lays_pure
      fun span => ?_
    rw [has]
    rfl

theorem lays_arrow : Lays source s arrow (Gives fun e => [e.tree]) := by
  refine Lays.relax (lays_fix fun self hself => ?_)
  have hscalar : Lays source true (chain (symbol .fanOut) .fanOut (unaryArrow self))
      (Gives fun e => [e.tree]) :=
    (lays_unaryArrow hself).chain (lays_token _) fun _ _ _ => rfl
  have htuple : Lays source true
      (chain (symbol .pairUp) .pairUp (chain (symbol .fanOut) .fanOut (unaryArrow self)))
      (Gives fun e => [e.tree]) := hscalar.chain (lays_token _) fun _ _ _ => rfl
  exact htuple.chain (lays_token _) fun _ _ _ => rfl

theorem lays_call : Lays source s call (Gives fun c => [c.tree]) := by
  refine Lays.whole (lays_callName.bind fun x trees hx => ?_)
  refine (lays_operand.commaSeparated.row.inParens).map fun arguments trees' harguments span => ?_
  rw [hx, harguments]
  rfl

theorem lays_branchResult : Lays source s branchResult (Gives fun b => [b.tree]) := by
  refine Lays.after _ (lays_firstOf fun r hr => ?_)
  simp only [List.mem_cons, List.not_mem_nil, or_false] at hr
  rcases hr with rfl | rfl
  · exact Lays.whole (Lays.after _ (Lays.after _ (lays_pure fun _ => rfl)))
  · exact lays_operand.map fun _ _ h => h

theorem lays_assignee : Lays source s assignee (Gives fun id => [id.tree]) := lays_ident.closed _

theorem lays_letBinding : Lays source s letBinding (Gives fun b => [b.tree]) := by
  refine Lays.whole (lays_assignee.bind fun id trees hid => lays_call.map fun c trees' hc span =>
    ?_)
  rw [hid, hc]
  rfl

def CommandParts (target : Option Ident) (f : Span → Command) (parts : List SyntaxTree) : Prop :=
  Parts Command.tree f (targetTrees target ++ parts)

theorem lays_letCommand (target : Option Ident) :
    Lays source s (letCommand target) (CommandParts target) := by
  refine Lays.after _ (lays_letBinding.many1.row.bind fun bindings trees hbindings => ?_)
  refine Lays.after _ (lays_call.map fun body trees' hbody span => ?_)
  rw [hbindings, hbody]
  rfl

theorem lays_commands {command : Rule Command}
    (h : Lays source true command (Gives fun c => [c.tree])) :
    Lays source false (many command) (Gives commandTrees) :=
  h.relax.many.row.imp fun commands _ hcommands => hcommands.trans
    (commandTrees_eq_map commands).symm

theorem lays_block {command : Rule Command}
    (h : Lays source true command (Gives fun c => [c.tree])) :
    Lays source s (block command) (Gives fun b => [b.tree]) := by
  refine Lays.whole ((lays_commands h).followed fun commands trees hcommands => ?_)
  refine lays_branchResult.map fun result trees' hresult span => ?_
  rw [hcommands, hresult]
  rfl

theorem lays_branchCommand {command : Rule Command} (target : Option Ident)
    (h : Lays source true command (Gives fun c => [c.tree])) :
    Lays source s (branchCommand command target) (CommandParts target) := by
  refine Lays.after _ (lays_condition.bind fun c trees hc => ?_)
  refine Lays.after _ ((lays_block h).bind fun onTrue trees₁ h₁ => ?_)
  refine Lays.after _ ((lays_block h).bind fun onFalse trees₂ h₂ => ?_)
  refine Lays.after _ (lays_pure fun span => ?_)
  rw [hc, h₁, h₂]
  rfl

theorem lays_target : Lays source false (optional assignee) (Gives targetTrees) :=
  lays_assignee.optional (fun _ _ h => h) rfl

theorem lays_command : Lays source s command (Gives fun c => [c.tree]) := by
  refine Lays.relax (lays_fix fun self hself => ?_)
  refine Lays.recover (Lays.whole (lays_target.followed fun target trees htarget => ?_))
    (Lays.whole ?_)
  · rw [htarget]
    refine lays_firstOf fun r hr => ?_
    simp only [List.mem_cons, List.not_mem_nil, or_false] at hr
    rcases hr with rfl | rfl | rfl
    · exact lays_letCommand target
    · exact lays_branchCommand target hself
    · refine lays_call.map fun c trees hc span => ?_
      rw [hc]
      rfl
  · refine (lays_skipUnless commandEnds).bind fun _ trees htrees => ?_
    refine (lays_skipUnless resumption).many.blank.bind fun as trees' has => lays_pure
      fun span => ?_
    rw [htrees, has]
    rfl

theorem lays_returnMapping : Lays source s returnMapping (Gives fun m => [m.tree]) := by
  refine Lays.whole (lays_assignee.bind fun id trees hid => lays_operand.map fun o trees' ho span =>
    ?_)
  rw [hid, ho]
  rfl

theorem lays_doBlock : Lays source s doBlock (Gives fun b => [b.tree]) := by
  have hreturn : Lays source true (spanned do
      keyword .returnValue
      return id) (Gives fun span => [.node span none []]) :=
    Lays.spanned (Lays.after _ (lays_pure fun _ => rfl))
  refine Lays.whole ((lays_commands lays_command).followed fun commands trees hcommands => ?_)
  refine hreturn.bind fun returnSpan trees₁ hspan => ?_
  refine lays_returnMapping.commaSeparated1.row.map fun returns trees₂ hreturns span => ?_
  rw [hcommands, hspan, hreturns]
  rfl

theorem lays_identList : Lays source s identList (Gives fun ids => ids.map Ident.tree) :=
  lays_ident.commaSeparated1.row

theorem lays_signalClause : Lays source s signalClause (Gives SignalClause.trees) := by
  refine lays_firstOf fun r hr => ?_
  simp only [List.mem_cons, List.not_mem_nil, or_false] at hr
  rcases hr with rfl | rfl
  · refine lays_identList.inParens.bind fun top trees htop => ?_
    refine Lays.after _ (lays_identList.inParens.map fun bottom trees' hbottom => ?_)
    rw [htop, hbottom]
    exact (List.map_append ..).symm
  · exact lays_identList.map fun _ _ h => h

theorem lays_declaration :
    Lays source s declaration (Gives fun d => (d.map Declaration.tree).toList) := by
  have hwith : Lays source false (optional do keyword .withMap; mappings)
      (Gives fun ms => (ms.getD []).map Mapping.tree) :=
    Lays.optional (Lays.after _ lays_mappings) (fun _ _ h => h) rfl
  refine Lays.recover (Lays.spanned (lays_ident.bind fun name trees hname => ?_)) ?_
  · refine Lays.after _ (Lays.after _ (lays_ident.bind fun component trees₁ hcomponent => ?_))
    refine hwith.map fun clause trees₂ hclause span => ?_
    rw [hname, hcomponent, hclause]
    rfl
  · refine (lays_skipUnless _).bind fun _ trees htrees => ?_
    refine (lays_skipUnless resumption).many.blank.map fun as trees' has => ?_
    rw [htrees, has]
    rfl

theorem lays_declarations :
    Lays source s declarations (Gives fun ds => ds.map Declaration.tree) := by
  refine Lays.after _ (lays_declaration.many1.map fun ds trees hds => ?_)
  rw [hds]
  change (ds.flatMap fun d => (d.map Declaration.tree).toList) =
    (ds.filterMap id).map Declaration.tree
  rw [List.map_filterMap, List.filterMap_eq_flatMap_toList]
  rfl

theorem lays_definition : Lays source s (firstOf [arrowDefinition, leafDefinition])
    (Gives fun x => x.1.map Declaration.tree ++ [x.2.tree]) := by
  refine lays_firstOf fun r hr => ?_
  simp only [List.mem_cons, List.not_mem_nil, or_false] at hr
  rcases hr with rfl | rfl
  · have hds : Lays source false (optional declarations)
        (Gives fun ds => (ds.getD []).map Declaration.tree) :=
      lays_declarations.optional (fun _ _ h => h) rfl
    refine hds.followed fun ds trees hds => Lays.after _ (lays_arrow.map fun e trees' he => ?_)
    rw [hds, he]
    rfl
  · exact Lays.after _ (lays_doBlock.map fun _ _ h => h)

theorem lays_component : Lays source s component (Gives fun c => [c.tree]) := by
  have hconfiguration : Lays source false (optional do keyword .configuration; identList)
      (Gives fun ids => (ids.getD []).map Ident.tree) :=
    Lays.optional (Lays.after _ lays_identList) (fun _ _ h => h) rfl
  refine Lays.whole (Lays.after _ (lays_ident.bind fun name trees hname => ?_))
  refine Lays.after _ (lays_signalClause.bind fun inputs trees₁ h₁ => ?_)
  refine Lays.after _ (lays_signalClause.bind fun outputs trees₂ h₂ => ?_)
  refine hconfiguration.bind fun configuration trees₃ h₃ => lays_definition.map
    fun x trees₄ h₄ span => ?_
  rw [hname, h₁, h₂, h₃, h₄]
  rfl

theorem lays_importClause : Lays source s importClause (Gives fun i => [i.tree]) := by
  refine Lays.whole (Lays.after _ (lays_modulePath.bind fun path trees hpath => ?_))
  refine Lays.after _ (lays_ident.map fun localName trees' hname span => ?_)
  rw [hpath, hname]
  rfl

theorem lays_program : Lays source s program (Gives fun p => [p.tree]) := by
  refine Lays.whole (lays_importClause.many.row.followed fun imports trees himports => ?_)
  refine lays_component.bind fun component trees₁ hcomponent => lays_finish.map
    fun _ trees₂ hfinish span => ?_
  rw [himports, hcomponent, hfinish]
  rfl

end Rule

end PipelineLang
