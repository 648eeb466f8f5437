import PipelineLang.Proofs.Leaf.Agreement
import PipelineLang.Proofs.Symbols.Resolution

/-! A clean resolution of a leaf body, whose places are all different, leaves tables that agree with
it. -/

namespace PipelineLang

namespace LeafTables

/-- Both tables say the same of a place. -/
def SameAt (t t' : LeafTables) (span : Span) : Prop :=
  t'.targets.get? span = t.targets.get? span ∧ t'.references.get? span = t.references.get? span

theorem SameAt.trans {t t' t'' : LeafTables} {span : Span} (h : t.SameAt t' span)
    (h' : t'.SameAt t'' span) :
    t.SameAt t'' span :=
  ⟨h'.1.trans h.1, h'.2.trans h.2⟩

end LeafTables

namespace Resolution

variable {r : Resolution} {c : Component} {marks marks' : List Span} {f g : Resolution → Resolution}
  {after after' : Numbering → Numbering} {A B : LeafTables → Numbering → Prop}

def tables (r : Resolution) : LeafTables := r.symbols.tables

/-- A step that only writes at the places `marks`, moves the numbering on by `after`, and, if it is
clean, leaves there what `A` asks for. -/
structure Resolves (marks : List Span) (f : Resolution → Resolution) (after : Numbering → Numbering)
    (A : LeafTables → Numbering → Prop) : Prop where
  clean : ∀ r : Resolution, (f r).Clean → r.Clean
  untouched : ∀ r : Resolution, ∀ span ∉ marks, r.tables.SameAt (f r).tables span
  shows : ∀ (r : Resolution) ν, (f r).Clean → r.tables.scopes.Shows ν →
    (f r).tables.scopes.Shows (after ν)
  agrees : ∀ (r : Resolution) ν t, (f r).Clean → r.tables.scopes.Shows ν →
    (∀ span ∈ marks, (f r).tables.SameAt t span) → A t ν

namespace Resolves

theorem andThen (h : Resolves marks f after A) (h' : Resolves marks' g after' B)
    (hd : marks.Disjoint marks') :
    Resolves (marks ++ marks') (fun r => g (f r)) (fun ν => after' (after ν))
      fun t ν => A t ν ∧ B t (after ν) where
  clean r hr := h.clean r (h'.clean _ hr)
  untouched r span hspan := by
    rw [List.mem_append, not_or] at hspan
    exact (h.untouched r span hspan.1).trans (h'.untouched _ span hspan.2)
  shows r ν hr hν := h'.shows _ _ hr (h.shows r ν (h'.clean _ hr) hν)
  agrees r ν t hr hν ht := by
    -- what the first step left at its places is still there, as the second writes elsewhere
    have hf := h'.clean _ hr
    refine ⟨h.agrees r ν t hf hν fun span hspan => ?_,
      h'.agrees _ _ t hr (h.shows r ν hf hν) fun span hspan => ?_⟩
    · exact (h'.untouched _ span fun hm => hd hspan hm).trans
        (ht span (List.mem_append_left _ hspan))
    · exact ht span (List.mem_append_right _ hspan)

theorem congr (h : Resolves marks f after A) (hm : ∀ span, span ∈ marks ↔ span ∈ marks')
    (hA : ∀ t ν, A t ν → B t ν) : Resolves marks' f after B where
  clean := h.clean
  untouched r span hspan := h.untouched r span fun hs => hspan ((hm span).mp hs)
  shows := h.shows
  agrees r ν t hr hν ht := hA t ν
    (h.agrees r ν t hr hν fun span hspan => ht span ((hm span).mp hspan))

theorem weaken (h : Resolves marks f after A) (hA : ∀ t ν, A t ν → B t ν) :
    Resolves marks f after B :=
  h.congr (fun _ => Iff.rfl) hA

end Resolves

theorem resolves_still (hclean : ∀ r, (f r).Clean → r.Clean)
    (hscopes : ∀ r, (f r).tables.scopes = r.tables.scopes)
    (htargets : ∀ r, (f r).tables.targets = r.tables.targets)
    (hreferences : ∀ r, (f r).tables.references = r.tables.references) :
    Resolves [] f (fun ν => ν) fun _ _ => True where
  clean := hclean
  untouched r span _ := ⟨by rw [htargets], by rw [hreferences]⟩
  shows r ν _ hν := by
    rw [hscopes]
    exact hν
  agrees _ _ _ _ _ _ := trivial

theorem tables_reportIf (r : Resolution) (wrong : Bool) (span : Span) (problem : Problem) :
    (r.reportIf wrong span problem).tables = r.tables := by
  rw [tables, symbols_reportIf]
  rfl

theorem sameAt_refer {span span' : Span} (r : Resolution) (ref : Reference) (h : span' ≠ span) :
    r.tables.SameAt (r.refer span ref).tables span' :=
  ⟨rfl, by simp [tables, refer, withTables, h]⟩

theorem references_refer {t : LeafTables} {span : Span} {ref : Reference}
    (h : (r.refer span ref).tables.SameAt t span) : t.references.get? span = some ref := by
  rw [h.2]
  simp [tables, refer, withTables]

theorem meaning?_of_shows {ν : Numbering} {ref : Reference} (hν : r.tables.scopes.Shows ν)
    {x : String} (h : r.meaning? c x = some ref) : ref = ν.meaning x := by
  have hlookup : r.symbols.tables.scopes.lookup x = ν.frames.find? x := hν.lookup x
  simp only [meaning?, hlookup] at h
  unfold Numbering.meaning
  cases hv : ν.frames.find? x with
  | some v =>
    simp only [hv] at h
    exact (Option.some.inj h).symm
  | none =>
    simp only [hv] at h
    split at h
    · exact (Option.some.inj h).symm
    · cases h

section Operands

variable {unknownState unknownName : Ident → Problem}

theorem resolves_readName {unknown : Problem} (hu : unknown.isError = true) (id : Ident) :
    Resolves [id.span] (fun r => readName c r id unknown) (fun ν => ν)
      fun t ν => t.OperandAgrees ν (.ident id) where
  clean r h := by
    unfold readName at h
    split at h
    · exact h
    · exact (clean_report.mp h).1
  untouched r span hne := by
    unfold readName
    split
    · exact sameAt_refer r _ (fun heq => hne (heq ▸ List.mem_cons_self))
    · exact ⟨rfl, rfl⟩
  shows r ν _ hν := by
    unfold readName
    split <;> exact hν
  agrees r ν t h hν ht := by
    have ht := ht id.span List.mem_cons_self
    unfold readName at h ht
    split at h
    · rename_i ref href
      rw [href] at ht
      rw [LeafTables.OperandAgrees, references_refer ht, meaning?_of_shows hν href]
    · exact absurd (clean_report.mp h).2 (by simp [hu])

theorem resolves_readState {unknown : Problem} (hu : unknown.isError = true) (id : Ident) :
    Resolves [id.span] (fun r => r.readState id unknown) (fun ν => ν)
      fun t ν => t.OperandAgrees ν (.state id) where
  clean r h := by
    unfold readState at h
    split at h
    · exact h
    · exact (clean_report.mp h).1
  untouched r span hne := by
    unfold readState
    split
    · exact sameAt_refer { r with symbols := r.symbols.useConfiguration id.name } _
        (fun heq => hne (heq ▸ List.mem_cons_self))
    · exact ⟨rfl, rfl⟩
  shows r ν _ hν := by
    unfold readState
    split <;> exact hν
  agrees r ν t h _ ht := by
    have ht := ht id.span List.mem_cons_self
    unfold readState at h ht
    split at h
    · rename_i hknown
      rw [if_pos hknown] at ht
      exact references_refer ht
    · exact absurd (clean_report.mp h).2 (by simp [hu])

theorem resolves_literal (lit : Literal) :
    Resolves [lit.span] (fun r => r.refer lit.span .literal) (fun ν => ν)
      fun t ν => t.OperandAgrees ν (.literal lit) where
  clean _ h := h
  untouched r _ hne := sameAt_refer r _ (fun heq => hne (heq ▸ List.mem_cons_self))
  shows _ _ _ hν := hν
  agrees _ _ _ _ _ _ := trivial

theorem resolves_readOperand (hs : ∀ id, (unknownState id).isError = true)
    (hn : ∀ id, (unknownName id).isError = true) (operand : Operand) :
    Resolves [operand.span] (fun r => readOperand c unknownState unknownName r operand) (fun ν => ν)
      fun t ν => t.OperandAgrees ν operand := by
  cases operand with
  | ident id => exact resolves_readName (hn id) id
  | state id => exact resolves_readState (hs id) id
  | literal lit => exact resolves_literal lit

theorem resolves_readOperands (hs : ∀ id, (unknownState id).isError = true)
    (hn : ∀ id, (unknownName id).isError = true) {operands : List Operand}
    (hnodup : (operands.map Operand.span).Nodup) :
    Resolves (operands.map Operand.span)
      (fun r => operands.foldl (readOperand c unknownState unknownName) r) (fun ν => ν)
      fun t ν => ∀ operand ∈ operands, t.OperandAgrees ν operand := by
  induction operands with
  | nil => exact ⟨fun _ h => h, fun _ _ _ => ⟨rfl, rfl⟩, fun _ _ _ hν => hν, by simp⟩
  | cons operand operands ih =>
    rw [List.map_cons, List.nodup_cons] at hnodup
    have hhead := resolves_readOperand (c := c) hs hn operand
    refine (hhead.andThen (ih hnodup.2) ?_).weaken fun t ν h => List.forall_mem_cons.mpr h
    simpa [List.disjoint_singleton] using hnodup.1

end Operands

theorem assign_of_clean {id : Ident} (h : (assign c r id).Clean) :
    r.Clean ∧ ∃ v scopes, r.tables.scopes.bind? id.name = some (v, scopes) ∧
      (assign c r id).tables =
        { r.tables with scopes, targets := r.tables.targets.insert id.span v } := by
  unfold assign at h ⊢
  simp only [symbols_reportIf] at h ⊢
  split at h
  · rename_i v scopes hbind
    refine ⟨(clean_reportIf.mp (clean_reportIf.mp h).1).1, v, scopes, hbind, ?_⟩
    simp [tables, withTables]
  · exact absurd (clean_report.mp h).2 (by simp [Problem.isError])

theorem resolves_assign (id : Ident) :
    Resolves [id.span] (fun r => assign c r id) (fun ν => ν.bind id.name)
      fun t ν => t.TargetAgrees ν (some id) where
  clean _ h := (assign_of_clean h).1
  untouched r span hne := by
    have hne : span ≠ id.span := fun heq => hne (heq ▸ List.mem_cons_self)
    unfold assign
    dsimp only
    split <;> simp [LeafTables.SameAt, tables, withTables, report, hne]
  shows r ν h hν := by
    obtain ⟨-, v, scopes, hbind, htables⟩ := assign_of_clean h
    rw [htables]
    exact (hν.bind hbind).2
  agrees r ν t h hν ht := by
    obtain ⟨-, v, scopes, hbind, htables⟩ := assign_of_clean h
    have ht := (ht id.span List.mem_cons_self).1
    rw [htables] at ht
    rw [LeafTables.TargetAgrees, ht, ← (hν.bind hbind).1]
    simp

theorem resolves_assignTarget (target : Option Ident) :
    Resolves (targetMarks target) (assignTarget c target) (·.afterTarget target)
      fun t ν => t.TargetAgrees ν target := by
  cases target with
  | some id => exact resolves_assign id
  | none => exact (resolves_still (fun _ h => h) (fun _ => rfl) (fun _ => rfl) fun _ => rfl)

theorem resolves_enterCommand (span : Span) :
    Resolves [] (fun r => r.enterCommand span) (fun ν => ν) fun _ _ => True :=
  resolves_still (fun _ h => h) (fun _ => rfl) (fun _ => rfl) fun _ => rfl

theorem Resolves.scoped (h : Resolves marks f after A)
    (hwithin : ∀ ν : Numbering, ν.frames ≠ [] → ν.Within (after ν)) :
    Resolves marks (fun r => (f r.pushFrame).popFrame) (fun ν => (after ν.push).pop)
      fun t ν => A t ν.push where
  clean r hr := h.clean r.pushFrame hr
  untouched r := h.untouched r.pushFrame
  shows r ν hr hν := by
    have hshows := h.shows r.pushFrame ν.push hr hν.push
    have hpop := (hwithin ν.push (List.cons_ne_nil _ _))
    obtain ⟨names, outer, hframes⟩ := List.exists_cons_of_ne_nil hpop.nonempty
    have houter : (after ν.push).pop = ⟨outer, (after ν.push).next⟩ := by
      simp [Numbering.pop, hframes]
    have hne : outer ≠ [] := by
      have heq : outer = ν.frames := by
        have houter := hpop.outer
        rwa [hframes] at houter
      exact heq ▸ hν.chain.ne_nil
    rw [houter]
    have hinner : (f r.pushFrame).tables.scopes.Shows ⟨names :: outer, (after ν.push).next⟩ := by
      rw [← hframes]
      exact hshows
    exact hinner.pop hne
  agrees r ν t hr hν ht := h.agrees r.pushFrame ν.push t hr hν.push ht

theorem resolves_resolveCall {call : Call} (hnodup : call.marks.Nodup) :
    Resolves call.marks (fun r => resolveCall c r call) (fun ν => ν) fun t ν => t.CallAgrees ν
      call := by
  have hcallee : Resolves [] (fun r : Resolution =>
      { r with symbols := r.symbols.useImport call.package.name }.reportAll
        (calleeFinding? r.symbols call).toList) (fun ν => ν) fun _ _ => True :=
    resolves_still (fun _ h => (clean_reportAll.mp h).1) (fun _ => rfl) (fun _ => rfl) fun _ => rfl
  refine (hcallee.andThen (resolves_readOperands (c := c) ?_ ?_ hnodup) ?_).weaken fun t ν h => h.2
  · exact fun _ => rfl
  · exact fun _ => rfl
  · exact List.disjoint_nil_left _

theorem resolves_resolveCondition {condition : Condition} (hnodup : condition.marks.Nodup) :
    Resolves condition.marks (fun r => resolveCondition c r condition) (fun ν => ν)
      fun t ν => t.ConditionAgrees ν condition := by
  simp only [resolveCondition, Condition.terminals_eq]
  exact resolves_readOperands (fun _ => rfl) (fun _ => rfl) hnodup

theorem resolves_resolveBranchResult (result : BranchResult) :
    Resolves result.marks (fun r => resolveBranchResult c r result) (fun ν => ν)
      fun t ν => t.ResultAgrees ν result := by
  cases result with
  | unit span => exact resolves_still (fun _ h => h) (fun _ => rfl) (fun _ => rfl) fun _ => rfl
  | value operand =>
    cases operand with
    | ident id =>
      by_cases hout : c.outputs.contains id.name = true
      · refine ⟨fun r h => ?_, fun r span hne => ?_, fun r ν h hν => ?_, fun r ν t h hν ht => ?_⟩
          <;>
          simp only [resolveBranchResult, hout, if_true] at *
        · exact (clean_report.mp h).1
        · exact ⟨rfl, rfl⟩
        · exact hν
        · exact absurd (clean_report.mp h).2 (by simp [Problem.isError])
      · have hread : Resolves [id.span] (fun r => readName c r id (unknownReturnedName id))
            (fun ν => ν)
            fun t ν => t.OperandAgrees ν (.ident id) := resolves_readName rfl id
        simp only [resolveBranchResult, hout]
        exact hread
    | state id => exact resolves_readState rfl id
    | literal lit => exact resolves_literal lit

theorem resolves_resolveLetBindings {bindings : List LetBinding}
    (hnodup : (bindings.flatMap LetBinding.marks).Nodup) :
    Resolves (bindings.flatMap LetBinding.marks) (fun r => bindings.foldl (resolveLetBinding c) r)
      (·.afterBindings bindings) fun t ν => t.BindingsAgree ν bindings := by
  induction bindings with
  | nil => exact resolves_still (fun _ h => h) (fun _ => rfl) (fun _ => rfl) fun _ => rfl
  | cons b bindings ih =>
    rw [List.flatMap_cons, List.nodup_append'] at hnodup
    obtain ⟨hb, hrest, hdisjoint⟩ := hnodup
    obtain ⟨htarget, hcall⟩ := List.nodup_cons.mp hb
    have hhead : Resolves b.marks (fun r => resolveLetBinding c r b) (fun ν => ν.bind b.target.name)
        fun t ν => t.CallAgrees ν b.call ∧ t.TargetAgrees ν (some b.target) := by
      refine ((resolves_resolveCall hcall).andThen (resolves_assign b.target) ?_).congr ?_
        fun _ _ h => h
      · exact List.disjoint_singleton.mpr htarget
      · intro span
        simp [LetBinding.marks, or_comm]
    exact (hhead.andThen (ih hrest) hdisjoint).weaken fun t ν h => ⟨h.1.1, h.1.2, h.2⟩

theorem Resolves.command {target : Option Ident} (h : Resolves marks f after A) (span : Span)
    (hdisjoint : (targetMarks target).Disjoint marks) :
    Resolves (targetMarks target ++ marks)
      (fun r => assignTarget c target (f (r.enterCommand span)))
      (fun ν => (after ν).afterTarget target) fun t ν => A t ν ∧
      t.TargetAgrees (after ν) target := by
  have hsteps := ((resolves_enterCommand span).andThen h (List.disjoint_nil_left _)).andThen
    (resolves_assignTarget (c := c) target) (List.disjoint_symm hdisjoint)
  refine hsteps.congr (fun span => ?_) fun t ν h => ⟨h.1.2, h.2⟩
  simp only [List.nil_append, List.mem_append, or_comm]

theorem resolves_resolveCommands :
    (∀ command : Command, command.intact = true → command.marks.Nodup →
      Resolves command.marks (resolveCommand c command) (·.afterCommand command)
        fun t ν => t.CommandAgrees ν command) ∧
    (∀ block : Block, block.intact = true → block.marks.Nodup →
      Resolves block.marks (resolveBlock c block) (·.afterBlock block) fun t ν => t.BlockAgrees ν
        block) ∧
    ∀ commands, allIntact commands = true → (commandsMarks commands).Nodup →
      Resolves (commandsMarks commands) (resolveCommands c commands) (·.afterCommands commands)
        fun t ν => t.CommandsAgree ν commands := by
  refine Command.induct ?call ?letIn ?branch ?failed ?block ?nil ?cons
  case call =>
    intro target call span _ hnodup
    obtain ⟨-, hcall, hdisjoint⟩ := List.nodup_append'.mp hnodup
    exact (resolves_resolveCall hcall).command span hdisjoint
  case letIn =>
    intro target bindings body span _ hnodup
    obtain ⟨-, hinner, hdisjoint⟩ := List.nodup_append'.mp hnodup
    obtain ⟨hbindings, hbody, hapart⟩ := List.nodup_append'.mp hinner
    have hsteps := (resolves_resolveLetBindings (c := c) hbindings).andThen
      (resolves_resolveCall (c := c) hbody) hapart
    have hscope := hsteps.scoped fun ν h => Numbering.within_afterBindings h bindings
    exact (hscope.command span hdisjoint).weaken fun t ν h => ⟨h.1.1, h.1.2, h.2⟩
  case branch =>
    intro target condition onTrue onFalse span iht ihf hintact hnodup
    rw [Command.intact, Bool.and_eq_true] at hintact
    obtain ⟨-, hinner, hdisjoint⟩ := List.nodup_append'.mp hnodup
    obtain ⟨hcondition, hblocks, hcapart⟩ := List.nodup_append'.mp hinner
    obtain ⟨htrue, hfalse, hapart⟩ := List.nodup_append'.mp hblocks
    have honTrue := (iht hintact.1 htrue).scoped (Numbering.within_after.2.1 onTrue)
    have honFalse := (ihf hintact.2 hfalse).scoped (Numbering.within_after.2.1 onFalse)
    have hsteps := (resolves_resolveCondition (c := c) hcondition).andThen
      (honTrue.andThen honFalse hapart) hcapart
    exact (hsteps.command span hdisjoint).weaken fun t ν h => ⟨h.1.1, h.1.2.1, h.1.2.2, h.2⟩
  case failed =>
    intro span hintact
    cases hintact
  case block =>
    intro commands result span ih hintact hnodup
    obtain ⟨hcommands, -, hapart⟩ := List.nodup_append'.mp hnodup
    exact (ih hintact hcommands).andThen (resolves_resolveBranchResult result) hapart
  case nil =>
    intro _ _
    exact resolves_still (fun _ h => h) (fun _ => rfl) (fun _ => rfl) fun _ => rfl
  case cons =>
    intro command commands ihc ihs hintact hnodup
    rw [allIntact, Bool.and_eq_true] at hintact
    obtain ⟨hcommand, hcommands, hapart⟩ := List.nodup_append'.mp hnodup
    exact (ihc hintact.1 hcommand).andThen (ihs hintact.2 hcommands) hapart

theorem resolves_resolveReturns (seen : List String) {returns : List ReturnMapping}
    (hnodup : (returns.map fun m => m.source.span).Nodup) :
    Resolves (returns.map fun m => m.source.span) (resolveReturns c seen returns) (fun ν => ν)
      fun t ν => ∀ m ∈ returns, t.OperandAgrees ν m.source := by
  induction returns generalizing seen with
  | nil => exact ⟨fun _ h => h, fun _ _ _ => ⟨rfl, rfl⟩, fun _ _ _ hν => hν, by simp⟩
  | cons m returns ih =>
    rw [List.map_cons, List.nodup_cons] at hnodup
    have hreport : Resolves [] (fun r : Resolution =>
        r.reportIf (!c.outputs.contains m.target.name && !seen.contains m.target.name) m.target.span
          (.unknownReturn m.target.name)) (fun ν => ν) fun _ _ => True :=
      resolves_still (fun _ h => (clean_reportIf.mp h).1) (fun _ => by rw [tables_reportIf])
        (fun _ => by rw [tables_reportIf]) fun _ => by rw [tables_reportIf]
    have hsource := @resolves_readOperand c unknownReturnedState unknownReturnedName (fun _ => rfl)
      (fun _ => rfl) m.source
    have hread := hreport.andThen hsource (List.disjoint_nil_left _)
    refine (hread.andThen (ih _ hnodup.2) ?_).weaken fun t ν h => List.forall_mem_cons.mpr
      ⟨h.1.2, h.2⟩
    simpa [List.disjoint_singleton] using hnodup.1

theorem resolves_checkReturns (body : DoBlock) :
    Resolves [] (checkReturns c body) (fun ν => ν) fun _ _ => True :=
  resolves_still (fun _ h => (clean_reportAll.mp (clean_reportAll.mp h).1).1) (fun _ => rfl)
    (fun _ => rfl)
    fun _ => rfl

theorem resolves_resolveLeaf {body : DoBlock} (hintact : allIntact body.commands = true)
    (hnodup : body.marks.Nodup) :
    Resolves body.marks (resolveLeaf c body) (·.afterCommands body.commands)
      fun t ν => t.CommandsAgree ν body.commands ∧
        ∀ m ∈ body.returns, t.OperandAgrees (ν.afterCommands body.commands) m.source := by
  obtain ⟨hcommands, hreturns, hapart⟩ := List.nodup_append'.mp hnodup
  have hrest := (resolves_checkReturns (c := c) body).andThen
    (resolves_resolveReturns (c := c) [] hreturns)
    (List.disjoint_nil_left _)
  exact ((resolves_resolveCommands.2.2 _ hintact hcommands).andThen hrest hapart).weaken
    fun t ν h => ⟨h.1, h.2.2⟩

end Resolution

namespace Program

variable {p : Program} {body : DoBlock} {file : String} {registry : Registry} {files : FileTree}

theorem shows_declared : (p.declared file registry files).tables.scopes.Shows .start := by
  have htables : (p.declared file registry files).tables = .empty :=
    congrArg (fun header => header.2.2) (header_declared p file registry files)
  rw [htables]
  exact Scopes.shows_root

variable (hleaf : p.component.definition = .leaf body) (hintact : allIntact body.commands = true)
  (hnodup : body.marks.Nodup) (hclean : (p.resolve file registry files).Clean)
include hleaf hintact hnodup hclean

theorem bodyAgrees_of_clean : (p.resolve file registry files).symbols.tables.BodyAgrees body := by
  rw [resolve_leaf hleaf] at hclean ⊢
  have hstep := Resolution.resolves_resolveLeaf (c := p.component) hintact hnodup
  exact hstep.agrees _ .start _ (Resolution.clean_reportUnused.mp hclean) shows_declared
    fun span _ => ⟨rfl, rfl⟩

theorem shows_of_clean :
    (p.resolve file registry files).symbols.tables.scopes.Shows
      (Numbering.start.afterCommands body.commands) := by
  rw [resolve_leaf hleaf] at hclean ⊢
  have hstep := Resolution.resolves_resolveLeaf (c := p.component) hintact hnodup
  exact hstep.shows _ .start (Resolution.clean_reportUnused.mp hclean) shows_declared

end Program

end PipelineLang
