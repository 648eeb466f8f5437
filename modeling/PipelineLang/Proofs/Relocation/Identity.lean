import PipelineLang.Proofs.Relocation.Compilation

/-! A program that stays where it is. Resolving it twice, against registries that give the same
imports, gives the same symbols and findings, whatever the registries log. -/

namespace PipelineLang

section Syntax

theorem Ident.relocate_refl : Ident.relocate .refl = id := rfl

theorem Operand.relocate_refl : Operand.relocate .refl = id := by
  funext operand
  cases operand <;> rfl

theorem Mapping.relocate_refl : Mapping.relocate .refl = id := by
  funext m
  simp only [relocate, Operand.relocate_refl]
  rfl

theorem Condition.relocate_refl : Condition.relocate .refl = id := by
  funext condition
  induction condition with
  | binary op left right span ihl ihr =>
    rw [relocate, ihl, ihr]
    rfl
  | paren inner span ih =>
    rw [relocate, ih]
    rfl
  | terminal operand => exact congrArg terminal (congrFun Operand.relocate_refl operand)

theorem MergeMapping.relocate_refl : MergeMapping.relocate .refl = id := by
  funext m
  obtain ⟨source, _, _⟩ := m
  cases source <;> rfl

theorem Arrow.relocate_refl : Arrow.relocate .refl = id := by
  funext e
  induction e with
  | compose _ _ _ ihl ihr | pairUp _ _ _ ihl ihr | fanOut _ _ _ ihl ihr =>
    rw [relocate, ihl, ihr]
    rfl
  | first _ _ ih | second _ _ ih | paren _ _ ih =>
    rw [relocate, ih]
    rfl
  | choose _ _ _ _ iht ihf =>
    rw [relocate, Condition.relocate_refl, iht, ihf]
    rfl
  | merge =>
    rw [relocate, MergeMapping.relocate_refl, List.map_id]
    rfl
  | wire =>
    rw [relocate, Mapping.relocate_refl, List.map_id]
    rfl
  | wirePair =>
    rw [relocate, Mapping.relocate_refl, List.map_id, List.map_id]
    rfl
  | split | use | failed => rfl

theorem Call.relocate_refl : Call.relocate .refl = id := by
  funext call
  rw [relocate, Operand.relocate_refl, List.map_id]
  rfl

theorem LetBinding.relocate_refl : LetBinding.relocate .refl = id := by
  funext binding
  rw [relocate, Call.relocate_refl]
  rfl

theorem BranchResult.relocate_refl : BranchResult.relocate .refl = id := by
  funext result
  cases result with
  | unit => rfl
  | value operand => exact congrArg value (congrFun Operand.relocate_refl operand)

theorem Command.relocate_refl :
    (∀ command : Command, command.relocate .refl = command) ∧
    (∀ block : Block, block.relocate .refl = block) ∧
      ∀ commands, relocateCommands .refl commands = commands := by
  refine Command.induct ?call ?letIn ?branch ?failed ?block ?nil ?cons
  case call =>
    intro target call span
    rw [relocate, Ident.relocate_refl, Option.map_id, Call.relocate_refl]
    rfl
  case letIn =>
    intro target bindings body span
    rw [relocate, Ident.relocate_refl, Option.map_id, LetBinding.relocate_refl, List.map_id,
      Call.relocate_refl]
    rfl
  case branch =>
    intro target condition onTrue onFalse span iht ihf
    rw [relocate, Ident.relocate_refl, Option.map_id, Condition.relocate_refl, iht, ihf]
    rfl
  case failed => exact fun span => rfl
  case block =>
    intro commands result span ih
    rw [Block.relocate, ih, BranchResult.relocate_refl]
    rfl
  case nil => rfl
  case cons =>
    intro command commands ihc ihs
    rw [relocateCommands, ihc, ihs]

theorem DoBlock.relocate_refl : DoBlock.relocate .refl = id := by
  have hreturn : ReturnMapping.relocate .refl = id := by
    funext m
    simp only [ReturnMapping.relocate, Operand.relocate_refl]
    rfl
  funext body
  rw [relocate, Command.relocate_refl.2.2, hreturn, List.map_id]
  rfl

theorem SignalClause.relocate_refl : SignalClause.relocate .refl = id := by
  funext clause
  cases clause <;> simp only [relocate, Ident.relocate_refl, List.map_id] <;> rfl

theorem Component.relocate_refl : Component.relocate .refl = id := by
  have hdeclaration : Declaration.relocate .refl = id := by
    funext d
    rw [Declaration.relocate, Mapping.relocate_refl, List.map_id_fun, Option.map_id]
    rfl
  have hdefinition : Definition.relocate .refl = id := by
    funext definition
    cases definition with
    | arrow e => exact congrArg Definition.arrow (congrFun Arrow.relocate_refl e)
    | leaf body => exact congrArg Definition.leaf (congrFun DoBlock.relocate_refl body)
  funext c
  rw [relocate, SignalClause.relocate_refl, Ident.relocate_refl, List.map_id, hdeclaration,
    List.map_id, hdefinition]
  rfl

theorem Program.relocate_refl (p : Program) : p.relocate .refl = p := by
  have himport : Import.relocate .refl = id := rfl
  rw [relocate, himport, List.map_id, Component.relocate_refl]
  rfl

end Syntax

theorem Symbols.relocate_refl (s : Symbols) : s.relocate .refl = s := by
  have himport : ImportEntry.relocate .refl = id := rfl
  have hdeclaration : DeclarationEntry.relocate .refl = id := rfl
  have hconfiguration : ConfigurationEntry.relocate .refl = id := rfl
  have htables : s.tables.relocate .refl = s.tables := by
    simp only [LeafTables.relocate, Table.relocate_refl]
  rw [relocate, himport, hdeclaration, hconfiguration, List.map_id, List.map_id, List.map_id,
    htables]

section SameImports

variable {p : Program} {registry registry' : Registry} {files files' : FileTree}
  (himports : ∀ i ∈ p.imports, Resolution.imported registry' files' p.component.isLeaf i.path.name =
    Resolution.imported registry files p.component.isLeaf i.path.name)
include himports

theorem Program.resolve_congr (file : String) :
    (p.resolve file registry' files').symbols = (p.resolve file registry files).symbols
      ∧ (p.resolve file registry' files').findings = (p.resolve file registry files).findings := by
  obtain ⟨log, hresolve⟩ := exists_resolve_relocate .refl file himports
  rw [relocate_refl] at hresolve
  have hfinding : Finding.relocate .refl = id := rfl
  rw [hresolve]
  exact ⟨Symbols.relocate_refl _, by rw [Resolution.relocate, hfinding, List.map_id]⟩

theorem compile_congr {source : String} (hp : (Parsed.ofSource source).program = some p)
    (file : String) (o : CodeOptions) :
    (compile source file registry' files' o).findings =
      (compile source file registry files o).findings
      ∧ ((compile source file registry files o).code = none ∧
        (compile source file registry' files' o).code = none
        ∨ ∃ rest, (compile source file registry files o).code =
          some (unlines (o.header source registry ++ rest))
          ∧ (compile source file registry' files' o).code =
            some (unlines (o.header source registry' ++ rest))) := by
  by_cases hnil : (Parsed.ofSource source).findings = []
  · have hp' : (Parsed.ofSource source).program = some (p.relocate .refl) := by
      rw [hp, p.relocate_refl]
    refine ⟨?_, (compile_relocate hp hnil hp' hnil himports file fun _ _ => rfl).2⟩
    obtain ⟨hsymbols, hfindings⟩ := p.resolve_congr himports file
    rw [compile_findings hp hnil, compile_findings hp hnil, Program.reports, Program.reports,
      hsymbols, hfindings]
  · rw [compile_of_findings hnil, compile_of_findings hnil]
    exact ⟨rfl, .inl ⟨rfl, rfl⟩⟩

end SameImports

end PipelineLang
