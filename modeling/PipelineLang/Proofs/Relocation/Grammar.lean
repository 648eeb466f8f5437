import PipelineLang.Grammar.Program
import PipelineLang.Proofs.Relocation.Rule

/-! Every rule of the grammar reads relocated tokens as the relocated tree. -/

namespace PipelineLang

namespace Rule

variable {φ : Relocation}

theorem moves_ident : Moves φ (Sends (Ident.relocate φ)) ident ident := by
  refine moves_accept fun l _ => ?_
  cases h : l.token <;> simp only [Lexeme.relocate, h]
  case ident name => exact .some rfl
  all_goals exact .none

theorem moves_modulePath : Moves φ (Sends (Ident.relocate φ)) modulePath modulePath := by
  refine moves_ident.firstOf (Moves.firstOf (moves_accept fun l _ => ?_) moves_firstOf_nil)
  cases h : l.token <;> simp only [Lexeme.relocate, h]
  case qualified qualifier name => exact .some rfl
  all_goals exact .none

theorem moves_callName :
    Moves φ (Sends fun x : Ident × Ident => (x.1.relocate φ, x.2.relocate φ)) callName
      callName := by
  refine moves_accept fun l hl => ?_
  cases h : l.token <;> simp only [Lexeme.relocate, h]
  case qualified qualifier name =>
    obtain ⟨hdot, hname⟩ := hl qualifier name h
    refine .some ?_
    simp [Ident.relocate, Span.relocate, hdot, hname]
  all_goals exact .none

theorem moves_literal : Moves φ (Sends (Literal.relocate φ)) literal literal := by
  refine moves_accept fun l _ => ?_
  cases h : l.token <;> simp only [Lexeme.relocate, h]
  case constant value => exact .some rfl
  all_goals exact .none

theorem moves_identOrLiteral :
    Moves φ (Sends (Operand.relocate φ)) identOrLiteral identOrLiteral := by
  refine Moves.firstOf (moves_literal.map ?_) (Moves.firstOf (moves_ident.map ?_) moves_firstOf_nil)
  · rintro lit _ rfl
    rfl
  · rintro id _ rfl
    rfl

theorem moves_operand : Moves φ (Sends (Operand.relocate φ)) operand operand := by
  refine Moves.firstOf (Moves.behind (moves_ident.bind ?_) _)
    (moves_identOrLiteral.firstOf moves_firstOf_nil)
  rintro id _ rfl
  exact moves_pure rfl

theorem moves_mapping : Moves φ (Sends (Mapping.relocate φ)) mapping mapping := by
  refine Moves.spanned (moves_identOrLiteral.bind ?_)
  rintro source _ rfl
  refine Moves.behind (moves_ident.bind ?_) _
  rintro target _ rfl
  exact moves_pure fun _ => rfl

theorem moves_mappings : Moves φ (Sends (List.map (Mapping.relocate φ))) mappings mappings :=
  moves_mapping.commaSeparated1

theorem moves_conditionAtom {self self' : Rule Condition}
    (h : Moves φ (Sends (Condition.relocate φ)) self self') :
    Moves φ (Sends (Condition.relocate φ)) (conditionAtom self) (conditionAtom self') := by
  refine Moves.firstOf (moves_operand.map ?_)
    (Moves.firstOf (Moves.spanned (h.inParens.bind ?_)) moves_firstOf_nil)
  · rintro operand _ rfl
    rfl
  · rintro inner _ rfl
    exact moves_pure fun _ => rfl

theorem moves_conditionLevels {r r' : Rule Condition} (levels : List (Token × ConditionOp))
    (h : Moves φ (Sends (Condition.relocate φ)) r r') :
    Moves φ (Sends (Condition.relocate φ)) (levels.foldl conditionLevel r)
      (levels.foldl conditionLevel r') := by
  induction levels generalizing r r' with
  | nil => exact h
  | cons level levels ih => exact ih (h.chain (moves_token _) _ fun _ _ _ => rfl)

theorem moves_condition : Moves φ (Sends (Condition.relocate φ)) condition condition :=
  moves_fix fun _ _ hself => moves_conditionLevels _ (moves_conditionAtom hself)

theorem moves_bracketed {r r' : Rule Ident} (h : Moves φ (Sends (Ident.relocate φ)) r r') :
    Moves φ (Sends (Ident.relocate φ)) (bracketed r) (bracketed r') :=
  (h.closed _).behind _

theorem moves_mergeSource : Moves φ (Sends (MergeSource.relocate φ)) mergeSource mergeSource := by
  refine Moves.firstOf (Moves.behind ((moves_bracketed moves_ident).bind ?_) _)
    (Moves.firstOf (Moves.behind ((moves_bracketed moves_ident).bind ?_) _)
      (Moves.firstOf (moves_literal.map ?_) moves_firstOf_nil))
  · rintro id _ rfl
    exact moves_pure rfl
  · rintro id _ rfl
    exact moves_pure rfl
  · rintro lit _ rfl
    rfl

theorem moves_mergeMapping :
    Moves φ (Sends (MergeMapping.relocate φ)) mergeMapping mergeMapping := by
  refine Moves.spanned (moves_mergeSource.bind ?_)
  rintro source _ rfl
  refine Moves.behind (moves_ident.bind ?_) _
  rintro target _ rfl
  exact moves_pure fun _ => rfl

theorem moves_choice {unary unary' : Rule Arrow}
    (h : Moves φ (Sends (Arrow.relocate φ)) unary unary') :
    Moves φ (SendsAt φ (Arrow.relocate φ)) (choice unary) (choice unary') := by
  refine Moves.behind (moves_condition.bind ?_) _
  rintro condition _ rfl
  refine (moves_token _).optional.bind fun _ _ _ => h.bind ?_
  rintro onTrue _ rfl
  refine (moves_token _).optional.bind fun _ _ _ => h.bind ?_
  rintro onFalse _ rfl
  exact moves_pure fun _ => rfl

theorem moves_wirePair : Moves φ (SendsAt φ (Arrow.relocate φ)) wirePair wirePair := by
  refine Moves.behind (moves_mappings.inParens.bind ?_) _
  rintro top _ rfl
  refine Moves.behind (moves_mappings.inParens.bind ?_) _
  rintro bottom _ rfl
  exact moves_pure fun _ => rfl

theorem moves_wire : Moves φ (SendsAt φ (Arrow.relocate φ)) wire wire := by
  refine Moves.behind (moves_mappings.bind ?_) _
  rintro entries _ rfl
  exact moves_pure fun _ => rfl

theorem moves_unaryArrow {arrow arrow' : Rule Arrow}
    (h : Moves φ (Sends (Arrow.relocate φ)) arrow arrow') :
    Moves φ (Sends (Arrow.relocate φ)) (unaryArrow arrow) (unaryArrow arrow') := by
  refine moves_fix fun unary unary' hunary => Moves.recover (Moves.spanned ?_) (Moves.spanned ?_)
  · refine Moves.firstOf (Moves.behind (hunary.bind ?_) _) ?_
    · rintro inner _ rfl
      exact moves_pure fun _ => rfl
    refine Moves.firstOf (Moves.behind (hunary.bind ?_) _) ?_
    · rintro inner _ rfl
      exact moves_pure fun _ => rfl
    refine Moves.firstOf (Moves.behind (moves_pure fun _ => rfl) _) ?_
    refine Moves.firstOf (Moves.behind (moves_mergeMapping.commaSeparated1.bind ?_) _) ?_
    · rintro entries _ rfl
      exact moves_pure fun _ => rfl
    refine moves_wirePair.firstOf (moves_wire.firstOf ((moves_choice hunary).firstOf ?_))
    refine Moves.firstOf (moves_ident.bind ?_)
      (Moves.firstOf (h.inParens.bind ?_) moves_firstOf_nil)
    · rintro component _ rfl
      exact moves_pure fun _ => rfl
    · rintro inner _ rfl
      exact moves_pure fun _ => rfl
  · exact (moves_skipUnless _).many1.bind fun _ _ _ => moves_pure fun _ => rfl

theorem moves_arrow : Moves φ (Sends (Arrow.relocate φ)) arrow arrow := by
  refine moves_fix fun self self' hself => ?_
  have hscalar := (moves_unaryArrow hself).chain (moves_token (.symbol .fanOut)) .fanOut
    fun _ _ _ => rfl
  have htuple := hscalar.chain (moves_token (.symbol .pairUp)) .pairUp fun _ _ _ => rfl
  exact htuple.chain (moves_token (.symbol .compose)) .compose fun _ _ _ => rfl

theorem moves_call : Moves φ (Sends (Call.relocate φ)) call call := by
  refine Moves.spanned (moves_callName.bind ?_)
  rintro name _ rfl
  refine moves_operand.commaSeparated.inParens.bind ?_
  rintro arguments _ rfl
  exact moves_pure fun _ => rfl

theorem moves_branchResult :
    Moves φ (Sends (BranchResult.relocate φ)) branchResult branchResult := by
  refine Moves.behind (Moves.firstOf (Moves.spanned ?_)
    (Moves.firstOf (moves_operand.map ?_) moves_firstOf_nil)) _
  · exact Moves.behind (Moves.behind (moves_pure fun _ => rfl) _) _
  · rintro operand _ rfl
    rfl

theorem moves_assignee : Moves φ (Sends (Ident.relocate φ)) assignee assignee :=
  moves_ident.closed _

theorem moves_letBinding : Moves φ (Sends (LetBinding.relocate φ)) letBinding letBinding := by
  refine Moves.spanned (moves_assignee.bind ?_)
  rintro target _ rfl
  refine moves_call.bind ?_
  rintro call _ rfl
  exact moves_pure fun _ => rfl

theorem moves_letCommand (target : Option Ident) :
    Moves φ (SendsAt φ (Command.relocate φ)) (letCommand target)
      (letCommand (target.map (Ident.relocate φ))) := by
  refine Moves.behind (moves_letBinding.many1.bind ?_) _
  rintro bindings _ rfl
  refine Moves.behind (moves_call.bind ?_) _
  rintro body _ rfl
  exact moves_pure fun _ => rfl

theorem moves_block {self self' : Rule Command}
    (h : Moves φ (Sends (Command.relocate φ)) self self') :
    Moves φ (Sends (Block.relocate φ)) (block self) (block self') := by
  refine Moves.spanned (h.many.bind ?_)
  rintro commands _ rfl
  refine moves_branchResult.bind ?_
  rintro result _ rfl
  refine moves_pure fun span => ?_
  rw [Block.relocate, relocateCommands_eq_map]

theorem moves_branchCommand {self self' : Rule Command}
    (h : Moves φ (Sends (Command.relocate φ)) self self') (target : Option Ident) :
    Moves φ (SendsAt φ (Command.relocate φ)) (branchCommand self target)
      (branchCommand self' (target.map (Ident.relocate φ))) := by
  refine Moves.behind (moves_condition.bind ?_) _
  rintro condition _ rfl
  refine Moves.behind ((moves_block h).bind ?_) _
  rintro onTrue _ rfl
  refine Moves.behind ((moves_block h).bind ?_) _
  rintro onFalse _ rfl
  exact Moves.behind (moves_pure fun _ => rfl) _

theorem moves_command : Moves φ (Sends (Command.relocate φ)) command command := by
  refine moves_fix fun self self' hself => Moves.recover (Moves.spanned ?_) (Moves.spanned ?_)
  · refine moves_assignee.optional.bind ?_
    rintro target _ rfl
    refine (moves_letCommand target).firstOf ((moves_branchCommand hself target).firstOf ?_)
    refine Moves.firstOf (moves_call.bind ?_) moves_firstOf_nil
    rintro call _ rfl
    exact moves_pure fun _ => rfl
  · refine (moves_skipUnless _).bind fun _ _ _ => (moves_skipUnless _).many.bind fun _ _ _ => ?_
    exact moves_pure fun _ => rfl

theorem moves_returnMapping :
    Moves φ (Sends (ReturnMapping.relocate φ)) returnMapping returnMapping := by
  refine Moves.spanned (moves_assignee.bind ?_)
  rintro target _ rfl
  refine moves_operand.bind ?_
  rintro source _ rfl
  exact moves_pure fun _ => rfl

theorem moves_doBlock : Moves φ (Sends (DoBlock.relocate φ)) doBlock doBlock := by
  refine Moves.spanned (moves_command.many.bind ?_)
  rintro commands _ rfl
  refine Moves.bind (R := Sends (Span.relocate φ))
    (Moves.spanned (Moves.behind (moves_pure fun _ => rfl) _)) ?_
  rintro returnSpan _ rfl
  refine moves_returnMapping.commaSeparated1.bind ?_
  rintro returns _ rfl
  refine moves_pure fun span => ?_
  rw [DoBlock.relocate, relocateCommands_eq_map]

theorem moves_identList : Moves φ (Sends (List.map (Ident.relocate φ))) identList identList :=
  moves_ident.commaSeparated1

theorem moves_signalClause :
    Moves φ (Sends (SignalClause.relocate φ)) signalClause signalClause := by
  refine Moves.firstOf (moves_identList.inParens.bind ?_)
    (Moves.firstOf (moves_identList.map ?_) moves_firstOf_nil)
  · rintro top _ rfl
    refine Moves.behind (moves_identList.inParens.bind ?_) _
    rintro bottom _ rfl
    exact moves_pure rfl
  · rintro names _ rfl
    rfl

theorem moves_declaration :
    Moves φ (Sends (Option.map (Declaration.relocate φ))) declaration declaration := by
  refine Moves.recover (Moves.spanned (moves_ident.bind ?_)) ?_
  · rintro name _ rfl
    refine Moves.behind (Moves.behind (moves_ident.bind ?_) _) _
    rintro component _ rfl
    refine (moves_mappings.behind _).optional.bind ?_
    rintro withClause _ rfl
    exact moves_pure fun _ => rfl
  · refine (moves_skipUnless _).bind fun _ _ _ => (moves_skipUnless _).many.bind fun _ _ _ => ?_
    exact moves_pure rfl

theorem moves_declarations :
    Moves φ (Sends (List.map (Declaration.relocate φ))) declarations declarations := by
  refine Moves.behind (moves_declaration.many1.bind ?_) _
  rintro ds _ rfl
  refine moves_pure ?_
  rw [Sends, List.filterMap_map, List.map_filterMap]
  rfl

def relocateDefinition (φ : Relocation) (x : List Declaration × Definition) :
    List Declaration × Definition :=
  (x.1.map (Declaration.relocate φ), x.2.relocate φ)

theorem moves_arrowDefinition :
    Moves φ (Sends (relocateDefinition φ)) arrowDefinition arrowDefinition := by
  refine moves_declarations.optional.bind ?_
  rintro ds _ rfl
  refine Moves.behind (moves_arrow.bind ?_) _
  rintro expression _ rfl
  refine moves_pure ?_
  cases ds <;> rfl

theorem moves_leafDefinition :
    Moves φ (Sends (relocateDefinition φ)) leafDefinition leafDefinition := by
  refine Moves.behind (moves_doBlock.bind ?_) _
  rintro body _ rfl
  exact moves_pure rfl

theorem moves_component : Moves φ (Sends (Component.relocate φ)) component component := by
  refine Moves.spanned (Moves.behind (moves_ident.bind ?_) _)
  rintro name _ rfl
  refine Moves.behind (moves_signalClause.bind ?_) _
  rintro inputs _ rfl
  refine Moves.behind (moves_signalClause.bind ?_) _
  rintro outputs _ rfl
  refine (moves_identList.behind _).optional.bind ?_
  rintro configuration _ rfl
  refine Moves.bind (moves_arrowDefinition.firstOf (moves_leafDefinition.firstOf moves_firstOf_nil))
    ?_
  rintro definition _ rfl
  refine moves_pure fun span => ?_
  cases configuration <;> rfl

theorem moves_importClause : Moves φ (Sends (Import.relocate φ)) importClause importClause := by
  refine Moves.spanned (Moves.behind (moves_modulePath.bind ?_) _)
  rintro path _ rfl
  refine Moves.behind (moves_ident.bind ?_) _
  rintro localName _ rfl
  exact moves_pure fun _ => rfl

theorem moves_program : Moves φ (Sends (Program.relocate φ)) program program := by
  refine Moves.spanned (moves_importClause.many.bind ?_)
  rintro imports _ rfl
  refine moves_component.bind ?_
  rintro component _ rfl
  exact moves_finish.bind fun _ _ _ => moves_pure fun _ => rfl

end Rule

end PipelineLang
