import PipelineLang.Leaf.Lowering
import PipelineLang.Proofs.Relocation.Resolution

/-! Lowering at other places: names are looked up by their spans, so a relocated leaf body with
relocated tables is lowered to the same, or fails for the same reason. -/

namespace PipelineLang

def LoweringError.relocate (φ : Relocation) (e : LoweringError) : LoweringError :=
  ⟨e.span.relocate φ, e.fault⟩

section Failing

variable {ε ε' α β : Type} (g : ε → ε')

theorem mapError_bind (x : Except ε α) (f : α → Except ε β) :
    (x >>= f).mapError g = x.mapError g >>= fun a => (f a).mapError g := by
  cases x <;> rfl

theorem mapError_mapM {f : α → Except ε β} {f' : α → Except ε' β} {move : α → α}
    (h : ∀ a, f' (move a) = (f a).mapError g) (as : List α) :
    (as.map move).mapM f' = (as.mapM f).mapError g := by
  induction as with
  | nil => rfl
  | cons a as ih =>
    rw [List.map_cons, List.mapM_cons, List.mapM_cons, mapError_bind, h, ih]
    congr 1
    funext b
    rw [mapError_bind]
    rfl

end Failing

namespace LeafTables

variable {φ : Relocation} (t : LeafTables)

theorem lowerTarget_relocate (target : Ident) :
    (t.relocate φ).lowerTarget (target.relocate φ) =
      (t.lowerTarget target).mapError (LoweringError.relocate φ) := by
  have hget : (t.relocate φ).targets.get? (target.relocate φ).span = t.targets.get? target.span :=
    Table.get?_relocate t.targets target.span
  rw [lowerTarget, lowerTarget, hget]
  cases t.targets.get? target.span <;> rfl

theorem lowerName_relocate (id : Ident) (shown : String) :
    (t.relocate φ).lowerName (id.relocate φ) shown =
      (t.lowerName id shown).mapError (LoweringError.relocate φ) := by
  have hget : (t.relocate φ).references.get? (id.relocate φ).span = t.references.get? id.span :=
    Table.get?_relocate t.references id.span
  rw [lowerName, lowerName, hget]
  cases t.references.get? id.span with
  | none => rfl
  | some ref => cases ref <;> rfl

theorem lowerOperand_relocate (operand : Operand) :
    (t.relocate φ).lowerOperand (operand.relocate φ) =
      (t.lowerOperand operand).mapError (LoweringError.relocate φ) := by
  cases operand with
  | literal lit => rfl
  | ident id => exact lowerName_relocate t id _
  | state id => exact lowerName_relocate t id _

theorem lowerCall_relocate (c : Call) :
    (t.relocate φ).lowerCall (c.relocate φ) =
      (t.lowerCall c).mapError (LoweringError.relocate φ) := by
  simp only [lowerCall, Call.relocate, mapError_bind, mapError_mapM _ (lowerOperand_relocate t)]
  rfl

theorem lowerCondition_relocate (c : Condition) :
    (t.relocate φ).lowerCondition (c.relocate φ) =
      (t.lowerCondition c).mapError (LoweringError.relocate φ) := by
  induction c with
  | binary op left right span ihl ihr =>
    simp only [Condition.relocate, lowerCondition, mapError_bind, ihl, ihr]
    rfl
  | paren inner span ih =>
    simp only [Condition.relocate, lowerCondition, mapError_bind, ih]
    rfl
  | terminal operand =>
    simp only [Condition.relocate, lowerCondition, mapError_bind, lowerOperand_relocate]
    rfl

theorem lowerBinding_relocate (b : LetBinding) :
    (t.relocate φ).lowerBinding (b.relocate φ) =
      (t.lowerBinding b).mapError (LoweringError.relocate φ) := by
  simp only [lowerBinding, LetBinding.relocate, mapError_bind, lowerTarget_relocate,
    lowerCall_relocate]
  rfl

theorem lowerOptionalTarget_relocate (target : Option Ident) :
    (t.relocate φ).lowerOptionalTarget (target.map (Ident.relocate φ)) =
      (t.lowerOptionalTarget target).mapError (LoweringError.relocate φ) := by
  cases target with
  | none => rfl
  | some id =>
    simp only [Option.map_some, lowerOptionalTarget, mapError_bind, lowerTarget_relocate]
    rfl

theorem lowerResult_relocate (result : BranchResult) :
    (t.relocate φ).lowerResult (result.relocate φ) =
      (t.lowerResult result).mapError (LoweringError.relocate φ) := by
  cases result with
  | unit span => rfl
  | value operand =>
    simp only [BranchResult.relocate, lowerResult, mapError_bind, lowerOperand_relocate]
    rfl

theorem lowerCommands_relocate :
    (∀ command number, (t.relocate φ).lowerCommand number (command.relocate φ) =
      (t.lowerCommand number command).mapError (LoweringError.relocate φ)) ∧
    (∀ block number, (t.relocate φ).lowerBlock number (block.relocate φ) =
      (t.lowerBlock number block).mapError (LoweringError.relocate φ)) ∧
    ∀ commands number, (t.relocate φ).lowerCommands number (relocateCommands φ commands) =
      (t.lowerCommands number commands).mapError (LoweringError.relocate φ) := by
  refine Command.induct ?call ?letIn ?branch ?failed ?block ?nil ?cons
  case call =>
    intro target call span number
    simp only [Command.relocate, lowerCommand, mapError_bind, lowerCall_relocate,
      lowerOptionalTarget_relocate]
    rfl
  case letIn =>
    intro target bindings body span number
    simp only [Command.relocate, lowerCommand, mapError_bind,
      mapError_mapM _ (lowerBinding_relocate t), lowerCall_relocate, lowerOptionalTarget_relocate]
    rfl
  case branch =>
    intro target condition onTrue onFalse span iht ihf number
    simp only [Command.relocate, lowerCommand, mapError_bind, lowerCondition_relocate, iht, ihf,
      lowerOptionalTarget_relocate]
    rfl
  case failed =>
    intro span number
    rfl
  case block =>
    intro commands result span ih number
    simp only [Block.relocate, lowerBlock, mapError_bind, ih, lowerResult_relocate]
    rfl
  case nil =>
    intro number
    rfl
  case cons =>
    intro command commands ihc ihs number
    simp only [relocateCommands, lowerCommands, mapError_bind, ihc, ihs]
    rfl

theorem lowerReturns_relocate (returns : List ReturnMapping) :
    (returns.map (ReturnMapping.relocate φ)).mapM (fun (m : ReturnMapping) => do
        return (m.target.name, ← (t.relocate φ).lowerOperand m.source)) =
      (returns.mapM fun (m : ReturnMapping) => do
        return (m.target.name, ← t.lowerOperand m.source)).mapError (LoweringError.relocate φ) := by
  refine mapError_mapM _ (fun m => ?_) returns
  simp only [ReturnMapping.relocate, mapError_bind, lowerOperand_relocate]
  rfl

end LeafTables

theorem DoBlock.lower_relocate (φ : Relocation) (body : DoBlock) (t : LeafTables) :
    (body.relocate φ).lower (t.relocate φ) =
      (body.lower t).mapError (LoweringError.relocate φ) := by
  simp only [lower, DoBlock.relocate, mapError_bind, (LeafTables.lowerCommands_relocate t).2.2,
    LeafTables.lowerReturns_relocate]
  rfl

end PipelineLang
