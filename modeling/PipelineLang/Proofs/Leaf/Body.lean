import PipelineLang.Leaf
import PipelineLang.Proofs.Terms

/-! The places of a leaf body at which names are bound or values read, in the order of the text, and
bodies that were read whole. -/

namespace PipelineLang

namespace Call

def marks (c : Call) : List Span := c.arguments.map Operand.span

end Call

namespace LetBinding

def marks (b : LetBinding) : List Span := b.target.span :: b.call.marks

end LetBinding

namespace BranchResult

def marks : BranchResult → List Span
  | unit _ => []
  | value operand => [operand.span]

end BranchResult

def targetMarks (target : Option Ident) : List Span := (target.map Ident.span).toList

mutual

def Command.marks : Command → List Span
  | .call target call _ => targetMarks target ++ call.marks
  | .letIn target bindings body _ =>
    targetMarks target ++ (bindings.flatMap LetBinding.marks ++ body.marks)
  | .branch target condition onTrue onFalse _ =>
    targetMarks target ++ (condition.marks ++ (onTrue.marks ++ onFalse.marks))
  | .failed _ => []

def Block.marks : Block → List Span
  | .mk commands result _ => commandsMarks commands ++ result.marks

def commandsMarks : List Command → List Span
  | [] => []
  | command :: commands => command.marks ++ commandsMarks commands

end

mutual

def Command.intact : Command → Bool
  | .call _ _ _ | .letIn _ _ _ _ => true
  | .branch _ _ onTrue onFalse _ => onTrue.intact && onFalse.intact
  | .failed _ => false

def Block.intact : Block → Bool
  | .mk commands _ _ => allIntact commands

def allIntact : List Command → Bool
  | [] => true
  | command :: commands => command.intact && allIntact commands

end

mutual

def Command.bound : Command → List Ident
  | .call target _ _ => target.toList
  | .letIn target bindings _ _ => bindings.map LetBinding.target ++ target.toList
  | .branch target _ onTrue onFalse _ => onTrue.bound ++ onFalse.bound ++ target.toList
  | .failed _ => []

def Block.bound : Block → List Ident
  | .mk commands _ _ => allBound commands

def allBound : List Command → List Ident
  | [] => []
  | command :: commands => command.bound ++ allBound commands

end

mutual

def Command.calls : Command → List Call
  | .call _ call _ => [call]
  | .letIn _ bindings body _ => bindings.map LetBinding.call ++ [body]
  | .branch _ _ onTrue onFalse _ => onTrue.calls ++ onFalse.calls
  | .failed _ => []

def Block.calls : Block → List Call
  | .mk commands _ _ => callsOf commands

def callsOf : List Command → List Call
  | [] => []
  | command :: commands => command.calls ++ callsOf commands

end

def BranchResult.operands : BranchResult → List Operand
  | unit _ => []
  | value operand => [operand]

mutual

/-- The operands that a command reads, in the order of the text. -/
def Command.operands : Command → List Operand
  | .call _ call _ => call.arguments
  | .letIn _ bindings body _ => bindings.flatMap (fun b => b.call.arguments) ++ body.arguments
  | .branch _ condition onTrue onFalse _ =>
    condition.operands ++ (onTrue.operands ++ onFalse.operands)
  | .failed _ => []

def Block.operands : Block → List Operand
  | .mk commands result _ => operandsOf commands ++ result.operands

def operandsOf : List Command → List Operand
  | [] => []
  | command :: commands => command.operands ++ operandsOf commands

end

namespace DoBlock

def operands (b : DoBlock) : List Operand :=
  operandsOf b.commands ++ b.returns.map ReturnMapping.source

def marks (b : DoBlock) : List Span :=
  commandsMarks b.commands ++ b.returns.map fun m => m.source.span

end DoBlock

/-- What holds of all commands when it is carried through their blocks. -/
theorem Command.induct {P : Command → Prop} {B : Block → Prop} {L : List Command → Prop}
    (call : ∀ target call span, P (.call target call span))
    (letIn : ∀ target bindings body span, P (.letIn target bindings body span))
    (branch : ∀ target condition onTrue onFalse span, B onTrue → B onFalse →
      P (.branch target condition onTrue onFalse span))
    (failed : ∀ span, P (.failed span))
    (block : ∀ commands result span, L commands → B (.mk commands result span))
    (nil : L []) (cons : ∀ command commands, P command → L commands → L (command :: commands)) :
    (∀ command, P command) ∧ (∀ block, B block) ∧ ∀ commands, L commands :=
  ⟨@Command.rec P B L call letIn branch failed block nil cons,
    @Block.rec P B L call letIn branch failed block nil cons,
    @Command.rec_1 P B L call letIn branch failed block nil cons⟩

theorem sublist_marks :
    (∀ command : Command, (command.operands.map Operand.span).Sublist command.marks) ∧
      (∀ block : Block, (block.operands.map Operand.span).Sublist block.marks) ∧
      ∀ commands, ((operandsOf commands).map Operand.span).Sublist (commandsMarks commands) := by
  refine Command.induct ?call ?letIn ?branch ?failed ?block ?nil ?cons
  case call => exact fun target call span => List.sublist_append_right _ _
  case letIn =>
    intro target bindings body span
    have hbindings : ((bindings.flatMap fun b => b.call.arguments).map Operand.span).Sublist
        (bindings.flatMap LetBinding.marks) := by
      rw [List.map_flatMap]
      induction bindings with
      | nil => exact .refl _
      | cons b bindings ih => exact (List.sublist_cons_self _ _).append ih
    rw [Command.operands, List.map_append]
    exact (hbindings.append (.refl _)).trans (List.sublist_append_right _ _)
  case branch =>
    intro target condition onTrue onFalse span iht ihf
    rw [Command.operands, List.map_append, List.map_append]
    exact (List.Sublist.append (.refl _) (iht.append ihf)).trans (List.sublist_append_right _ _)
  case failed => exact fun span => .refl _
  case block =>
    intro commands result span ih
    rw [Block.operands, List.map_append]
    exact ih.append (by cases result <;> exact .refl _)
  case nil => exact .refl _
  case cons =>
    intro command commands ihc ihs
    rw [operandsOf, List.map_append]
    exact ihc.append ihs

theorem DoBlock.nodup_operands {body : DoBlock} (h : body.marks.Nodup) :
    (body.operands.map Operand.span).Nodup := by
  rw [operands, List.map_append, List.map_map]
  exact h.sublist ((sublist_marks.2.2 body.commands).append (.refl _))

end PipelineLang
