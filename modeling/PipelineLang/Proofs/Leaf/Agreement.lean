import PipelineLang.Proofs.Leaf.Body
import PipelineLang.Proofs.Symbols.Frames
import PipelineLang.Symbols

/-! How the variables of a leaf body are numbered when its names are taken by their scopes, and
tables that agree with it: at each place they tell what the name there means. -/

namespace PipelineLang

namespace Numbering

def meaning (ν : Numbering) (x : String) : Reference :=
  match ν.frames.find? x with
  | some v => .bound v
  | none => .input

def afterTarget (ν : Numbering) : Option Ident → Numbering
  | some id => ν.bind id.name
  | none => ν

def afterBindings (ν : Numbering) (bindings : List LetBinding) : Numbering :=
  bindings.foldl (fun ν b => ν.bind b.target.name) ν

mutual

def afterCommand (ν : Numbering) : Command → Numbering
  | .call target _ _ => ν.afterTarget target
  | .letIn target bindings _ _ => (ν.push.afterBindings bindings).pop.afterTarget target
  | .branch target _ onTrue onFalse _ =>
    ((ν.push.afterBlock onTrue).pop.push.afterBlock onFalse).pop.afterTarget target
  | .failed _ => ν

def afterBlock (ν : Numbering) : Block → Numbering
  | .mk commands _ _ => ν.afterCommands commands

def afterCommands (ν : Numbering) : List Command → Numbering
  | [] => ν
  | command :: commands => (ν.afterCommand command).afterCommands commands

end

def start : Numbering := ⟨[[]], 0⟩

/-- The second numbering has the frames of the first around its own, and has come further. -/
structure Within (ν ν' : Numbering) : Prop where
  nonempty : ν'.frames ≠ []
  outer : ν'.frames.tail = ν.frames.tail
  next : ν.next ≤ ν'.next

namespace Within

variable {ν ν' ν'' : Numbering}

theorem refl (h : ν.frames ≠ []) : ν.Within ν := ⟨h, rfl, Nat.le_refl _⟩

theorem trans (h : ν.Within ν') (h' : ν'.Within ν'') : ν.Within ν'' :=
  ⟨h'.nonempty, h'.outer.trans h.outer, Nat.le_trans h.next h'.next⟩

theorem bind (h : ν.frames ≠ []) (x : String) : ν.Within (ν.bind x) := by
  obtain ⟨frame, outer, hframes⟩ := List.exists_cons_of_ne_nil h
  refine ⟨?_, ?_, Nat.le_succ _⟩ <;> simp [Numbering.bind, Frames.bind, hframes]

theorem pop_frames (h : ν.push.Within ν') : ν'.pop.frames = ν.frames := h.outer

theorem pop (h : ν.push.Within ν') (hne : ν.frames ≠ []) : ν.Within ν'.pop :=
  ⟨h.pop_frames ▸ hne, congrArg List.tail h.pop_frames, h.next⟩

end Within

theorem within_afterTarget {ν : Numbering} (h : ν.frames ≠ []) (target : Option Ident) :
    ν.Within (ν.afterTarget target) := by
  cases target with
  | none => exact .refl h
  | some id => exact .bind h id.name

theorem within_afterBindings {ν : Numbering} (h : ν.frames ≠ []) (bindings : List LetBinding) :
    ν.Within (ν.afterBindings bindings) := by
  induction bindings generalizing ν with
  | nil => exact .refl h
  | cons b bindings ih =>
    have hb := Within.bind h b.target.name
    exact hb.trans (ih hb.nonempty)

theorem within_after :
    (∀ command (ν : Numbering), ν.frames ≠ [] → ν.Within (ν.afterCommand command)) ∧
      (∀ block (ν : Numbering), ν.frames ≠ [] → ν.Within (ν.afterBlock block)) ∧
      ∀ commands (ν : Numbering), ν.frames ≠ [] → ν.Within (ν.afterCommands commands) := by
  refine Command.induct ?call ?letIn ?branch ?failed ?block ?nil ?cons
  case call =>
    intro target call span ν h
    exact within_afterTarget h target
  case letIn =>
    intro target bindings body span ν h
    have hb := (within_afterBindings (List.cons_ne_nil [] ν.frames) bindings).pop h
    exact hb.trans (within_afterTarget hb.nonempty target)
  case branch =>
    intro target condition onTrue onFalse span iht ihf ν h
    have ht := (iht ν.push (List.cons_ne_nil _ _)).pop h
    have hf := (ihf (ν.push.afterBlock onTrue).pop.push (List.cons_ne_nil _ _)).pop ht.nonempty
    exact (ht.trans hf).trans (within_afterTarget hf.nonempty target)
  case failed => exact fun span ν h => .refl h
  case block => exact fun commands result span ih ν h => ih ν h
  case nil => exact fun ν h => .refl h
  case cons =>
    intro command commands ihc ihs ν h
    exact (ihc ν h).trans (ihs _ (ihc ν h).nonempty)

end Numbering

namespace LeafTables

variable (t : LeafTables)

def OperandAgrees (ν : Numbering) : Operand → Prop
  | .ident id => t.references.get? id.span = some (ν.meaning id.name)
  | .state id => t.references.get? id.span = some .state
  | .literal _ => True

def CallAgrees (ν : Numbering) (call : Call) : Prop :=
  ∀ operand ∈ call.arguments, t.OperandAgrees ν operand

def ConditionAgrees (ν : Numbering) (condition : Condition) : Prop :=
  ∀ operand ∈ condition.operands, t.OperandAgrees ν operand

def TargetAgrees (ν : Numbering) : Option Ident → Prop
  | some id => t.targets.get? id.span = some ν.next
  | none => True

def BindingsAgree (ν : Numbering) : List LetBinding → Prop
  | [] => True
  | b :: bindings =>
    t.CallAgrees ν b.call ∧ t.TargetAgrees ν (some b.target) ∧
      BindingsAgree (ν.bind b.target.name) bindings

def ResultAgrees (ν : Numbering) : BranchResult → Prop
  | .unit _ => True
  | .value operand => t.OperandAgrees ν operand

mutual

/-- The tables tell of every name in the command what it means by its scope. -/
def CommandAgrees (ν : Numbering) : Command → Prop
  | .call target call _ => t.CallAgrees ν call ∧ t.TargetAgrees ν target
  | .letIn target bindings body _ =>
    t.BindingsAgree ν.push bindings ∧ t.CallAgrees (ν.push.afterBindings bindings) body ∧
      t.TargetAgrees (ν.push.afterBindings bindings).pop target
  | .branch target condition onTrue onFalse _ =>
    t.ConditionAgrees ν condition ∧ BlockAgrees ν.push onTrue ∧
      BlockAgrees (ν.push.afterBlock onTrue).pop.push onFalse ∧
      t.TargetAgrees ((ν.push.afterBlock onTrue).pop.push.afterBlock onFalse).pop target
  | .failed _ => False

def BlockAgrees (ν : Numbering) : Block → Prop
  | .mk commands result _ =>
    CommandsAgree ν commands ∧ t.ResultAgrees (ν.afterCommands commands) result

def CommandsAgree (ν : Numbering) : List Command → Prop
  | [] => True
  | command :: commands => CommandAgrees ν command ∧ CommandsAgree (ν.afterCommand command) commands

end

def BodyAgrees (body : DoBlock) : Prop :=
  t.CommandsAgree .start body.commands ∧
    ∀ m ∈ body.returns, t.OperandAgrees (Numbering.start.afterCommands body.commands) m.source

end LeafTables

end PipelineLang
