import PipelineLang.Leaf.Lowering
import PipelineLang.Proofs.Leaf.Agreement

/-! The lowered forms of a leaf body, told by the scopes alone, and lowering by tables that agree
with the body: it always finds one of them. -/

namespace PipelineLang

namespace Numbering

def value (ν : Numbering) : Operand → LoweredValue
  | .ident id =>
    match ν.frames.find? id.name with
    | some v => .bound ⟨id.name, v⟩
    | none => .input id.name
  | .state id => .state id.name
  | .literal lit => .constant lit.value

def call (ν : Numbering) (c : Call) : LoweredCall :=
  ⟨c.package.name, c.function.name, c.arguments.map ν.value⟩

def condition (ν : Numbering) : Condition → LoweredCondition
  | .binary op left right _ => .binary op (ν.condition left) (ν.condition right)
  | .paren inner _ => .paren (ν.condition inner)
  | .terminal operand => .value (ν.value operand)

def target (ν : Numbering) (target : Option Ident) : Option LocalVariable :=
  target.map fun id => ⟨id.name, ν.next⟩

def bindings (ν : Numbering) : List LetBinding → List (LocalVariable × LoweredCall)
  | [] => []
  | b :: bs => (⟨b.target.name, ν.next⟩, ν.call b.call) :: (ν.bind b.target.name).bindings bs

def result (ν : Numbering) : BranchResult → Option LoweredValue
  | .unit _ => none
  | .value operand => some (ν.value operand)

mutual

/-- The command has this lowered form, whatever number it gets. -/
def CommandLowers (ν : Numbering) : Command → LoweredCommand → Prop
  | .call target call _, l => ∃ n, l = .call n (ν.target target) (ν.call call)
  | .letIn target bindings body _, l =>
    ∃ n, l = .letIn n ((ν.push.afterBindings bindings).pop.target target) (ν.push.bindings bindings)
      ((ν.push.afterBindings bindings).call body)
  | .branch target condition onTrue onFalse _, l =>
    ∃ n t f, BlockLowers ν.push onTrue t ∧ BlockLowers (ν.push.afterBlock onTrue).pop.push onFalse
      f ∧ l = .branch n (((ν.push.afterBlock onTrue).pop.push.afterBlock onFalse).pop.target target)
        (ν.condition condition) t f
  | .failed _, _ => False

def BlockLowers (ν : Numbering) : Block → LoweredBlock → Prop
  | .mk commands result _, l =>
    ∃ ls, CommandsLower ν commands ls ∧ l = .mk ls ((ν.afterCommands commands).result result)

def CommandsLower (ν : Numbering) : List Command → List LoweredCommand → Prop
  | [], ls => ls = []
  | command :: commands, ls =>
    ∃ l rest, CommandLowers ν command l ∧ CommandsLower (ν.afterCommand command) commands rest ∧
    ls = l :: rest

end

def BodyLowers (body : DoBlock) (leaf : LoweredLeaf) : Prop :=
  start.CommandsLower body.commands leaf.commands ∧
    leaf.returns = body.returns.map fun m =>
      (m.target.name, (start.afterCommands body.commands).value m.source)

end Numbering

namespace LeafTables

variable {t : LeafTables} {ν : Numbering}

theorem mapM_eq_ok {α β ε : Type} {f : α → Except ε β} {g : α → β} {xs : List α}
    (h : ∀ x ∈ xs, f x = .ok (g x)) : xs.mapM f = .ok (xs.map g) := by
  induction xs with
  | nil => rfl
  | cons x xs ih =>
    rw [List.forall_mem_cons] at h
    rw [List.mapM_cons, h.1, ih h.2]
    rfl

theorem lowerOperand_eq {operand : Operand} (h : t.OperandAgrees ν operand) :
    t.lowerOperand operand = .ok (ν.value operand) := by
  cases operand with
  | ident id =>
    have h : t.references.get? id.span = some (ν.meaning id.name) := h
    simp only [lowerOperand, lowerName, h, Numbering.meaning, Numbering.value]
    cases ν.frames.find? id.name <;> rfl
  | state id =>
    have h : t.references.get? id.span = some .state := h
    simp only [lowerOperand, lowerName, h, Numbering.value]
  | literal lit => rfl

theorem lowerCall_eq {call : Call} (h : t.CallAgrees ν call) :
    t.lowerCall call = .ok (ν.call call) := by
  rw [lowerCall, mapM_eq_ok fun operand hm => lowerOperand_eq (h operand hm)]
  rfl

theorem lowerCondition_eq {condition : Condition} (h : t.ConditionAgrees ν condition) :
    t.lowerCondition condition = .ok (ν.condition condition) := by
  induction condition with
  | binary op left right span ihl ihr =>
    rw [lowerCondition, ihl fun o ho => h o (List.mem_append_left _ ho),
      ihr fun o ho => h o (List.mem_append_right _ ho)]
    rfl
  | paren inner span ih =>
    rw [lowerCondition, ih h]
    rfl
  | terminal operand =>
    rw [lowerCondition, lowerOperand_eq (h operand List.mem_cons_self)]
    rfl

theorem lowerOptionalTarget_eq {target : Option Ident} (h : t.TargetAgrees ν target) :
    t.lowerOptionalTarget target = .ok (ν.target target) := by
  cases target with
  | none => rfl
  | some id =>
    have h : t.targets.get? id.span = some ν.next := h
    simp only [lowerOptionalTarget, lowerTarget, h]
    rfl

theorem lowerBindings_eq {bindings : List LetBinding} (h : t.BindingsAgree ν bindings) :
    bindings.mapM t.lowerBinding = .ok (ν.bindings bindings) := by
  induction bindings generalizing ν with
  | nil => rfl
  | cons b bindings ih =>
    obtain ⟨hcall, htarget, hrest⟩ := h
    have htarget : t.targets.get? b.target.span = some ν.next := htarget
    rw [List.mapM_cons, ih hrest, lowerBinding, lowerCall_eq hcall, lowerTarget, htarget]
    rfl

theorem lowerResult_eq {result : BranchResult} (h : t.ResultAgrees ν result) :
    t.lowerResult result = .ok (ν.result result) := by
  cases result with
  | unit span => rfl
  | value operand =>
    rw [lowerResult, lowerOperand_eq h]
    rfl

theorem exists_lowerCommands (t : LeafTables) :
    (∀ command ν number, t.CommandAgrees ν command →
      ∃ l next, t.lowerCommand number command = .ok (l, next) ∧ ν.CommandLowers command l) ∧
    (∀ block ν number, t.BlockAgrees ν block →
      ∃ l next, t.lowerBlock number block = .ok (l, next) ∧ ν.BlockLowers block l) ∧
    ∀ commands ν number, t.CommandsAgree ν commands →
      ∃ ls next, t.lowerCommands number commands = .ok (ls, next) ∧
      ν.CommandsLower commands ls := by
  refine Command.induct ?call ?letIn ?branch ?failed ?block ?nil ?cons
  case call =>
    intro target call span ν number ⟨hcall, htarget⟩
    refine ⟨_, number + 1, ?_, number, rfl⟩
    rw [lowerCommand, lowerCall_eq hcall, lowerOptionalTarget_eq htarget]
    rfl
  case letIn =>
    intro target bindings body span ν number ⟨hbindings, hbody, htarget⟩
    refine ⟨_, number + 1, ?_, number, rfl⟩
    rw [lowerCommand, lowerBindings_eq hbindings, lowerCall_eq hbody,
      lowerOptionalTarget_eq htarget]
    rfl
  case branch =>
    intro target condition onTrue onFalse span iht ihf ν number ⟨hcondition, htrue, hfalse, htarget⟩
    obtain ⟨l, next, hl, hlowers⟩ := iht _ (number + 1) htrue
    obtain ⟨l', next', hl', hlowers'⟩ := ihf _ next hfalse
    refine ⟨_, next', ?_, number, l, l', hlowers, hlowers', rfl⟩
    rw [lowerCommand, lowerCondition_eq hcondition, hl, lowerOptionalTarget_eq htarget]
    simp only [bind, Except.bind, hl']
    rfl
  case failed =>
    intro span ν number h
    exact h.elim
  case block =>
    intro commands result span ih ν number ⟨hcommands, hresult⟩
    obtain ⟨ls, next, hls, hlowers⟩ := ih ν number hcommands
    refine ⟨_, next, ?_, ls, hlowers, rfl⟩
    rw [lowerBlock, hls, lowerResult_eq hresult]
    rfl
  case nil =>
    intro ν number _
    exact ⟨[], number, rfl, rfl⟩
  case cons =>
    intro command commands ihc ihs ν number ⟨hcommand, hcommands⟩
    obtain ⟨l, next, hl, hlowers⟩ := ihc ν number hcommand
    obtain ⟨ls, next', hls, hlowers'⟩ := ihs _ next hcommands
    refine ⟨l :: ls, next', ?_, l, ls, hlowers, hlowers', rfl⟩
    rw [lowerCommands, hl]
    simp only [bind, Except.bind, hls]
    rfl

theorem BodyAgrees.exists_lower {body : DoBlock} (h : t.BodyAgrees body) :
    ∃ leaf, body.lower t = .ok leaf ∧ Numbering.BodyLowers body leaf := by
  obtain ⟨ls, next, hls, hlowers⟩ := (exists_lowerCommands t).2.2 _ _ 0 h.1
  refine ⟨⟨ls, _⟩, ?_, hlowers, rfl⟩
  rw [DoBlock.lower, hls]
  simp only [bind, Except.bind]
  rw [mapM_eq_ok (g := fun m => (m.target.name,
    (Numbering.start.afterCommands body.commands).value m.source))]
  · rfl
  · intro m hm
    simp only [lowerOperand_eq (h.2 m hm)]
    rfl

end LeafTables

end PipelineLang
