import PipelineLang.Program

/-!
Programs at other places. A relocation sends the places of one text to those of another, and a
program is relocated by moving every span in it; nothing else of it changes.
-/

namespace PipelineLang

/-- Where the starts and the ends of spans go. No two starts fall together, and no two ends. -/
structure Relocation where
  start : Nat → Nat
  stop : Nat → Nat
  start_injective : ∀ {m n : Nat}, start m = start n → m = n
  stop_injective : ∀ {m n : Nat}, stop m = stop n → m = n

def Relocation.refl : Relocation := ⟨id, id, id, id⟩

def Span.relocate (φ : Relocation) (s : Span) : Span := ⟨φ.start s.start, φ.stop s.stop⟩

theorem Span.relocate_inj {φ : Relocation} {s t : Span} : s.relocate φ = t.relocate φ ↔ s = t := by
  constructor
  · intro h
    obtain ⟨hstart, hstop⟩ := Span.mk.inj h
    cases s
    cases t
    simp only [Span.mk.injEq]
    exact ⟨φ.start_injective hstart, φ.stop_injective hstop⟩
  · rintro rfl
    rfl

def Ident.relocate (φ : Relocation) (id : Ident) : Ident := ⟨id.name, id.span.relocate φ⟩

def Literal.relocate (φ : Relocation) (lit : Literal) : Literal := ⟨lit.value, lit.span.relocate φ⟩

def Operand.relocate (φ : Relocation) : Operand → Operand
  | ident id => ident (id.relocate φ)
  | literal lit => literal (lit.relocate φ)
  | state id => state (id.relocate φ)

def Mapping.relocate (φ : Relocation) (m : Mapping) : Mapping :=
  ⟨m.source.relocate φ, m.target.relocate φ, m.span.relocate φ⟩

def Condition.relocate (φ : Relocation) : Condition → Condition
  | binary op left right span => binary op (left.relocate φ) (right.relocate φ) (span.relocate φ)
  | paren inner span => paren (inner.relocate φ) (span.relocate φ)
  | terminal operand => terminal (operand.relocate φ)

def MergeSource.relocate (φ : Relocation) : MergeSource → MergeSource
  | top id => top (id.relocate φ)
  | bottom id => bottom (id.relocate φ)
  | literal lit => literal (lit.relocate φ)

def MergeMapping.relocate (φ : Relocation) (m : MergeMapping) : MergeMapping :=
  ⟨m.source.relocate φ, m.target.relocate φ, m.span.relocate φ⟩

def Arrow.relocate (φ : Relocation) : Arrow → Arrow
  | compose left right span => compose (left.relocate φ) (right.relocate φ) (span.relocate φ)
  | pairUp left right span => pairUp (left.relocate φ) (right.relocate φ) (span.relocate φ)
  | fanOut left right span => fanOut (left.relocate φ) (right.relocate φ) (span.relocate φ)
  | first inner span => first (inner.relocate φ) (span.relocate φ)
  | second inner span => second (inner.relocate φ) (span.relocate φ)
  | split span => split (span.relocate φ)
  | merge entries span => merge (entries.map (MergeMapping.relocate φ)) (span.relocate φ)
  | wire entries span => wire (entries.map (Mapping.relocate φ)) (span.relocate φ)
  | wirePair top bottom span =>
    wirePair (top.map (Mapping.relocate φ)) (bottom.map (Mapping.relocate φ)) (span.relocate φ)
  | choose condition onTrue onFalse span =>
    choose (condition.relocate φ) (onTrue.relocate φ) (onFalse.relocate φ) (span.relocate φ)
  | use component span => use (component.relocate φ) (span.relocate φ)
  | paren inner span => paren (inner.relocate φ) (span.relocate φ)
  | failed span => failed (span.relocate φ)

def Call.relocate (φ : Relocation) (c : Call) : Call :=
  ⟨c.package.relocate φ, c.function.relocate φ, c.arguments.map (Operand.relocate φ),
    c.span.relocate φ⟩

def LetBinding.relocate (φ : Relocation) (b : LetBinding) : LetBinding :=
  ⟨b.target.relocate φ, b.call.relocate φ, b.span.relocate φ⟩

def BranchResult.relocate (φ : Relocation) : BranchResult → BranchResult
  | unit span => unit (span.relocate φ)
  | value operand => value (operand.relocate φ)

mutual

def Command.relocate (φ : Relocation) : Command → Command
  | .call target call span =>
    .call (target.map (Ident.relocate φ)) (call.relocate φ) (span.relocate φ)
  | .letIn target bindings body span =>
    .letIn (target.map (Ident.relocate φ)) (bindings.map (LetBinding.relocate φ)) (body.relocate φ)
      (span.relocate φ)
  | .branch target condition onTrue onFalse span =>
    .branch (target.map (Ident.relocate φ)) (condition.relocate φ) (onTrue.relocate φ)
      (onFalse.relocate φ) (span.relocate φ)
  | .failed span => .failed (span.relocate φ)

def Block.relocate (φ : Relocation) : Block → Block
  | .mk commands result span =>
    .mk (relocateCommands φ commands) (result.relocate φ) (span.relocate φ)

def relocateCommands (φ : Relocation) : List Command → List Command
  | [] => []
  | command :: commands => command.relocate φ :: relocateCommands φ commands

end

theorem relocateCommands_eq_map (φ : Relocation) (commands : List Command) :
    relocateCommands φ commands = commands.map (Command.relocate φ) := by
  induction commands with
  | nil => rfl
  | cons command commands ih => rw [relocateCommands, ih, List.map_cons]

def ReturnMapping.relocate (φ : Relocation) (m : ReturnMapping) : ReturnMapping :=
  ⟨m.target.relocate φ, m.source.relocate φ, m.span.relocate φ⟩

def DoBlock.relocate (φ : Relocation) (b : DoBlock) : DoBlock :=
  ⟨relocateCommands φ b.commands, b.returns.map (ReturnMapping.relocate φ), b.returnSpan.relocate φ,
    b.span.relocate φ⟩

def Import.relocate (φ : Relocation) (i : Import) : Import :=
  ⟨i.path.relocate φ, i.localName.relocate φ, i.span.relocate φ⟩

def SignalClause.relocate (φ : Relocation) : SignalClause → SignalClause
  | flat names => flat (names.map (Ident.relocate φ))
  | pair top bottom => pair (top.map (Ident.relocate φ)) (bottom.map (Ident.relocate φ))

def Declaration.relocate (φ : Relocation) (d : Declaration) : Declaration :=
  ⟨d.name.relocate φ, d.component.relocate φ, d.withClause.map (List.map (Mapping.relocate φ)),
    d.span.relocate φ⟩

def Definition.relocate (φ : Relocation) : Definition → Definition
  | arrow expression => arrow (expression.relocate φ)
  | leaf body => leaf (body.relocate φ)

def Component.relocate (φ : Relocation) (c : Component) : Component where
  name := c.name.relocate φ
  inputs := c.inputs.relocate φ
  outputs := c.outputs.relocate φ
  configuration := c.configuration.map (Ident.relocate φ)
  declarations := c.declarations.map (Declaration.relocate φ)
  definition := c.definition.relocate φ
  span := c.span.relocate φ

def Program.relocate (φ : Relocation) (p : Program) : Program :=
  ⟨p.imports.map (Import.relocate φ), p.component.relocate φ, p.span.relocate φ⟩

section Unchanged

variable (φ : Relocation)

@[simp] theorem Ident.name_relocate (id : Ident) : (id.relocate φ).name = id.name := rfl

theorem Ident.map_name_relocate (ids : List Ident) :
    (ids.map (Ident.relocate φ)).map Ident.name = ids.map Ident.name := by
  simp [Function.comp_def]

@[simp] theorem SignalClause.names_relocate (clause : SignalClause) :
    (clause.relocate φ).names = clause.names.map (Ident.relocate φ) := by
  cases clause <;> simp [relocate, names]

@[simp] theorem SignalClause.contains_relocate (clause : SignalClause) (name : String) :
    (clause.relocate φ).contains name = clause.contains name := by
  rw [contains, names_relocate, List.any_map]
  rfl

@[simp] theorem Condition.terminals_relocate (c : Condition) :
    (c.relocate φ).terminals = c.terminals.map (Operand.relocate φ) := by
  induction c with
  | binary op left right span ihl ihr => simp [relocate, terminals, ihl, ihr]
  | paren inner span ih => simpa [relocate, terminals] using ih
  | terminal operand => rfl

@[simp] theorem Component.isLeaf_relocate (c : Component) : (c.relocate φ).isLeaf = c.isLeaf := by
  obtain ⟨_, _, _, _, _, definition, _⟩ := c
  cases definition <;> rfl

@[simp] theorem Declaration.settings_relocate (d : Declaration) :
    (d.relocate φ).settings = d.settings.map (Mapping.relocate φ) := by
  obtain ⟨_, _, withClause, _⟩ := d
  cases withClause <;> rfl

end Unchanged

end PipelineLang
