import PipelineLang.Leaf.Lowered
import PipelineLang.Proofs.Symbols.Frames

/-! What leaf bodies do: as they are written, where names are looked up in nested scopes, and in
lowered form, where variables are looked up by their numbers. -/

namespace PipelineLang

universe u

structure CallEvent (V : Type u) where
  package : String
  function : String
  arguments : List V
  value : V

/-- All that a leaf body reads from outside. The value of a call may depend on the calls before
it. -/
structure Interpretation (V : Type u) where
  call : List (CallEvent V) → String → String → List V → V
  operator : ConditionOp → V → V → V
  truth : V → Bool
  constant : Constant → V
  unit : V
  input : String → V
  state : String → V

variable {V : Type u}

namespace Interpretation

def perform (I : Interpretation V) (trace : List (CallEvent V)) (package function : String)
    (arguments : List V) : V × List (CallEvent V) :=
  let value := I.call trace package function arguments
  (value, trace ++ [⟨package, function, arguments, value⟩])

end Interpretation

section Scoped

variable (I : Interpretation V)

/-- A name reads its innermost binding, or else the input. -/
def Operand.eval (frames : Frames V) : Operand → V
  | .ident id => (frames.find? id.name).getD (I.input id.name)
  | .state id => I.state id.name
  | .literal lit => I.constant lit.value

def Condition.eval (frames : Frames V) : Condition → V
  | .binary op left right _ => I.operator op (left.eval frames) (right.eval frames)
  | .paren inner _ => inner.eval frames
  | .terminal operand => operand.eval I frames

def Call.run (frames : Frames V) (trace : List (CallEvent V)) (c : Call) : V × List (CallEvent V) :=
  I.perform trace c.package.name c.function.name (c.arguments.map (Operand.eval I frames))

def Frames.keep (frames : Frames V) (target : Option Ident) (value : V) : Frames V :=
  match target with
  | some id => frames.bind id.name value
  | none => frames

def runBindings (frames : Frames V) (trace : List (CallEvent V)) :
    List LetBinding → Frames V × List (CallEvent V)
  | [] => (frames, trace)
  | b :: bindings =>
    let (value, trace) := b.call.run I frames trace
    runBindings (frames.bind b.target.name value) trace bindings

def BranchResult.eval (frames : Frames V) : BranchResult → V
  | .unit _ => I.unit
  | .value operand => operand.eval I frames

mutual

/-- Bindings and branches have a frame of their own, which is gone after the command. -/
def Command.run (frames : Frames V) (trace : List (CallEvent V)) :
    Command → Frames V × List (CallEvent V)
  | .call target call _ =>
    let (value, trace) := call.run I frames trace
    (frames.keep target value, trace)
  | .letIn target bindings body _ =>
    let (inner, trace) := runBindings I ([] :: frames) trace bindings
    let (value, trace) := body.run I inner trace
    (frames.keep target value, trace)
  | .branch target condition onTrue onFalse _ =>
    let (value, trace) :=
      if I.truth (condition.eval I frames) then onTrue.run ([] :: frames) trace
      else onFalse.run ([] :: frames) trace
    (frames.keep target value, trace)
  | .failed _ => (frames, trace)

def Block.run (frames : Frames V) (trace : List (CallEvent V)) : Block → V × List (CallEvent V)
  | .mk commands result _ =>
    let (frames, trace) := runCommands frames trace commands
    (result.eval I frames, trace)

def runCommands (frames : Frames V) (trace : List (CallEvent V)) :
    List Command → Frames V × List (CallEvent V)
  | [] => (frames, trace)
  | command :: commands =>
    let (frames, trace) := command.run frames trace
    runCommands frames trace commands

end

/-- The calls of the body in their order, and the outputs that it returns. -/
def DoBlock.run (body : DoBlock) : List (CallEvent V) × List (String × V) :=
  let (frames, trace) := runCommands I [[]] [] body.commands
  (trace, body.returns.map fun m => (m.target.name, m.source.eval I frames))

end Scoped

/-- The values of variables, by their numbers; a variable that was not set has none. -/
abbrev Store (V : Type u) : Type u := Nat → Option V

section Numbered

variable (I : Interpretation V)

def LoweredValue.eval? (store : Store V) : LoweredValue → Option V
  | .input name => some (I.input name)
  | .bound v => store v.number
  | .state name => some (I.state name)
  | .constant value => some (I.constant value)

def LoweredCondition.eval? (store : Store V) : LoweredCondition → Option V
  | .binary op left right => do return I.operator op (← left.eval? store) (← right.eval? store)
  | .paren inner => inner.eval? store
  | .value v => v.eval? I store

def LoweredCall.run? (store : Store V) (trace : List (CallEvent V)) (c : LoweredCall) :
    Option (V × List (CallEvent V)) := do
  return I.perform trace c.package c.function (← c.arguments.mapM (LoweredValue.eval? I store))

def Store.keep (store : Store V) (target : Option LocalVariable) (value : V) : Store V :=
  match target with
  | some v => fun n => if n = v.number then some value else store n
  | none => store

def runBindings? (store : Store V) (trace : List (CallEvent V)) :
    List (LocalVariable × LoweredCall) → Option (Store V × List (CallEvent V))
  | [] => some (store, trace)
  | (v, call) :: bindings => do
    let (value, trace) ← call.run? I store trace
    runBindings? (store.keep (some v) value) trace bindings

def resultOf? (store : Store V) : Option LoweredValue → Option V
  | none => some I.unit
  | some v => v.eval? I store

mutual

def LoweredCommand.run? (store : Store V) (trace : List (CallEvent V)) :
    LoweredCommand → Option (Store V × List (CallEvent V))
  | .call _ target call => do
    let (value, trace) ← call.run? I store trace
    return (store.keep target value, trace)
  | .letIn _ target bindings body => do
    let (store, trace) ← runBindings? I store trace bindings
    let (value, trace) ← body.run? I store trace
    return (store.keep target value, trace)
  | .branch _ target condition onTrue onFalse => do
    let test ← condition.eval? I store
    let (value, store, trace) ←
      (if I.truth test then onTrue.run? store trace else onFalse.run? store trace)
    return (store.keep target value, trace)

def LoweredBlock.run? (store : Store V) (trace : List (CallEvent V)) :
    LoweredBlock → Option (V × Store V × List (CallEvent V))
  | .mk commands result => do
    let (store, trace) ← runLowered? store trace commands
    return (← resultOf? I store result, store, trace)

def runLowered? (store : Store V) (trace : List (CallEvent V)) :
    List LoweredCommand → Option (Store V × List (CallEvent V))
  | [] => some (store, trace)
  | command :: commands => do
    let (store, trace) ← command.run? store trace
    runLowered? store trace commands

end

/-- The calls of the leaf in their order, and its outputs, unless it reads a variable that was not
set. -/
def LoweredLeaf.run? (leaf : LoweredLeaf) : Option (List (CallEvent V) × List (String × V)) := do
  let (store, trace) ← runLowered? I (fun _ => none) [] leaf.commands
  let outputs ← leaf.returns.mapM fun r => do return (r.1, ← r.2.eval? I store)
  return (trace, outputs)

end Numbered

end PipelineLang
