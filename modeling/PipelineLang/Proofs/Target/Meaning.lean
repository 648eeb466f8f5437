import PipelineLang.Target.ArrowCode

/-! What generated arrows do with records of signals: every step of a program is a partial function,
which has no value where a key is absent or a value has the wrong shape. -/

namespace PipelineLang

universe u

abbrev Record (V : Type u) : Type u := String → Option V

inductive Datum (V : Type u) where
  | record (fields : Record V)
  | pair (top bottom : Datum V)

variable {V : Type u}

/-- The names are all the keys of the dictionary. -/
def Record.HasKeys (r : Record V) (names : NameSet) : Prop := ∀ x, (r x).isSome = true ↔ x ∈ names

namespace Datum

/-- A flat type is a dictionary with just its names as keys, a pair type a pair of such
dictionaries. -/
inductive HasType : Datum V → SignalType → Prop where
  | flat {r : Record V} {names : NameSet} : r.HasKeys names → HasType (record r) (.flat names)
  | pair {t b : Record V} {top bottom : NameSet} : t.HasKeys top → b.HasKeys bottom →
      HasType (pair (record t) (record b)) (.pair top bottom)

end Datum

/-- What the components do, and how each test of the program turns out. -/
structure Behaviour (V : Type u) where
  constant : Constant → V
  component : String → Datum V → Option (Datum V)
  test : Nat → Datum V → Bool

/-- A partial function on what flows. -/
abbrev Flow (V : Type u) : Type u := Datum V → Option (Datum V)

namespace Flow

def compose (f g : Flow V) : Flow V := fun d => do g (← f d)

def pairUp (f g : Flow V) : Flow V
  | .pair top bottom => do return .pair (← f top) (← g bottom)
  | .record _ => none

def fanOut (f g : Flow V) : Flow V := fun d => do return .pair (← f d) (← g d)

def split : Flow V
  | .record r => some (.pair (.record r) (.record r))
  | .pair _ _ => none

end Flow

namespace Target

variable (I : Behaviour V)

/-- The value of a field, where `scope` are the dictionaries that it may name. -/
def FieldSource.read? (scope : String → Option (Record V)) : FieldSource → Option V
  | .key dict name => do (← scope dict) name
  | .constant value => some (I.constant value)

def dictionary? (scope : String → Option (Record V)) (fields : List Field) : Option (Record V) :=
  fields.foldlM (fun r f => do
    let value ← f.2.read? I scope
    return fun x => if x = f.1 then some value else r x) fun _ => none

def wireFlow (entries : List Mapping) : Flow V
  | .record a => do
    let scope := fun dict => if dict = "a" then some a else none
    return .record (← dictionary? I scope (wireFields entries))
  | .pair _ _ => none

def mergeFlow (entries : List MergeMapping) : Flow V
  | .pair (.record t) (.record b) => do
    let scope := fun dict => if dict = "t" then some t else if dict = "b" then some b else none
    return .record (← dictionary? I scope (mergeFields entries))
  | _ => none

end Target

section Programs

variable (I : Behaviour V)

/-- What a value stands for, where `made` are the results of the steps so far. -/
def ArrowValue.flow (made : List (Flow V)) : ArrowValue → Flow V
  | .declared name => I.component name
  | .temporary step => made[step]?.getD fun _ => none

def ArrowStep.flow (made : List (Flow V)) : ArrowStep → Flow V
  | .compose left right => (left.flow I made).compose (right.flow I made)
  | .pairUp left right => (left.flow I made).pairUp (right.flow I made)
  | .fanOut left right => (left.flow I made).fanOut (right.flow I made)
  | .first inner => (inner.flow I made).pairUp some
  | .second inner => Flow.pairUp some (inner.flow I made)
  | .split => .split
  | .merge entries => Target.mergeFlow I entries
  | .wire entries => Target.wireFlow I entries
  | .wirePair top bottom => (Target.wireFlow I top).pairUp (Target.wireFlow I bottom)
  | .choose _ onTrue onFalse => fun d =>
    if I.test made.length d then onTrue.flow I made d else onFalse.flow I made d

namespace ArrowProgram

/-- The results of the steps, made one after the other. -/
def flows (steps : List ArrowStep) : List (Flow V) :=
  steps.foldl (fun made step => made ++ [step.flow I made]) []

def flow (prog : ArrowProgram) : Flow V := prog.result.flow I (flows I prog.steps)

end ArrowProgram

end Programs

end PipelineLang
