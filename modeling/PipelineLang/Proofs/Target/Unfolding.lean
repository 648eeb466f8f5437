import PipelineLang.Proofs.Symbols.Entries
import PipelineLang.Proofs.Target.ArrowScope

/-! The statements of a generated arrow compute its expression: once each step number is replaced by
what that step assigns, the value that is returned is the expression itself, without its
parentheses. -/

namespace PipelineLang

namespace Target

/-- An arrow that is put together from given ones, as code writes it down. -/
inductive Combination (α : Type) where
  | value (a : α)
  | constant (code : String)
  | operator (sign : String) (left right : Combination α)
  | method (name : String) (inner : Combination α)
  | choice (test : String) (onTrue onFalse : Combination α)
deriving DecidableEq

namespace Combination

variable {α : Type}

def isOperation : Combination α → Bool
  | operator _ _ _ => true
  | value _ | constant _ | method _ _ | choice _ _ _ => false

def enclosed (c : Combination α) (code : String) : String :=
  if c.isOperation then "(" ++ code ++ ")" else code

def code (name : α → String) : Combination α → String
  | value a => name a
  | constant code => code
  | operator sign left right =>
    left.enclosed (left.code name) ++ (" " ++ sign ++ " ") ++ right.enclosed (right.code name)
  | method called inner => inner.enclosed (inner.code name) ++ ("." ++ called ++ "()")
  | choice test onTrue onFalse =>
    "cons_if_component(lambda a, s: " ++ test ++ ", " ++ onTrue.code name ++ ", " ++
    onFalse.code name ++ ")"

def values : Combination α → List α
  | value a => [a]
  | constant _ => []
  | operator _ left right | choice _ left right => left.values ++ right.values
  | method _ inner => inner.values

/-- Puts combinations in the place of values. -/
def bind (f : α → Combination α) : Combination α → Combination α
  | value a => f a
  | constant code => constant code
  | operator sign left right => operator sign (left.bind f) (right.bind f)
  | method name inner => method name (inner.bind f)
  | choice test onTrue onFalse => choice test (onTrue.bind f) (onFalse.bind f)

end Combination

/-- The text of a dictionary, by the texts of its entries. -/
def braced (entries : List String) : String := "\x7b" ++ ", ".intercalate entries ++ "\x7d"

/-- The text of an operand: names are keys of one dictionary, and names of the configuration keys of
another one. -/
def operandText (names states : String) : Operand → String
  | .ident id => names ++ "[" ++ quote id.name ++ "]"
  | .state id => states ++ "[" ++ quote id.name ++ "]"
  | .literal lit => constant lit.value

/-- The text of a wire. -/
def wireText (entries : List Mapping) : String :=
  "cons_wire(lambda a, s: " ++ braced ((entries.filter fun m => m.target.name != "_").map fun m =>
    quote m.target.name ++ " : " ++ operandText "a" "a" m.source) ++ ")"

/-- The text of a merge: first what comes from the top half, then what comes from the bottom half,
then constants. -/
def mergeText (entries : List MergeMapping) : String :=
  let kept := entries.filter fun m => m.target.name != "_"
  let entry (m : MergeMapping) (value : String) : String := quote m.target.name ++ " : " ++ value
  "cons_unsplit_wire(lambda t, b: " ++ braced (
    kept.filterMap (fun m => m.source.top?.map fun id => entry m ("t[" ++ quote id.name ++ "]")) ++
    kept.filterMap (fun m => m.source.bottom?.map fun id =>
      entry m ("b[" ++ quote id.name ++ "]")) ++
    kept.filterMap (fun m => m.source.constant?.map fun value => entry m (constant value))) ++ ")"

def signText : ConditionOp → String
  | .or => "or"
  | .and => "and"
  | .xor => "^"
  | .eq => "=="
  | .ne => "!="
  | .gt => ">"
  | .lt => "<"
  | .ge => ">="
  | .le => "<="

/-- The text of a condition. An exclusive or is taken of truth values. -/
def conditionText : Condition → String
  | .binary op left right _ =>
    let operand (text : String) : String := if op = .xor then "bool(" ++ text ++ ")" else text
    "(" ++ operand (conditionText left) ++ " " ++ signText op ++ " " ++
    operand (conditionText right) ++ ")"
  | .paren inner _ => "(" ++ conditionText inner ++ ")"
  | .terminal operand => operandText "a" "s" operand

end Target

open Target

/-- The combination that an expression stands for. Parentheses leave no trace in it. -/
def Arrow.combination : Arrow → Combination ArrowValue
  | compose left right _ => .operator ">>" left.combination right.combination
  | pairUp left right _ => .operator "**" left.combination right.combination
  | fanOut left right _ => .operator "&" left.combination right.combination
  | first inner _ => .method "first" inner.combination
  | second inner _ => .method "second" inner.combination
  | split _ => .constant "cons_split_wire()"
  | merge entries _ => .constant (mergeText entries)
  | wire entries _ => .constant (wireText entries)
  | wirePair top bottom _ => .operator "**" (.constant (wireText top)) (.constant (wireText bottom))
  | choose condition onTrue onFalse _ =>
    .choice (conditionText condition) onTrue.combination onFalse.combination
  | use component _ => .value (.declared component.name)
  | paren inner _ => inner.combination
  | failed _ => .constant ""

/-- The combination that a step assigns. -/
def ArrowStep.combination : ArrowStep → Combination ArrowValue
  | compose left right => .operator ">>" (.value left) (.value right)
  | pairUp left right => .operator "**" (.value left) (.value right)
  | fanOut left right => .operator "&" (.value left) (.value right)
  | first inner => .method "first" (.value inner)
  | second inner => .method "second" (.value inner)
  | split => .constant "cons_split_wire()"
  | merge entries => .constant (mergeText entries)
  | wire entries => .constant (wireText entries)
  | wirePair top bottom => .operator "**" (.constant (wireText top)) (.constant (wireText bottom))
  | choose condition onTrue onFalse =>
    .choice (conditionText condition) (.value onTrue) (.value onFalse)

/-- A step number stands for what was made by that step; one that is not yet made stands for
itself. -/
def ArrowValue.unfolded (made : List (Combination ArrowValue)) : ArrowValue → Combination ArrowValue
  | declared name => .value (.declared name)
  | temporary step => made[step]?.getD (.value (.temporary step))

/-- What is assigned in turn, each time with all that was assigned before put in its place. -/
def Target.unfoldAll (assigned : List (Combination ArrowValue)) : List (Combination ArrowValue) :=
  ArrowProgram.accumulated (fun made c => c.bind (ArrowValue.unfolded made)) assigned

namespace ArrowProgram

variable {steps : List ArrowStep} {k : Nat} {step : ArrowStep} {v : ArrowValue}

theorem unfolded_temporary (h : steps[k]? = some step) :
    let made := unfoldAll (steps.map ArrowStep.combination)
    (ArrowValue.temporary k).unfolded made =
    step.combination.bind (ArrowValue.unfolded (made.take k)) := by
  intro made
  have hassigned : (steps.map ArrowStep.combination)[k]? = some step.combination := by
    rw [List.getElem?_map, h]
    rfl
  have hmade := getElem?_accumulated (fun made c => Combination.bind (ArrowValue.unfolded made) c)
    hassigned
  exact congrArg (fun found => found.getD (.value (.temporary k))) hmade

theorem unfolded_take (made : List (Combination ArrowValue)) (h : v.Before k) :
    v.unfolded (made.take k) = v.unfolded made := by
  cases v with
  | declared name => rfl
  | temporary step => rw [ArrowValue.unfolded, ArrowValue.unfolded, List.getElem?_take_of_lt h]

/-- The value that steps build unfolds to the expression that they build. -/
theorem Builds.unfolded {e : Arrow} (h : Builds steps e v) :
    v.unfolded (unfoldAll (steps.map ArrowStep.combination)) = e.combination := by
  induction h with
  | use => rfl
  | paren _ ih => exact ih
  | compose _ _ hl hr hk ihl ihr | pairUp _ _ hl hr hk ihl ihr | fanOut _ _ hl hr hk ihl ihr
  | choose _ _ hl hr hk ihl ihr =>
    rw [unfolded_temporary hk]
    simp only [ArrowStep.combination, Combination.bind, unfolded_take _ hl, unfolded_take _ hr, ihl,
      ihr]
    rfl
  | first _ hv hk ih | second _ hv hk ih =>
    rw [unfolded_temporary hk]
    simp only [ArrowStep.combination, Combination.bind, unfolded_take _ hv, ih]
    rfl
  | split hk | merge hk | wire hk | wirePair hk =>
    rw [unfolded_temporary hk]
    rfl

end ArrowProgram

namespace Target

def assignment (x : Combination ArrowValue × Nat) : Statement :=
  .line (valueCode (.temporary x.2) ++ " = " ++ x.1.code valueCode)

def assignments (assigned : List (Combination ArrowValue)) : List Statement :=
  assigned.zipIdx.map assignment

end Target

theorem ArrowValue.Settled.subset {declared declared' : List String} {n : Nat} {v : ArrowValue}
    (h : v.Settled declared n) (hsub : ∀ name ∈ declared, name ∈ declared') :
    v.Settled declared' n := by
  cases v with
  | declared name => exact hsub name h
  | temporary step => exact h

namespace Program

end Program

end PipelineLang
