/-! Nested scopes of variables. -/

namespace PipelineLang

/-- A variable: its name, and the frame in which it was bound. -/
structure Binding where
  name : String
  frame : Nat
deriving DecidableEq, Inhabited

/-- All frames that were ever opened, by their parents, and all variables that were ever bound. Both
are numbered from zero in the order in which they came; frame zero has no parent. -/
structure Scopes where
  parents : List (Option Nat)
  bindings : List Binding
  current : Nat
deriving DecidableEq

namespace Scopes

def root : Scopes := ⟨[none], [], 0⟩

instance : Inhabited Scopes := ⟨root⟩

def frameCount (s : Scopes) : Nat := s.parents.length

def parent? (s : Scopes) (frame : Nat) : Option Nat := (s.parents[frame]?).join

def push (s : Scopes) : Scopes :=
  { s with parents := s.parents ++ [some s.current], current := s.frameCount }

def pop (s : Scopes) : Scopes :=
  match s.parent? s.current with
  | some parent => { s with current := parent }
  | none => s

/-- The variable of that name that was bound in the frame itself. -/
def boundIn? (s : Scopes) (frame : Nat) (name : String) : Option Nat :=
  s.bindings.findIdx? fun b => b.name = name && b.frame = frame

def inCurrent (s : Scopes) (name : String) : Bool := (s.boundIn? s.current name).isSome

/-- Binds a new variable in the current frame, unless that frame has one of the name. -/
def bind? (s : Scopes) (name : String) : Option (Nat × Scopes) :=
  if s.inCurrent name then none
  else some (s.bindings.length, { s with bindings := s.bindings ++ [⟨name, s.current⟩] })

/-- The variable of that name in the frame, or else in the nearest frame around it. -/
def lookupFrom (s : Scopes) (frame : Nat) (name : String) : Option Nat :=
  match s.boundIn? frame name with
  | some v => some v
  | none =>
    match s.parent? frame with
    | some parent => if parent < frame then s.lookupFrom parent name else none
    | none => none
termination_by frame

def lookup (s : Scopes) (name : String) : Option Nat := s.lookupFrom s.current name

def binding? (s : Scopes) (v : Nat) : Option Binding := s.bindings[v]?

end Scopes

end PipelineLang
