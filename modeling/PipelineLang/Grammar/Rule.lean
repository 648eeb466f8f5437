import PipelineLang.Token

/-! Grammar rules that read tokens by ordered choice. A rule that fails gives its tokens back, but
the furthest token at which any rule has failed is remembered, because that is where the program is
wrong. -/

namespace PipelineLang

structure Cursor where
  ahead : List Lexeme
  index : Nat
  reached : Nat

namespace Cursor

def ofLexemes (lexemes : List Lexeme) : Cursor := ⟨lexemes, 0, 0⟩

def start (c : Cursor) : Nat :=
  match c.ahead with
  | lexeme :: _ => lexeme.span.start
  | [] => c.reached

end Cursor

/-- What is remembered of failures, by the numbers of the tokens where they happened. -/
structure Trail where
  furthest : Option Nat
  reported : List Nat

namespace Trail

def empty : Trail := ⟨none, []⟩

def failAt (t : Trail) (index : Nat) : Trail :=
  { t with furthest := some (max (t.furthest.getD 0) index) }

def rewind (t earlier : Trail) : Trail := { t with reported := earlier.reported }

/-- The failures to report when reading ends without a result. -/
def atEnd (t : Trail) : List Nat := t.reported ++ t.furthest.toList

end Trail

def Rule (α : Type) : Type := Cursor → Trail → Option (α × Cursor) × Trail

namespace Rule

variable {α β : Type}

protected def pure (a : α) : Rule α := fun c t => (some (a, c), t)

protected def bind (r : Rule α) (f : α → Rule β) : Rule β := fun c t =>
  match r c t with
  | (some (a, c'), t') => f a c' t'
  | (none, t') => (none, t')

instance : Monad Rule where
  pure := Rule.pure
  bind := Rule.bind

def accept (f : Lexeme → Option α) : Rule α := fun c t =>
  match c.ahead with
  | [] => (none, t.failAt c.index)
  | lexeme :: rest =>
    match f lexeme with
    | some a => (some (a, ⟨rest, c.index + 1, lexeme.span.stop⟩), t)
    | none => (none, t.failAt c.index)

def token (expected : Token) : Rule Unit :=
  accept fun lexeme => if lexeme.token = expected then some () else none

def keyword (k : Keyword) : Rule Unit := token (.keyword k)

def symbol (s : Symbol) : Rule Unit := token (.symbol s)

def skipUnless (stops : List Token) : Rule Unit :=
  accept fun lexeme => if lexeme.token ∈ stops then none else some ()

def finish : Rule Unit := fun c t =>
  if c.ahead.isEmpty then (some ((), c), t) else (none, t.failAt c.index)

def spanned (r : Rule (Span → α)) : Rule α := fun c t =>
  match r c t with
  | (some (f, c'), t') => (some (f ⟨c.start, c'.reached⟩, c'), t')
  | (none, t') => (none, t')

/-- Forgets what a failed rule has recovered from. -/
def attempt (r : Rule α) : Rule α := fun c t =>
  match r c t with
  | (none, t') => (none, t'.rewind t)
  | success => success

def firstOf : List (Rule α) → Rule α
  | [] => fun _ t => (none, t)
  | r :: rs => fun c t =>
    match r c t with
    | (none, t') => firstOf rs c (t'.rewind t)
    | success => success

def optional (r : Rule α) : Rule (Option α) := fun c t =>
  match r c t with
  | (some (a, c'), t') => (some (some a, c'), t')
  | (none, t') => (some (none, c), t'.rewind t)

/-- Applies a rule until it fails or reads nothing. -/
def collect (r : Rule α) (c : Cursor) (t : Trail) : List α × Cursor × Trail :=
  match r c t with
  | (none, t') => ([], c, t'.rewind t)
  | (some (a, c'), t') =>
    if c'.ahead.length < c.ahead.length then
      let (as, last) := collect r c' t'
      (a :: as, last)
    else ([a], c', t')
termination_by c.ahead.length

def many (r : Rule α) : Rule (List α) := fun c t =>
  let (as, c', t') := collect r c t
  (some (as, c'), t')

def many1 (r : Rule α) : Rule (List α) := do
  let a ← attempt r
  let as ← many r
  return a :: as

def commaSeparated1 (r : Rule α) : Rule (List α) := do
  let a ← attempt r
  let as ← many do
    symbol .comma
    r
  return a :: as

def commaSeparated (r : Rule α) : Rule (List α) := do
  return (← optional (commaSeparated1 r)).getD []

def inParens (r : Rule α) : Rule α := do
  symbol .openParen
  let a ← r
  symbol .closeParen
  return a

/-- Operands joined by an operator from left to right, each joint spanning all that is left of
it. -/
def chain (operator : Rule Unit) (join : α → α → Span → α) (operand : Rule α) : Rule α :=
  fun c t =>
    let steps : Rule (α × List (α × Nat)) := do
      let head ← operand
      let tail ← many do
        operator
        let right ← operand
        fun c t => (some ((right, c.reached), c), t)
      return (head, tail)
    match steps c t with
    | (some ((head, tail), c'), t') =>
      (some (tail.foldl (fun left (right, stop) => join left right ⟨c.start, stop⟩) head, c'), t')
    | (none, t') => (none, t')

/-- When `r` fails and `detour` can go on from the same place, the failure is reported and the
result of the detour is taken. -/
def recover (r detour : Rule α) : Rule α := fun c t =>
  match r c t with
  | (none, failure) =>
    match detour c ⟨none, t.reported⟩ with
    | (some (a, c'), t') =>
      (some (a, c'), { t' with reported := t'.reported ++ failure.furthest.toList })
    | (none, _) => (none, ⟨failure.furthest, t.reported⟩)
  | success => success

/-- A rule that may refer to itself, wherever something has been read in between. -/
def fix (f : Rule α → Rule α) (c : Cursor) (t : Trail) : Option (α × Cursor) × Trail :=
  f (fun c' t' => if c'.ahead.length < c.ahead.length then fix f c' t' else (none, t')) c t
termination_by c.ahead.length

end Rule

end PipelineLang
