/-! Places in a source text, counted in bytes of its UTF-8 encoding. -/

namespace PipelineLang

/-- The bytes from `start` up to, not including, `stop`. -/
structure Span where
  start : Nat
  stop : Nat
deriving DecidableEq, Inhabited

namespace Span

/-- Spans are ordered by their start and then by their end. -/
instance : Ord Span where
  compare := compareLex (compareOn Span.start) (compareOn Span.stop)

instance : Std.TransOrd Span :=
  inferInstanceAs (Std.TransCmp (compareLex (compareOn Span.start) (compareOn Span.stop)))

instance : Std.LawfulEqOrd Span where
  eq_of_compare {a b} h := by
    have h' : (compare a.start b.start).then (compare a.stop b.stop) = .eq := h
    obtain ⟨hs, ht⟩ := Ordering.then_eq_eq.mp h'
    cases a
    cases b
    simp_all

/-- The place just behind a text of `n` bytes. -/
def endOf (n : Nat) : Span := ⟨n, n⟩

end Span

/-- The number of bytes that the characters take in UTF-8. -/
def utf8Length : List Char → Nat
  | [] => 0
  | c :: cs => c.utf8Size + utf8Length cs

@[simp] theorem utf8Length_nil : utf8Length [] = 0 := rfl

@[simp] theorem utf8Length_cons (c : Char) (cs : List Char) :
    utf8Length (c :: cs) = c.utf8Size + utf8Length cs := rfl

@[simp] theorem utf8Length_append (cs ds : List Char) :
    utf8Length (cs ++ ds) = utf8Length cs + utf8Length ds := by
  induction cs with
  | nil => simp
  | cons c cs ih => simp [ih, Nat.add_assoc]

end PipelineLang
