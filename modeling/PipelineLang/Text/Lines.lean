import PipelineLang.Text.Span

/-! Line numbers of byte offsets. -/

namespace PipelineLang

/-- The offsets at which the lines of a text begin, in increasing order. -/
structure LineIndex where
  starts : Array Nat
deriving DecidableEq

namespace LineIndex

/-- The offsets just behind the line feeds of a text that begins at `offset`. -/
def afterLineFeeds (offset : Nat) : List Char → List Nat
  | [] => []
  | c :: cs =>
    let next := offset + c.utf8Size
    if c = '\n' then next :: afterLineFeeds next cs else afterLineFeeds next cs

def ofText (text : String) : LineIndex := ⟨(0 :: afterLineFeeds 0 text.toList).toArray⟩

/-- Where an offset stands among the starts: it is one of them, or belongs in front of one. -/
inductive Place where
  | found (line : Nat)
  | missing (next : Nat)

/-- The place of an offset, searched among the starts from `low` up to, not including, `high`. -/
def place (starts : Array Nat) (offset low high : Nat) (h : high ≤ starts.size) : Place :=
  if hlow : low < high then
    let middle := low + (high - low) / 2
    have : middle < starts.size := by omega
    if starts[middle] = offset then .found middle
    else if starts[middle] < offset then place starts offset (middle + 1) high h
    else place starts offset low middle (by omega)
  else .missing low
termination_by high - low

/-- Lines are counted from one; a line feed belongs to the line that it ends. -/
def lineOf (index : LineIndex) (offset : Nat) : Nat :=
  match place index.starts offset 0 index.starts.size (Nat.le_refl _) with
  | .found line => line + 1
  | .missing next => next

end LineIndex

end PipelineLang
