import PipelineLang.Token.Munch

/-! A source text as a row of tokens, with the places where it has none. -/

namespace PipelineLang

/-- A stretch of source text and what it is. -/
structure Piece where
  start : Nat
  chars : List Char
  found : Found
deriving DecidableEq

namespace Piece

def span (p : Piece) : Span := ⟨p.start, p.start + utf8Length p.chars⟩

def lexeme? (p : Piece) : Option Lexeme :=
  match p.found with
  | .token t => some ⟨t, String.ofList p.chars, p.span⟩
  | _ => none

def fault? (p : Piece) : Option (Span × LexicalFault) :=
  match p.found with
  | .fault f => some (p.span, f)
  | _ => none

end Piece

/-- Cuts a text that begins at byte `start` into its pieces, each as long as it can be. -/
def pieces (start : Nat) : List Char → List Piece
  | [] => []
  | c :: cs =>
    let munch := Munch.front c cs
    let taken := c :: cs.take munch.more
    ⟨start, taken, munch.found⟩ :: pieces (start + utf8Length taken) (cs.drop munch.more)
termination_by cs => cs.length
decreasing_by
  simp only [List.length_drop, List.length_cons]
  omega

/-- The tokens of a source text, and what it holds beside tokens, blanks and comments. -/
structure Scan where
  lexemes : List Lexeme
  faults : List (Span × LexicalFault)

def Scan.ofSource (source : String) : Scan :=
  let ps := pieces 0 source.toList
  ⟨ps.filterMap Piece.lexeme?, ps.filterMap Piece.fault?⟩

end PipelineLang
