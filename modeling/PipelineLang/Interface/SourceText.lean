import PipelineLang.Text.Blank

/-! Reading the text of Python modules without running them: comments, brackets and commas. -/

namespace PipelineLang

namespace SourceText

/-- Removes comments up to the ends of their lines. A `#` between quotes begins none; `quote` is the
mark that would end the text we are in. -/
def stripComments (quote : Option Char) : List Char → List Char
  | [] => []
  | c :: cs =>
    match quote with
    | some q =>
      if c = '\\' then
        match cs with
        | [] => [c]
        | next :: rest => c :: next :: stripComments quote rest
      else c :: stripComments (if c = q then none else quote) cs
    | none =>
      if c = '#' then stripComments none (cs.dropWhile (· != '\n'))
      else c :: stripComments (if c = '\'' || c = '"' then some c else none) cs
termination_by cs => cs.length
decreasing_by
  · simp only [List.length_cons]
    omega
  · simp
  · have := (List.dropWhile_sublist (· != '\n') (l := cs)).length_le
    simp only [List.length_cons]
    omega
  · simp

/-- The text up to the bracket that closes `depth` open ones, and the text behind it. Quotes have no
meaning here. -/
def upToClosing (opening closing : Char) (depth : Nat) : List Char → Option (List Char × List Char)
  | [] => none
  | c :: cs =>
    if c = opening then
      (upToClosing opening closing (depth + 1) cs).map fun (inner, rest) => (c :: inner, rest)
    else if c = closing then
      if depth ≤ 1 then some ([], cs)
      else (upToClosing opening closing (depth - 1) cs).map fun (inner, rest) => (c :: inner, rest)
    else (upToClosing opening closing depth cs).map fun (inner, rest) => (c :: inner, rest)

/-- The inside of the brackets with which the text begins, and what follows them. -/
def bracketed (opening closing : Char) : List Char → Option (List Char × List Char)
  | c :: cs => if c = opening then upToClosing opening closing 1 cs else none
  | [] => none

/-- The parts between the commas that stand outside of brackets and quotes; `part` is the current
one in reverse. -/
def splitCommas (depth : Int) (quote : Option Char) (part : List Char) :
    List Char → List (List Char)
  | [] => [part.reverse]
  | c :: cs =>
    match quote with
    | some q => splitCommas depth (if c = q then none else quote) (c :: part) cs
    | none =>
      if c = '\'' || c = '"' then splitCommas depth (some c) (c :: part) cs
      else if c = '(' || c = '[' || c.toNat = 0x7B then splitCommas (depth + 1) none (c :: part) cs
      else if c = ')' || c = ']' || c.toNat = 0x7D then splitCommas (depth - 1) none (c :: part) cs
      else if c = ',' && depth = 0 then part.reverse :: splitCommas depth none [] cs
      else splitCommas depth none (c :: part) cs

def items (cs : List Char) : List (List Char) :=
  ((splitCommas 0 none [] cs).map trim).filter fun item => !item.isEmpty

def line (cs : List Char) : List Char := cs.takeWhile (· != '\n')

def nextLine (cs : List Char) : List Char := (cs.dropWhile (· != '\n')).drop 1

theorem length_nextLine_le (cs : List Char) : (nextLine cs).length ≤ cs.length - 1 := by
  unfold nextLine
  have := (List.dropWhile_sublist (· != '\n') (l := cs)).length_le
  simp only [List.length_drop]
  omega

theorem upToClosing_length {opening closing : Char} {depth : Nat} {cs inner rest : List Char}
    (h : upToClosing opening closing depth cs = some (inner, rest)) : rest.length < cs.length := by
  fun_induction upToClosing opening closing depth cs generalizing inner rest with
  | case1 => cases h
  | case3 =>
    cases h
    simp
  | case2 _ _ ih | case4 _ _ _ _ ih | case5 _ _ _ _ _ ih =>
    obtain ⟨x, hx, heq⟩ := Option.map_eq_some_iff.mp h
    cases heq
    have := ih hx
    simp only [List.length_cons]
    omega

theorem bracketed_length {opening closing : Char} {cs inner rest : List Char}
    (h : bracketed opening closing cs = some (inner, rest)) : rest.length < cs.length := by
  cases cs with
  | nil => simp [bracketed] at h
  | cons c cs =>
    simp only [bracketed] at h
    split at h
    · have := upToClosing_length h
      simp only [List.length_cons]
      omega
    · simp at h

end SourceText

end PipelineLang
