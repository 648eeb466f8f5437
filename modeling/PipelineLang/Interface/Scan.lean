import PipelineLang.Interface.Signature
import PipelineLang.Interface.SourceText

/-! The interfaces of Python modules, read off their texts. -/

namespace PipelineLang

/-- A function at the top level of a module: its name, the text between the parentheses, and the
lines of its body with their numbers. -/
structure FunctionText where
  name : String
  params : List Char
  body : List (Nat × List Char)
deriving DecidableEq

namespace SourceText

private def opener : List Char := "def ".toList

/-- The function whose head the text begins with: its name, its parameters, and the text behind
them. -/
def head? (cs : List Char) : Option (List Char × List Char × List Char) :=
  if opener.isPrefixOf cs then
    let rest := cs.drop opener.length
    let name := rest.takeWhile fun c => c.isAlphanum || c = '_'
    (bracketed '(' ')' (rest.drop name.length)).map fun (params, after) => (name, params, after)
  else none

theorem head?_length {cs name params after : List Char}
    (h : head? cs = some (name, params, after)) :
    after.length < cs.length := by
  unfold head? at h
  split at h
  · obtain ⟨⟨p, r⟩, hr, heq⟩ := Option.map_eq_some_iff.mp h
    simp only [Prod.mk.injEq] at heq
    obtain ⟨_, _, rfl⟩ := heq
    have := bracketed_length hr
    simp only [List.length_drop] at this
    omega
  · simp at h

def isIndented (cs : List Char) : Bool := cs.head? = some ' ' || cs.head? = some '\t'

/-- The indented lines that follow, blank ones left out, and where they end. Lines are numbered from
`number`. -/
def bodyLines (number : Nat) (cs : List Char) : List (Nat × List Char) × Nat × List Char :=
  if cs.isEmpty then ([], number, cs)
  else if (trim (line cs)).isEmpty then bodyLines (number + 1) (nextLine cs)
  else if isIndented cs then
    let below := bodyLines (number + 1) (nextLine cs)
    ((number, trim (line cs)) :: below.1, below.2)
  else ([], number, cs)
termination_by cs.length
decreasing_by
  all_goals
    have := length_nextLine_le cs
    have : cs ≠ [] := by simp_all
    have := List.length_pos_iff.mpr this
    omega

theorem bodyLines_length (number : Nat) (cs : List Char) :
    (bodyLines number cs).2.2.length ≤ cs.length := by
  fun_induction bodyLines number cs with
  | case1 => simp
  | case2 number cs _ _ ih =>
    have := length_nextLine_le cs
    omega
  | case3 number cs _ _ _ below ih =>
    have := length_nextLine_le cs
    exact Nat.le_trans ih (by omega)
  | case4 => simp

def inlineBody (number : Nat) (tail : List Char) : List (Nat × List Char) :=
  match trimStart tail with
  | ':' :: body => if (trim body).isEmpty then [] else [(number, trim body)]
  | _ => []

def functions (number : Nat) (cs : List Char) : List FunctionText :=
  if cs.isEmpty then []
  else
    match _h : head? cs with
    | none => functions (number + 1) (nextLine cs)
    | some (name, params, after) =>
      let last := number + params.count '\n'
      let below := bodyLines (last + 1) (nextLine after)
      ⟨String.ofList name, params, inlineBody last (line after) ++ below.1⟩ ::
        functions below.2.1 below.2.2
termination_by cs.length
decreasing_by
  · have := length_nextLine_le cs
    have : cs ≠ [] := by simp_all
    have := List.length_pos_iff.mpr this
    omega
  · have := bodyLines_length (number + params.count '\n' + 1) (nextLine after)
    have := head?_length _h
    have := length_nextLine_le after
    omega

def functionsOf (source : String) : List FunctionText :=
  functions 1 (stripComments none source.toList)

/-- What the first `return` of a body returns, and the line where it stands. -/
def returned? (f : FunctionText) : Option (Nat × List Char) :=
  f.body.findSome? fun (number, text) =>
    let word := "return".toList
    if word.isPrefixOf text then some (number, trim (text.drop word.length)) else none

/-- An item between quotes of one kind. -/
def quotedItem? (item : List Char) : Option String :=
  match item with
  | q :: rest =>
    if (q = '\'' || q = '"') && rest.getLast? = some q then some (String.ofList rest.dropLast)
    else none
  | [] => none

def quotedItems? (cs : List Char) : Option (List String) := (items cs).mapM quotedItem?

def bracketedItems? (cs : List Char) : Option (List String) := do
  quotedItems? (← bracketed '[' ']' cs).1

/-- A list of names in brackets or parentheses, or a pair of bracketed lists in parentheses. -/
def shape? (cs : List Char) : Option SignalShape :=
  let text := trim cs
  if text.head? = some '[' then (bracketedItems? text).map .flat
  else do
    let (inner, _) ← bracketed '(' ')' text
    match items inner with
    | [top, bottom] =>
      if top.head? = some '[' && bottom.head? = some '[' then
        return .pair (← bracketedItems? top) (← bracketedItems? bottom)
      else return .flat (← quotedItems? inner)
    | _ => return .flat (← quotedItems? inner)

/-- What one item adds to the parameters; one star takes further arguments, two take named ones. -/
def readItem (f : FunctionSignature) (item : List Char) : FunctionSignature :=
  if "**".toList.isPrefixOf item then { f with keywords := true }
  else if "*".toList.isPrefixOf item then { f with varargs := true }
  else if item.contains '=' then
    { f with
      params := f.params ++ [String.ofList (trim (item.takeWhile (· != '=')))]
      defaults := f.defaults + 1 }
  else { f with params := f.params ++ [String.ofList item] }

def parameters (cs : List Char) : FunctionSignature :=
  (items cs).foldl readItem ⟨[], 0, false, false⟩

end SourceText

namespace ComponentSignature

open SourceText in
/-- The shape that an entry point returns, if the module defines it. -/
def entryShape (file : String) (defined : List FunctionText) (name : String) :
    Except InterfaceError (Option SignalShape) :=
  match defined.find? fun f => f.name = name with
  | none => .ok none
  | some f =>
    match returned? f with
    | none => .error (.scan file ((f.body.head?.map Prod.fst).getD 0) (.noLiteral name))
    | some (number, literal) =>
      match shape? literal with
      | some shape => .ok (some shape)
      | none => .error (.scan file number (.unsupported name (String.ofList literal)))

def scan (source file : String) : Except InterfaceError ComponentSignature := do
  let defined := SourceText.functionsOf source
  let defines name := defined.any fun f => f.name = name
  let inputs ← entryShape file defined "get_inputs"
  let outputs ← entryShape file defined "get_outputs"
  let configuration ← match ← entryShape file defined "get_configuration" with
    | none => .ok none
    | some (.flat keys) => .ok (some keys)
    | some (.pair _ _) => .error (.scan file 0 .configurationPair)
  return ⟨inputs, outputs, configuration, defines "configure", defines "initialise"⟩

end ComponentSignature

/-- The functions of the package with the given text; of two with one name the later counts. -/
def scanFunctions (source : String) : FunctionPackage :=
  .ofList ((SourceText.functionsOf source).map fun f => (f.name, SourceText.parameters f.params))

end PipelineLang
