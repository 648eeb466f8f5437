/-! Values as trees of named parts, each part on lines of its own. -/

namespace PipelineLang

inductive Outline where
  | atom (text : String)
  | record (name : String) (fields : List (String × Outline))
  | tagged (name : String) (parts : List Outline)
  | list (parts : List Outline)

namespace Outline

def ofOption {α : Type} (f : α → Outline) : Option α → Outline
  | some a => .tagged "Some" [f a]
  | none => .atom "None"

def ofList {α : Type} (f : α → Outline) (l : List α) : Outline := .list (l.map f)

private def newLine (depth : Nat) : String := "\n" ++ "".pushn ' ' (4 * depth)

mutual

/-- The text of a value whose first line stands at `depth`. -/
def renderAt (depth : Nat) : Outline → String
  | atom text => text
  | record name fields => name ++ " \x7b" ++ renderFields depth fields ++ newLine depth ++ "\x7d"
  | tagged name parts => name ++ "(" ++ renderParts depth parts ++ newLine depth ++ ")"
  | list [] => "[]"
  | list (part :: parts) => "[" ++ renderParts depth (part :: parts) ++ newLine depth ++ "]"

def renderFields (depth : Nat) : List (String × Outline) → String
  | [] => ""
  | (name, value) :: fields =>
    newLine (depth + 1) ++ name ++ ": " ++ renderAt (depth + 1) value ++ ","
      ++ renderFields depth fields

def renderParts (depth : Nat) : List Outline → String
  | [] => ""
  | part :: parts =>
    newLine (depth + 1) ++ renderAt (depth + 1) part ++ "," ++ renderParts depth parts

end

def render (o : Outline) : String := o.renderAt 0

end Outline

end PipelineLang
