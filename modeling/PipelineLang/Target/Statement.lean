/-! Python statements: lines, and functions with bodies of statements. -/

namespace PipelineLang

inductive Statement where
  | line (text : String)
  | blank
  | define (head : String) (body : List Statement)
deriving Inhabited

namespace Statement

def indentation (depth : Nat) : String := String.ofList (List.replicate (2 * depth) ' ')

mutual

/-- The lines of a statement; a body stands two blanks deeper than its head. -/
def lines (depth : Nat) : Statement → List String
  | line text => [indentation depth ++ text]
  | blank => [""]
  | define head body => (indentation depth ++ "def " ++ head ++ ":") :: bodyLines (depth + 1) body

def bodyLines (depth : Nat) : List Statement → List String
  | [] => []
  | s :: ss => s.lines depth ++ bodyLines depth ss

end

/-- A function at the top level, with a blank line behind it. -/
def function (name : String) (params : List String) (body : List Statement) : List Statement :=
  [define (name ++ "(" ++ ", ".intercalate params ++ ")") body, blank]

end Statement

end PipelineLang
