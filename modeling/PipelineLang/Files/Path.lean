/-! File paths: texts whose parts are divided by slashes. -/

namespace PipelineLang

namespace Path

def parts (separator : Char) (text : String) : List String :=
  (text.toList.splitOn separator).map String.ofList

/-- Puts a relative path behind a directory; a path from the root stands alone. -/
def join (dir path : String) : String :=
  if path.startsWith "/" then path
  else if dir.isEmpty || dir.endsWith "/" then dir ++ path
  else dir ++ "/" ++ path

/-- Drops the separators at the end of a reversed path, with the dots between them. -/
private def dropSeparators : List Char → List Char
  | '/' :: cs => dropSeparators cs
  | '.' :: '/' :: cs => dropSeparators ('/' :: cs)
  | cs => cs
termination_by cs => cs.length

/-- The part of a path that ends in its last name, and that name. A path that ends in a directory of
its own kind (the root, `.` or `..`) has none. -/
def lastName? (path : String) : Option (String × String) :=
  let reversed := dropSeparators path.toList.reverse
  let name := String.ofList (reversed.takeWhile (· != '/')).reverse
  if name = "" || name = "." || name = ".." then none
  else some (String.ofList (reversed.dropWhile (· != '/')).reverse, name)

/-- A name up to its last dot, and what follows the dot. A dot in front does not count. -/
def cutName (name : String) : String × Option String :=
  let reversed := name.toList.reverse
  let extension := reversed.takeWhile (· != '.')
  let stem := (reversed.drop (extension.length + 1)).reverse
  if extension.length = reversed.length || stem.isEmpty then (name, none)
  else (String.ofList stem, some (String.ofList extension.reverse))

def stem (path : String) : String :=
  match lastName? path with
  | some (_, name) => (cutName name).1
  | none => ""

def extension? (path : String) : Option String := do (cutName (← lastName? path).2).2

/-- The path with `extension` in place of the one that its last name has, if it has any. -/
def withExtension (path extension : String) : String :=
  match lastName? path with
  | some (before, name) => before ++ (cutName name).1 ++ "." ++ extension
  | none => path

def parent (path : String) : String :=
  match lastName? path with
  | some (before, _) =>
    let dir := dropSeparators before.toList.reverse
    if dir.isEmpty && before.startsWith "/" then "/" else String.ofList dir.reverse
  | none => ""

def ofDotted (name : String) : String :=
  (parts '.' name).foldl join ""

end Path

end PipelineLang
