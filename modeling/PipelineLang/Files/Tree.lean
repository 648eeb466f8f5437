import PipelineLang.Collection.Table
import PipelineLang.Files.Path

/-! Files and directories, as far as they are known. -/

namespace PipelineLang

inductive FileError where
  | notFound
  | notDirectory
  | isDirectory
  | nameTooLong
  /-- A name holds the character that ends a name. -/
  | zeroInName
  | notText
deriving DecidableEq

namespace FileError

def message : FileError → String
  | notFound => "No such file or directory (os error 2)"
  | notDirectory => "Not a directory (os error 20)"
  | isDirectory => "Is a directory (os error 21)"
  | nameTooLong => "File name too long (os error 36)"
  | zeroInName => "file name contained an unexpected NUL byte"
  | notText => "stream did not contain valid UTF-8"

end FileError

inductive FileEntry where
  | file (bytes : ByteArray)
  | directory

/-- Entries by their plain paths: names divided by single slashes, from the current directory or,
when the first name is empty, from the root. -/
structure FileTree where
  entries : Table String FileEntry

namespace FileTree

def empty : FileTree := ⟨.empty⟩

def plainPath (names : List String) : String := "/".intercalate names

def nameLimit : Nat := 255

def pathLimit : Nat := 4095

/-- What is at a path. The current directory, those around it and the root are directories, and so
is what lies above a known entry. -/
def entry? (tree : FileTree) (names : List String) : Option FileEntry :=
  if names.all fun name => name = "" || name = ".." then some .directory
  else
    match tree.entries.get? (plainPath names) with
    | some entry => some entry
    | none =>
      if tree.entries.keys.any fun key => key.startsWith (plainPath names ++ "/") then
        some .directory
      else none

/-- The names after one more part of a path. -/
def follow (names : List String) (part : String) : List String :=
  if part = "" || part = "." then names
  else if part = ".." then
    match names.getLast? with
    | none | some ".." => names ++ [part]
    | some "" => names
    | some _ => names.dropLast
  else names ++ [part]

/-- Follows the parts of a path; each has to stand in a directory. -/
def walk (tree : FileTree) (names : List String) : List String → Except FileError (List String)
  | [] => .ok names
  | part :: parts =>
    match tree.entry? names with
    | none => .error .notFound
    | some (.file _) => .error .notDirectory
    | some .directory =>
      if nameLimit < part.utf8ByteSize then .error .nameTooLong
      else walk tree (follow names part) parts

/-- The names from which the parts of a path are followed: those of the root or of the current
directory. -/
def origin (path : String) : List String := if path.startsWith "/" then [""] else []

def names (tree : FileTree) (path : String) : Except FileError (List String) :=
  if path.toList.contains '\x00' then .error .zeroInName
  else if path = "" then .error .notFound
  else if pathLimit < path.utf8ByteSize then .error .nameTooLong
  else tree.walk (origin path) (Path.parts '/' path)

def find (tree : FileTree) (path : String) : Except FileError FileEntry := do
  match tree.entry? (← tree.names path) with
  | some entry => .ok entry
  | none => .error .notFound

def isFile (tree : FileTree) (path : String) : Bool :=
  match tree.find path with
  | .ok (.file _) => true
  | _ => false

def hasEntry (tree : FileTree) (path : String) : Bool := (tree.find path).toOption.isSome

def readText (tree : FileTree) (path : String) : Except FileError String := do
  match ← tree.find path with
  | .directory => .error .isDirectory
  | .file bytes =>
    match String.fromUTF8? bytes with
    | some text => .ok text
    | none => .error .notText

def write (tree : FileTree) (path : String) (bytes : ByteArray) : Except FileError FileTree := do
  let names ← tree.names path
  match tree.entry? names, tree.entry? names.dropLast with
  | some .directory, _ => .error .isDirectory
  | none, none => .error .notFound
  | none, some (.file _) => .error .notDirectory
  | _, _ => .ok ⟨tree.entries.insert (plainPath names) (.file bytes)⟩

def add (tree : FileTree) (path : String) (entry : FileEntry) : FileTree :=
  ⟨tree.entries.insert (plainPath ((Path.parts '/' path).foldl follow (origin path))) entry⟩

private def fileBytes : FileEntry → List UInt8
  | .file bytes => bytes.toList
  | .directory => []

def changedSince (tree earlier : FileTree) : List (String × ByteArray) :=
  tree.entries.entries.filterMap fun (path, entry) =>
    match entry, earlier.entries.get? path with
    | .directory, _ => none
    | .file bytes, none => some (path, bytes)
    | .file bytes, some old => if fileBytes old = bytes.toList then none else some (path, bytes)

end FileTree

end PipelineLang
