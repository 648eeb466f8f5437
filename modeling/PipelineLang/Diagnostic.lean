import PipelineLang.Problem
import PipelineLang.Text.Lines

/-! Messages to the author of a program. -/

namespace PipelineLang

inductive Severity where
  | error | warning
deriving DecidableEq

structure Diagnostic where
  code : Option String
  severity : Severity
  span : Span
  message : String
  hint : Option String
  related : List (Span × String)
deriving DecidableEq

namespace Diagnostic

def isError (d : Diagnostic) : Bool := d.severity = .error

def hasErrors (ds : List Diagnostic) : Bool := ds.any isError

def ofFinding (f : Finding) : Diagnostic where
  code := some f.problem.code
  severity := if f.isError then .error else .warning
  span := f.span
  message := f.problem.message
  hint := none
  related := []

/-- One line that names the file and the line of the program. -/
def render (file : String) (lines : LineIndex) (d : Diagnostic) : String :=
  let label := match d.severity with
    | .error => "ERROR"
    | .warning => "WARNING"
  label ++ ": " ++ file ++ " at line " ++ NumeralStyle.decimalDigits (lines.lineOf d.span.start)
    ++ ", " ++ d.message

/-- The message with its code and hint, wherever it stands. -/
def describe (d : Diagnostic) : String :=
  let label := match d.severity with
    | .error => "error"
    | .warning => "warning"
  let code := match d.code with
    | some code => "[" ++ code ++ "]"
    | none => ""
  let hint := match d.hint with
    | some hint => "\n  hint: " ++ hint
    | none => ""
  label ++ code ++ ": " ++ d.message ++ hint

end Diagnostic

end PipelineLang
