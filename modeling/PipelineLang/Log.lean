import PipelineLang.Number.Style
import PipelineLang.Text.Controls

/-! Events that are worth a line in the log. -/

namespace PipelineLang

inductive LogLevel where
  | error | warn | info | debug | trace
deriving DecidableEq

namespace LogLevel

def rank : LogLevel → Nat
  | error => 1
  | warn => 2
  | info => 3
  | debug => 4
  | trace => 5

def within (level limit : LogLevel) : Bool := level.rank ≤ limit.rank

def label : LogLevel → String
  | error => "ERROR"
  | warn => "WARN "
  | info => "INFO "
  | debug => "DEBUG"
  | trace => "TRACE"

end LogLevel

inductive LogEvent where
  | searchPath (directories : String)
  | unreadableSource (file reason : String)
  | runFailed (reason : String)
  | manifestLoaded (count : Nat) (origin : String)
  | componentKnown (module : String)
  | componentScanned (module file : String)
  | packageKnown (module : String)
  | packageScanned (module file : String)
  | imported (module localName : String)
  | typesInferred (nodes : Nat)
  | temporaries (count : Nat)
  /-- A pass is done, after so many milliseconds. -/
  | passComplete (pass elapsed : String)
  | passSkipped (pass : String)
deriving DecidableEq

namespace LogEvent

def level : LogEvent → LogLevel
  | runFailed _ => .info
  | searchPath _ | unreadableSource _ _ | manifestLoaded _ _ | passComplete _ _ => .debug
  | componentKnown _ | componentScanned _ _ | packageKnown _ | packageScanned _ _ => .trace
  | imported _ _ | typesInferred _ | temporaries _ | passSkipped _ => .trace

def topic : LogEvent → String
  | searchPath _ | unreadableSource _ _ | runFailed _ => "pclc"
  | manifestLoaded _ _ | componentKnown _ | componentScanned _ _ => "pclc::registry"
  | packageKnown _ | packageScanned _ _ => "pclc::registry"
  | imported _ _ => "pclc::resolve"
  | typesInferred _ => "pclc::type_infer"
  | temporaries _ => "pclc::codegen"
  | passComplete _ _ | passSkipped _ => "pclc::pipeline"

def text : LogEvent → String
  | searchPath directories => "import search path " ++ directories
  | unreadableSource file reason => "cannot read " ++ file ++ ": " ++ reason
  | runFailed reason => reason
  | manifestLoaded count origin =>
    "loaded " ++ NumeralStyle.decimalDigits count ++ " signature entries from " ++ origin
  | componentKnown module => "component " ++ module ++ " found in registry"
  | componentScanned module file => "component " ++ module ++ " scanned from " ++ file
  | packageKnown module => "package " ++ module ++ " found in registry"
  | packageScanned module file => "package " ++ module ++ " scanned from " ++ file
  | imported module localName => "import " ++ module ++ " as " ++ localName
  | typesInferred nodes => "inferred types for " ++ NumeralStyle.decimalDigits nodes ++ " nodes"
  | temporaries count => "generated " ++ NumeralStyle.decimalDigits count ++ " temporaries"
  | passComplete pass elapsed => "pass " ++ pass ++ " complete, " ++ elapsed ++ "ms"
  | passSkipped pass => "pass " ++ pass ++ " skipped"

def entry (e : LogEvent) : String :=
  "[" ++ e.level.label ++ " " ++ e.topic ++ "] " ++
    "\n    ".intercalate (e.text.splitOn "\n") ++ "\n"

/-- What the log says. A name in an event cannot steer the terminal, though a sequence that it
leaves open swallows the rest of the entry. -/
def render (e : LogEvent) : String := withoutControls e.entry

end LogEvent

end PipelineLang
