import PipelineLang.Log

/-! The command line of the compiler. -/

namespace PipelineLang

/-- How far a program is taken, and what is shown of it. -/
inductive Stage where
  | python | ast | lir | signatures
deriving DecidableEq

namespace Stage

def ofText? : String → Option Stage
  | "python" => some python
  | "ast" => some ast
  | "lir" => some lir
  | "signatures" => some signatures
  | _ => none

def label : Stage → String
  | python => "Python"
  | ast => "Ast"
  | lir => "Lir"
  | signatures => "Signatures"

end Stage

def LogLevel.ofText? : String → Option LogLevel
  | "error" => some error
  | "warn" => some warn
  | "info" => some info
  | "debug" => some debug
  | "trace" => some trace
  | _ => none

structure Options where
  source : String
  logLevel : Option LogLevel
  instrument : Bool
  manifests : List String
  stage : Stage
  verbose : Bool
deriving DecidableEq

/-- What a command line asks for in place of a compilation. -/
inductive Aside where
  | help
  | version
  /-- It cannot be understood. -/
  | misuse
deriving DecidableEq

inductive Setting where
  | logLevel | manifest | stage
deriving DecidableEq

inductive Switch where
  | instrument | verbose | version | help
deriving DecidableEq

namespace Options

structure Draft where
  source : Option String
  logLevel : Option LogLevel
  instrument : Bool
  manifests : List String
  stage : Option Stage
  verbose : Bool

namespace Draft

def blank : Draft := ⟨none, none, false, [], none, false⟩

/-- Gives a setting its value. Only manifests can be given more than once. -/
def set (d : Draft) (value : String) : Setting → Except Aside Draft
  | .logLevel =>
    match d.logLevel, LogLevel.ofText? value with
    | none, some level => .ok { d with logLevel := some level }
    | _, _ => .error .misuse
  | .manifest =>
    if value.isEmpty then .error .misuse else .ok { d with manifests := d.manifests ++ [value] }
  | .stage =>
    match d.stage, Stage.ofText? value with
    | none, some stage => .ok { d with stage := some stage }
    | _, _ => .error .misuse

def turnOn (d : Draft) : Switch → Except Aside Draft
  | .instrument => if d.instrument then .error .misuse else .ok { d with instrument := true }
  | .verbose => if d.verbose then .error .misuse else .ok { d with verbose := true }
  | .version => .error .version
  | .help => .error .help

/-- Takes an argument that is no option. There is one, the source file. -/
def takeSource (d : Draft) (value : String) : Except Aside Draft :=
  match d.source with
  | none => if value.isEmpty then .error .misuse else .ok { d with source := some value }
  | some _ => .error .misuse

end Draft

def long? : String → Option (Setting ⊕ Switch)
  | "loglevel" => some (.inl .logLevel)
  | "signatures" => some (.inl .manifest)
  | "emit" => some (.inl .stage)
  | "instrument" => some (.inr .instrument)
  | "verbose" => some (.inr .verbose)
  | "version" => some (.inr .version)
  | "help" => some (.inr .help)
  | _ => none

def short? : Char → Option (Setting ⊕ Switch)
  | 'l' => some (.inl .logLevel)
  | 'i' => some (.inr .instrument)
  | 'v' => some (.inr .version)
  | 'h' => some (.inr .help)
  | _ => none

/-- What an option leaves: a draft, and the setting that waits for the next argument. -/
abbrev Step := Except Aside (Draft × Option Setting)

/-- An option by its full name. A value may stand behind an equals sign. -/
def readLong (d : Draft) (body : List Char) : Step :=
  let name := String.ofList (body.takeWhile (· != '='))
  match long? name, body.dropWhile (· != '=') with
  | some (.inl setting), [] => .ok (d, some setting)
  | some (.inl setting), _ :: value => do return (← d.set (String.ofList value) setting, none)
  | some (.inr switch), [] => do return (← d.turnOn switch, none)
  | _, _ => .error .misuse

/-- Options by their letters. What follows the letter of a setting is its value. -/
def readShort (d : Draft) : List Char → Step
  | [] => .ok (d, none)
  | c :: cs =>
    match short? c with
    | none => .error .misuse
    | some (.inr switch) => do readShort (← d.turnOn switch) cs
    | some (.inl setting) =>
      match cs with
      | [] => .ok (d, some setting)
      | '=' :: value => do return (← d.set (String.ofList value) setting, none)
      | value => do return (← d.set (String.ofList value) setting, none)

/-- Does an argument look like an option? A single hyphen does not. -/
def looksLikeOption (arg : String) : Bool := arg.startsWith "-" && arg != "-"

def readArg (d : Draft) (arg : String) : Step :=
  match arg.toList with
  | '-' :: '-' :: body => readLong d body
  | ['-'] => do return (← d.takeSource arg, none)
  | '-' :: body => readShort d body
  | _ => do return (← d.takeSource arg, none)

/-- Reads arguments in turn; the first that ends the reading decides. Behind two hyphens nothing is
an option. -/
def readArgs (d : Draft) : Option Setting → List String → Except Aside Draft
  | some _, [] => .error .misuse
  | none, [] => .ok d
  | some setting, arg :: args =>
    if looksLikeOption arg then .error .misuse
    else do readArgs (← d.set arg setting) none args
  | none, arg :: args =>
    if arg = "--" then args.foldlM Draft.takeSource d
    else do
      let (d, pending) ← readArg d arg
      readArgs d pending args

def ofArgs (args : List String) : Except Aside Options := do
  let d ← readArgs .blank none args
  match d.source with
  | none => .error .misuse
  | some source =>
    return ⟨source, d.logLevel, d.instrument, d.manifests, d.stage.getD .python, d.verbose⟩

end Options

def helpText : String :=
  "PCL compiler: translates .pcl pipeline components into Python modules\n\n" ++
  "Usage: pclc [OPTIONS] <SOURCE>\n\n" ++
  "Arguments:\n" ++
  "  <SOURCE>  Input .pcl source file (the extension may be omitted)\n\n" ++
  "Options:\n" ++
  "  -l, --loglevel <LOGLEVEL>      Logging level (RUST_LOG is used when absent) " ++
    "[possible values: error, warn, info, debug, trace]\n" ++
  "  -i, --instrument               Instrument the generated code with trace output\n" ++
  "      --signatures <SIGNATURES>  Signature manifest JSON (repeatable)\n" ++
  "      --emit <EMIT>              Output stage [default: python] " ++
    "[possible values: python, ast, lir, signatures]\n" ++
  "      --verbose                  Print compiler phases and timing\n" ++
  "  -v, --version                  Print version\n" ++
  "  -h, --help                     Print help\n"

def usageText : String :=
  "Usage: pclc [OPTIONS] <SOURCE>\n\nFor more information, try '--help'.\n"

end PipelineLang
