import PipelineLang.Compilation.State
import PipelineLang.Diagnostic
import PipelineLang.Dump.Program
import PipelineLang.Tool.Options

/-! A run of the compiler: from a command line and files to texts, files and an exit code. -/

namespace PipelineLang

inductive Note where
  | message (text : String)
  /-- Told only when the run is to be verbose. -/
  | detail (text : String)
  /-- Told only when the log reaches that far. -/
  | event (e : LogEvent)

namespace Note

def shown? (o : Options) : Note → Option String
  | message text => some (text ++ "\n")
  | detail text => if o.verbose then some (text ++ "\n") else none
  | event e =>
    match o.logLevel with
    | some limit => if e.level.within limit then some e.render else none
    | none => none

def transcript (o : Options) (notes : List Note) : String :=
  String.join (notes.filterMap (shown? o))

end Note

structure Surroundings where
  importPath : Option String
  files : FileTree
  /-- The time that generated code is marked with. -/
  now : String
  /-- How many milliseconds a pass takes. -/
  elapsed : Pass → String

structure Outcome where
  exitCode : Nat
  stdout : String
  stderr : String
  files : FileTree

/-- The directories in which modules are looked for; the current one is the last. -/
def searchPaths (importPath : Option String) : List String :=
  ((Path.parts ':' (importPath.getD "")).filter fun dir => !dir.isEmpty) ++ ["."]

namespace Options

/-- The file of the program; a name without extension gets the usual one. -/
def file (o : Options) : String :=
  match Path.extension? o.source with
  | some _ => o.source
  | none => Path.withExtension o.source "pcl"

def terminal (o : Options) : Pass :=
  match o.stage with
  | .signatures => .resolve
  | .lir => .lower
  | .python | .ast => .generate

end Options

def findingNotes (file : String) (lines : LineIndex) (findings : List Finding) : List Note :=
  findings.map fun f => .message ((Diagnostic.ofFinding f).render file lines)

def loadManifests (files : FileTree) (r : Registry) : List String → List Note × Option Registry
  | [] => ([], some r)
  | path :: paths =>
    match r.loadFile files path with
    | (_, .error e) => ([.message ("ERROR: " ++ e.message)], none)
    | (r, .ok count) =>
      let (notes, r) := loadManifests files r paths
      (.event (.manifestLoaded count path)
        :: .detail ("pclc: loaded " ++ NumeralStyle.decimalDigits count ++ " signatures from " ++
          path)
        :: notes, r)

/-- A program that has been read, with the notes made on the way. -/
structure Job where
  program : Program
  registry : Registry
  source : String
  notes : List Note

namespace Job

/-- Reads manifests and program. Only notes are left when one of them cannot be used. -/
def read (o : Options) (around : Surroundings) : Except (List Note) Job :=
  let paths := searchPaths around.importPath
  let opening : List Note :=
    [.detail ("pclc: source = " ++ o.file), .detail ("pclc: emit   = " ++ o.stage.label),
      .event (.searchPath ("[" ++ ", ".intercalate (paths.map Quoted.text) ++ "]"))]
  match loadManifests around.files (.withSearchPaths paths) o.manifests with
  | (notes, none) => .error (opening ++ notes)
  | (notes, some registry) =>
    match around.files.readText o.file with
    | .error e =>
      .error (opening ++ notes ++
        [.event (.unreadableSource o.file e.message),
          .message ("ERROR: Cannot find file " ++ o.file)])
    | .ok source =>
      let parsed := Parsed.ofSource source
      let notes := opening ++ notes ++ findingNotes o.file (.ofText source) parsed.findings
      match parsed.program with
      | none => .error notes
      | some program =>
        if parsed.findings.any Finding.isError then .error notes
        else .ok ⟨program, registry, source, notes⟩

def start (job : Job) (o : Options) (around : Surroundings) : Compilation :=
  .start job.program job.registry around.files o.file job.source
    (some (.ofSource job.source job.registry))

end Job

def passNotes (c : Compilation) (elapsed : Pass → String) : PassOutcome → List Note
  | .skipped pass => [.event (.passSkipped pass.name)]
  | .ran pass report =>
    report.log.map .event ++ findingNotes c.file c.lines report.findings ++
      [.event (.passComplete pass.name (elapsed pass)),
        .detail ("pclc: " ++ pass.name ++ " complete, " ++ elapsed pass ++ "ms")]

/-- Writes a file. What cannot be written leaves all as it is. -/
def FileTree.tryWrite (files : FileTree) (path : String) (bytes : ByteArray) :
    FileTree × Option FileError :=
  match files.write path bytes with
  | .ok files => (files, none)
  | .error e => (files, some e)

/-- Writes the code of a component into a directory and makes the directory a package. What is
written before a failure stays. -/
def writeCode (files : FileTree) (dir component code : String) : FileTree × Option FileError :=
  match files.tryWrite (Path.join dir (component ++ ".py")) code.toUTF8 with
  | (files, some e) => (files, some e)
  | (files, none) =>
    let marker := Path.join dir "__init__.py"
    if files.hasEntry marker then (files, none) else files.tryWrite marker .empty

/-- The end of a run that fails. -/
def Outcome.failure (o : Options) (files : FileTree) (notes : List Note) : Outcome :=
  ⟨1, "", Note.transcript o notes, files⟩

/-- The end of a run that only shows a text. -/
def Outcome.display (o : Options) (files : FileTree) (notes : List Note) (text : String) :
    Outcome :=
  ⟨0, text, Note.transcript o notes, files⟩

/-- The end of a run whose passes all succeeded. -/
def Compilation.deliver (c : Compilation) (o : Options) (notes : List Note) : Outcome :=
  let name := c.program.component.name.name
  match o.stage with
  | .ast => .display o c.files notes ""
  | .signatures =>
    let (registry, log) := c.resolvedSignatures
    .display o c.files (notes ++ log.map .event) (registry.prettyText ++ "\n")
  | .lir =>
    match c.lowered with
    | some leaf => .display o c.files notes leaf.text
    | none =>
      .display o c.files (notes ++ [.message ("pclc: " ++ name ++ " is not a do-block component")])
        ""
  | .python =>
    match c.generated with
    | none => .failure o c.files notes
    | some code =>
      let dir := Path.parent o.file
      match writeCode c.files dir name code with
      | (files, some e) => .failure o files (notes ++ [.message ("ERROR: " ++ e.message)])
      | (files, none) =>
        .display o files (notes ++ [.detail ("pclc: wrote " ++ Path.join dir (name ++ ".py"))]) ""

/-- Compiles as the options say. -/
def Options.run (o : Options) (around : Surroundings) : Outcome :=
  match Job.read o around with
  | .error notes => .failure o around.files notes
  | .ok job =>
    if o.stage = .ast then
      .display o around.files job.notes (job.program.outline.render ++ "\n")
    else
      let (c, outcomes, failed) :=
        (job.start o around).run ⟨o.instrument, around.now, none⟩ o.terminal
      let notes := job.notes ++ outcomes.flatMap (passNotes c around.elapsed)
      match failed with
      | some pass =>
        .failure o around.files (notes ++ [.event (.runFailed ("pass " ++ pass.name ++ " failed"))])
      | none => c.deliver o notes

/-- Does what a command line asks for. -/
def runTool (args : List String) (around : Surroundings) : Outcome :=
  match Options.ofArgs args with
  | .error .help => ⟨0, helpText, "", around.files⟩
  | .error .version => ⟨0, "pclc " ++ compilerVersion ++ "\n", "", around.files⟩
  | .error .misuse => ⟨2, "", usageText, around.files⟩
  | .ok o => o.run around

end PipelineLang
