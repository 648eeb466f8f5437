import PipelineLang.Tool.Run
import Std.Time.Format

/-! The compiler as a command: reads the files that a run may look at, and carries out what it
leaves. -/

namespace PipelineLang

def probe (path : String) : IO (Option FileEntry) := do
  match ← (IO.FS.readBinFile path).toBaseIO with
  | .ok bytes => return some (.file bytes)
  | .error (.inappropriateType _ code _) => return if code = 21 then some .directory else none
  | .error _ => return none

def waypoints (path : String) : List String :=
  let parts := Path.parts '/' path
  ((List.range parts.length).map fun n => "/".intercalate (parts.take (n + 1))).filter (! ·.isEmpty)

def fetch (tree : FileTree) (path : String) : IO FileTree :=
  (waypoints path).foldlM
    (fun tree path => do
      match ← probe path with
      | some entry => return tree.add path entry
      | none => return tree)
    tree

def Job.paths (job : Job) (o : Options) : List String :=
  let dir := Path.parent o.file
  job.program.imports.flatMap (fun i => job.registry.candidates i.path.name) ++
    [Path.join dir (job.program.component.name.name ++ ".py"), Path.join dir "__init__.py"]

def millisecondsText (nanoseconds : Nat) : String :=
  let tenths := (nanoseconds + 50000) / 100000
  toString (tenths / 10) ++ "." ++ toString (tenths % 10)

def timings (c : Compilation) (o : CodeOptions) : List Pass → IO (List (Pass × String))
  | [] => return []
  | pass :: passes => do
    let start ← IO.monoNanosNow
    let (next, report) := c.runPass o pass
    let failed := report.findings.any Finding.isError
    let stop ← IO.monoNanosNow
    let rest ← if failed then pure [] else timings next o passes
    return (pass, millisecondsText (stop - start)) :: rest

def survey (o : Options) : IO Surroundings := do
  let importPath ← IO.getEnv "PCL_IMPORT_PATH"
  let now := (← Std.Time.PlainDateTime.now).format "EEEE dd MMMM uuuu 'at' HH:mm:ss"
  let files ← (o.file :: o.manifests).foldlM fetch .empty
  let around : Surroundings := ⟨importPath, files, now, fun _ => "0.0"⟩
  match Job.read o around with
  | .error _ => return around
  | .ok job =>
    let around := { around with files := ← (job.paths o).foldlM fetch files }
    if o.verbose || o.logLevel.isSome then
      let isLeaf := job.program.component.isLeaf
      let passes := o.terminal.required.filter fun pass => pass.dialect.applies isLeaf
      let times ← timings (job.start o around) ⟨o.instrument, now, none⟩ passes
      return { around with elapsed := fun pass => (times.lookup pass).getD "0.0" }
    else return around

end PipelineLang

open PipelineLang in
def main (args : List String) : IO UInt32 := do
  let around ← match Options.ofArgs args with
    | .ok o => survey o
    | .error _ => pure ⟨none, .empty, "", fun _ => ""⟩
  let outcome := runTool args around
  for (path, bytes) in outcome.files.changedSince around.files do
    IO.FS.writeBinFile path bytes
  (← IO.getStderr).putStr outcome.stderr
  (← IO.getStdout).putStr outcome.stdout
  return outcome.exitCode.toUInt32
