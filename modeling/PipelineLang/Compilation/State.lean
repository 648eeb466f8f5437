import PipelineLang.Arrow.Analysis
import PipelineLang.Compilation.Pass
import PipelineLang.Grammar.Source
import PipelineLang.Leaf.Lowering
import PipelineLang.Symbols.Leaf
import PipelineLang.Target.Module

/-! Running the passes of a compilation, and keeping what they leave. -/

namespace PipelineLang

def compilerVersion : String := "0.3.0"

def Provenance.ofSource (source : String) (registry : Registry) : Provenance :=
  ⟨Sha256.ofText source, Sha256.ofText registry.canonicalText, compilerVersion⟩

/-- A program, all that its compilation reads, and all that the passes have left so far. -/
structure Compilation where
  program : Program
  registry : Registry
  files : FileTree
  file : String
  lines : LineIndex
  provenance : Option Provenance
  symbols : Option Symbols
  arena : Option Arena
  lowered : Option LoweredLeaf
  generated : Option String
  findings : List Finding
  hasError : Bool

structure PassReport where
  log : List LogEvent
  findings : List Finding

inductive PassOutcome where
  | skipped (pass : Pass)
  | ran (pass : Pass) (report : PassReport)

namespace Compilation

def start (program : Program) (registry : Registry) (files : FileTree) (file source : String)
    (provenance : Option Provenance) : Compilation where
  program := program
  registry := registry
  files := files
  file := file
  lines := .ofText source
  provenance := provenance
  symbols := none
  arena := none
  lowered := none
  generated := none
  findings := []
  hasError := false

private def silent : PassReport := ⟨[], []⟩

private def failing (span : Span) (fault : GenerationFault) : PassReport :=
  ⟨[], [⟨span, .generation fault⟩]⟩

private def lacking (pass : Pass) : PassReport := failing (.endOf 0) (.missingInputs pass.name)

def resolvePass (c : Compilation) : Compilation × PassReport :=
  let r := c.program.resolve c.file c.registry c.files
  ({ c with symbols := some r.symbols }, ⟨r.log, r.findings⟩)

def layOutPass (c : Compilation) : Compilation × PassReport :=
  match c.program.component.definition with
  | .arrow expression => ({ c with arena := some (.ofArrow expression) }, silent)
  | .leaf _ => (c, silent)

def inferPass (c : Compilation) : Compilation × PassReport :=
  match c.arena, c.symbols with
  | some arena, some symbols =>
    let (arena, findings) := arena.infer symbols
    ({ c with arena := some arena }, ⟨[.typesInferred arena.size], findings⟩)
  | _, _ => (c, lacking .infer)

def analyzePass (c : Compilation) : Compilation × PassReport :=
  match c.arena, c.symbols with
  | some arena, some symbols =>
    let (arena, symbols, findings) := arena.analyze symbols
    ({ c with arena := some arena, symbols := some symbols }, ⟨[], findings⟩)
  | _, _ => (c, lacking .analyze)

def lowerPass (c : Compilation) : Compilation × PassReport :=
  match c.program.component.definition, c.symbols with
  | .leaf body, some symbols =>
    match body.lower symbols.tables with
    | .ok leaf => ({ c with lowered := some leaf }, silent)
    | .error e => (c, failing e.span (.lowering e.fault))
  | _, _ => (c, lacking .lower)

/-- The form of the definition from which code is written. -/
def body? (c : Compilation) : Option Body :=
  match c.arena, c.lowered with
  | some arena, _ => some (.arrow arena)
  | none, some leaf => some (.leaf leaf)
  | none, none => none

def generatePass (o : CodeOptions) (c : Compilation) : Compilation × PassReport :=
  match c.symbols, c.body? with
  | some symbols, some body =>
    let o := { o with provenance := o.provenance.or c.provenance }
    match c.program.generate symbols body c.lines o with
    | .ok code => ({ c with generated := some code.text }, ⟨code.log, []⟩)
    | .error fault => (c, failing c.program.span (.emission fault))
  | _, _ => (c, lacking .generate)

def runPass (o : CodeOptions) (c : Compilation) : Pass → Compilation × PassReport
  | .resolve => c.resolvePass
  | .layOut => c.layOutPass
  | .infer => c.inferPass
  | .analyze => c.analyzePass
  | .lower => c.lowerPass
  | .generate => c.generatePass o

/-- Runs passes in turn up to the first that reports an error, which is returned. -/
def runPasses (o : CodeOptions) (c : Compilation) :
    List Pass → Compilation × List PassOutcome × Option Pass
  | [] => (c, [], none)
  | pass :: passes =>
    if pass.dialect.applies c.program.component.isLeaf then
      let (c, report) := c.runPass o pass
      let failed := report.findings.any Finding.isError
      let c := { c with
        findings := c.findings ++ report.findings, hasError := c.hasError || failed }
      if failed then (c, [.ran pass report], some pass)
      else
        let (c, outcomes, failure) := runPasses o c passes
        (c, .ran pass report :: outcomes, failure)
    else
      let (c, outcomes, failure) := runPasses o c passes
      (c, .skipped pass :: outcomes, failure)

def run (c : Compilation) (o : CodeOptions) (terminal : Pass) :
    Compilation × List PassOutcome × Option Pass :=
  c.runPasses o terminal.required

def exportImport (c : Compilation) (r : Registry × List LogEvent) (i : ImportEntry) :
    Registry × List LogEvent :=
  let (registry, log) := r
  match i.kind with
  | .component leaf =>
    if leaf.loaded then
      match c.registry.component c.files i.path with
      | (events, .ok s) => (registry.insertComponent i.path s, log ++ events)
      | (events, .error _) => (registry, log ++ events)
    else (registry, log)
  | .package _ =>
    match c.registry.functions c.files i.path with
    | (events, .ok p) => (registry.insertPackage i.path p, log ++ events)
    | (events, .error _) => (registry, log ++ events)

/-- A registry with the interfaces of all imports that could be loaded, wherever they came from. -/
def resolvedSignatures (c : Compilation) : Registry × List LogEvent :=
  match c.symbols with
  | some symbols => symbols.imports.foldl (exportImport c) (.empty, [])
  | none => (.empty, [])

end Compilation

structure Compiled where
  findings : List Finding
  code : Option String

/-- Compiles a source text that stands in `file` to Python, unless it is wrong. -/
def compile (source file : String) (registry : Registry) (files : FileTree) (o : CodeOptions) :
    Compiled :=
  let parsed := Parsed.ofSource source
  match parsed.program with
  | none => ⟨parsed.findings, none⟩
  | some program =>
    if parsed.findings.any Finding.isError then ⟨parsed.findings, none⟩
    else
      let start := Compilation.start program registry files file source
        (some (.ofSource source registry))
      let (c, _, _) := start.run o .generate
      ⟨c.findings, if c.hasError then none else c.generated⟩

end PipelineLang
