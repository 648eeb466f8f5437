import PipelineLang.Compilation.State
import PipelineLang.Proofs.Symbols.Resolution

/-! What a run through all passes comes to. There is one equation for each pass in a state that has
all it reads. A run goes through the reports of the passes that check the program, up to the first
one with an error, and writes code behind the last of them. -/

namespace PipelineLang

variable {s : Symbols} {body : Body}

/-- What the passes before the last one leave of a program to write code from. -/
inductive Program.Leaves (p : Program) (r : Resolution) : Symbols → Body → Prop where
  | leaf {body : DoBlock} {leaf : LoweredLeaf} :
      p.component.definition = .leaf body → body.lower r.symbols.tables = .ok leaf →
      Leaves p r r.symbols (.leaf leaf)
  | arrow {e : Arrow} :
      p.component.definition = .arrow e →
      Leaves p r (((Arena.ofArrow e).infer r.symbols).1.analyze r.symbols).2.1
        (.arrow (((Arena.ofArrow e).infer r.symbols).1.analyze r.symbols).1)

theorem Program.Leaves.unique {p : Program} {r : Resolution} {s' : Symbols} {body' : Body}
    (h : p.Leaves r s body) (h' : p.Leaves r s' body') : s = s' ∧ body = body' := by
  cases h with
  | leaf hdef hlower =>
    cases h' with
    | leaf hdef' hlower' =>
      cases hdef.symm.trans hdef'
      cases hlower.symm.trans hlower'
      exact ⟨rfl, rfl⟩
    | arrow hdef' => cases hdef.symm.trans hdef'
  | arrow hdef =>
    cases h' with
    | leaf hdef' hlower' => cases hdef.symm.trans hdef'
    | arrow hdef' =>
      cases hdef.symm.trans hdef'
      exact ⟨rfl, rfl⟩

/-- Reports in turn, up to the first one with an error. -/
def untilError : List (List Finding) → List Finding
  | [] => []
  | report :: reports => if report.any Finding.isError then report else report ++ untilError reports

/-- What the passes that check a program report of it, once its names are resolved. -/
def Program.reports (p : Program) (r : Resolution) : List (List Finding) :=
  match p.component.definition with
  | .leaf _ => [r.findings]
  | .arrow e =>
    let inferred := (Arena.ofArrow e).infer r.symbols
    [r.findings, inferred.2, (inferred.1.analyze r.symbols).2.2]

namespace Compilation

def resolution (d : Compilation) : Resolution := d.program.resolve d.file d.registry d.files

/-- The options of a run that starts from `d`. -/
def settled (d : Compilation) (o : CodeOptions) : CodeOptions :=
  { o with provenance := o.provenance.or d.provenance }

def noted (after : Compilation × PassReport) : Compilation :=
  { after.1 with
    findings := after.1.findings ++ after.2.findings
    hasError := after.1.hasError || after.2.findings.any Finding.isError }

variable {d c : Compilation} {o : CodeOptions} {pass : Pass} {passes : List Pass}

theorem runPasses_skip (h : pass.dialect.applies c.program.component.isLeaf = false) :
    c.runPasses o (pass :: passes) =
      ((c.runPasses o passes).1, .skipped pass :: (c.runPasses o passes).2.1,
        (c.runPasses o passes).2.2) := by
  rw [runPasses, h]
  rfl

theorem runPasses_fail (h : pass.dialect.applies c.program.component.isLeaf = true)
    (hfailed : (c.runPass o pass).2.findings.any Finding.isError = true) :
    c.runPasses o (pass :: passes) =
      (noted (c.runPass o pass), [.ran pass (c.runPass o pass).2], some pass) := by
  rw [runPasses, h]
  simp only [hfailed, if_true, noted]

theorem runPasses_next (h : pass.dialect.applies c.program.component.isLeaf = true)
    (hfailed : (c.runPass o pass).2.findings.any Finding.isError = false) :
    c.runPasses o (pass :: passes) =
      (((noted (c.runPass o pass)).runPasses o passes).1,
        .ran pass (c.runPass o pass).2 :: ((noted (c.runPass o pass)).runPasses o passes).2.1,
        ((noted (c.runPass o pass)).runPasses o passes).2.2) := by
  rw [runPasses, h]
  simp only [hfailed, if_true, Bool.false_eq_true, if_false, noted]

structure SameTask (d c : Compilation) : Prop where
  program : c.program = d.program
  file : c.file = d.file
  registry : c.registry = d.registry
  files : c.files = d.files
  lines : c.lines = d.lines
  provenance : c.provenance = d.provenance

theorem frame_runPass (o : CodeOptions) (c : Compilation) (pass : Pass) :
    c.SameTask (c.runPass o pass).1 ∧ (c.runPass o pass).1.findings = c.findings ∧
      (c.runPass o pass).1.hasError = c.hasError := by
  cases pass with
  | resolve => exact ⟨⟨rfl, rfl, rfl, rfl, rfl, rfl⟩, rfl, rfl⟩
  | layOut | infer | analyze | lower | generate =>
    simp only [runPass, layOutPass, inferPass, analyzePass, lowerPass, generatePass]
    repeat' split
    all_goals exact ⟨⟨rfl, rfl, rfl, rfl, rfl, rfl⟩, rfl, rfl⟩

theorem SameTask.runPass (hc : d.SameTask c) (o : CodeOptions) (pass : Pass) :
    d.SameTask (noted (c.runPass o pass)) := by
  obtain ⟨h, -, -⟩ := frame_runPass o c pass
  exact ⟨h.program.trans hc.program, h.file.trans hc.file, h.registry.trans hc.registry,
    h.files.trans hc.files, h.lines.trans hc.lines, h.provenance.trans hc.provenance⟩

theorem resolve_eq (hc : d.SameTask c) :
    c.runPass o .resolve =
      ({ c with symbols := some d.resolution.symbols },
        ⟨d.resolution.log, d.resolution.findings⟩) := by
  simp only [runPass, resolvePass, resolution, hc.program, hc.file, hc.registry, hc.files]

theorem layOut_eq (hc : d.SameTask c) {e : Arrow}
    (hdef : d.program.component.definition = .arrow e) :
    c.runPass o .layOut = ({ c with arena := some (.ofArrow e) }, ⟨[], []⟩) := by
  simp only [runPass, layOutPass, hc.program, hdef]
  rfl

theorem infer_eq {a : Arena} (ha : c.arena = some a) (hs : c.symbols = some s) :
    c.runPass o .infer =
      ({ c with arena := some (a.infer s).1 },
        ⟨[.typesInferred (a.infer s).1.size], (a.infer s).2⟩) := by
  simp only [runPass, inferPass, ha, hs]

theorem analyze_eq {a : Arena} (ha : c.arena = some a) (hs : c.symbols = some s) :
    c.runPass o .analyze =
      ({ c with arena := some (a.analyze s).1, symbols := some (a.analyze s).2.1 },
        ⟨[], (a.analyze s).2.2⟩) := by
  simp only [runPass, analyzePass, ha, hs]

theorem lower_ok (hc : d.SameTask c) {body : DoBlock} {leaf : LoweredLeaf}
    (hdef : d.program.component.definition = .leaf body)
    (hs : c.symbols = some d.resolution.symbols)
    (hlower : body.lower d.resolution.symbols.tables = .ok leaf) :
    c.runPass o .lower = ({ c with lowered := some leaf }, ⟨[], []⟩) := by
  simp only [runPass, lowerPass, hc.program, hdef, hs, hlower]
  rfl

theorem generate_ok (hc : d.SameTask c) {code : Generated} (hs : c.symbols = some s)
    (hbody : c.body? = some body)
    (hcode : d.program.generate s body d.lines (d.settled o) = .ok code) :
    c.runPass o .generate = ({ c with generated := some code.text }, ⟨code.log, []⟩) := by
  rw [settled] at hcode
  simp only [runPass, generatePass, hs, hbody, hc.program, hc.lines, hc.provenance, hcode]

/-- The state of a run without errors so far: what the passes have left, and what they have
found. -/
def reached (d : Compilation) (symbols : Option Symbols) (arena : Option Arena)
    (lowered : Option LoweredLeaf) (found : List Finding) : Compilation :=
  { d with symbols, arena, lowered, findings := found, hasError := false }

/-- Code was written from what the other passes left. -/
def Emitted (o : CodeOptions) (d c : Compilation) : Prop :=
  d.resolution.Clean ∧ ∃ s body code, d.program.Leaves d.resolution s body ∧
    d.program.generate s body d.lines (d.settled o) = .ok code ∧ c.generated = some code.text

/-- A run has ended in `c`, with reports that came behind `found`. -/
structure Ended (o : CodeOptions) (d : Compilation) (found : List Finding)
    (reports : List (List Finding)) (c : Compilation) : Prop where
  findings : c.findings = found ++ untilError reports
  hasError : c.hasError = (untilError reports).any Finding.isError
  emitted : c.hasError = false → d.Emitted o c

section Ended

variable {symbols symbols' : Option Symbols} {arena arena' : Option Arena}
  {lowered lowered' : Option LoweredLeaf} {found : List Finding} {reports : List (List Finding)}

theorem sameTask_reached : d.SameTask (d.reached symbols arena lowered found) :=
  ⟨rfl, rfl, rfl, rfl, rfl, rfl⟩

theorem ended_skip (hskip : pass.dialect.applies d.program.component.isLeaf = false)
    (h : d.Ended o found reports ((d.reached symbols arena lowered found).runPasses o passes).1) :
    d.Ended o found reports ((d.reached symbols arena lowered found).runPasses o
        (pass :: passes)).1 := by
  rw [runPasses_skip (c := d.reached symbols arena lowered found) hskip]
  exact h

/-- Either the run ends with this report, or it goes on behind it. -/
theorem ended_cons {report : PassReport}
    (happlies : pass.dialect.applies d.program.component.isLeaf = true)
    (hpass : (d.reached symbols arena lowered found).runPass o pass =
      (d.reached symbols' arena' lowered' found, report))
    (h : report.findings.any Finding.isError = false → d.Ended o (found ++ report.findings) reports
      ((d.reached symbols' arena' lowered' (found ++ report.findings)).runPasses o passes).1) :
    d.Ended o found (report.findings :: reports)
      ((d.reached symbols arena lowered found).runPasses o (pass :: passes)).1 := by
  cases hfailed : report.findings.any Finding.isError with
  | true =>
    rw [runPasses_fail (c := d.reached symbols arena lowered found) happlies
      (by rw [hpass, hfailed]), hpass]
    constructor <;> simp [noted, reached, untilError, hfailed]
  | false =>
    have hnoted : noted (d.reached symbols' arena' lowered' found, report) =
        d.reached symbols' arena' lowered' (found ++ report.findings) := by
      simp only [noted, reached, hfailed, Bool.or_false]
    obtain ⟨hfindings, herror, hemitted⟩ := h hfailed
    rw [runPasses_next (c := d.reached symbols arena lowered found) happlies
      (by rw [hpass, hfailed]), hpass, hnoted]
    refine ⟨?_, ?_, hemitted⟩
    · simp [hfindings, untilError, hfailed]
    · simp [herror, untilError, hfailed]

theorem ended_silent {log : List LogEvent}
    (happlies : pass.dialect.applies d.program.component.isLeaf = true)
    (hpass : (d.reached symbols arena lowered found).runPass o pass =
      (d.reached symbols' arena' lowered' found, ⟨log, []⟩))
    (h : d.Ended o found reports
        ((d.reached symbols' arena' lowered' found).runPasses o passes).1) :
    d.Ended o found reports ((d.reached symbols arena lowered found).runPasses o
        (pass :: passes)).1 := by
  have hcons : d.Ended o found ([] :: reports)
      ((d.reached symbols arena lowered found).runPasses o (pass :: passes)).1 :=
    ended_cons happlies hpass fun _ => by rwa [List.append_nil]
  exact ⟨hcons.findings, hcons.hasError, hcons.emitted⟩

theorem ended_generate {code : Generated} (hclean : d.resolution.Clean)
    (hleaves : d.program.Leaves d.resolution s body)
    (hcode : d.program.generate s body d.lines (d.settled o) = .ok code)
    (hbody : (d.reached (some s) arena lowered found).body? = some body) :
    d.Ended o found [] ((d.reached (some s) arena lowered found).runPasses o [.generate]).1 := by
  have hpass := generate_ok (c := d.reached (some s) arena lowered found) sameTask_reached rfl hbody
    hcode
  rw [runPasses_next rfl (by rw [hpass]; rfl), hpass]
  exact ⟨rfl, rfl, fun _ => ⟨hclean, s, body, code, hleaves, hcode, rfl⟩⟩

end Ended

/-- Code can be written wherever the names are resolved without errors. -/
def Writable (o : CodeOptions) (d : Compilation) : Prop :=
  d.resolution.Clean → ∃ s body code, d.program.Leaves d.resolution s body ∧
    d.program.generate s body d.lines (d.settled o) = .ok code

section Runs

variable (hwrites : d.Writable o)
include hwrites

theorem ended_leaf {body : DoBlock} (hdef : d.program.component.definition = .leaf body) :
    d.Ended o [] [d.resolution.findings]
      ((d.reached none none none []).runPasses o Pass.all).1 := by
  have hleaf : d.program.component.isLeaf = true := by simp only [Component.isLeaf, hdef]
  refine ended_cons rfl (resolve_eq sameTask_reached) fun hfound => ?_
  have hclean : d.resolution.Clean := by simpa [Resolution.Clean] using hfound
  obtain ⟨s, _, code, hleaves, hcode⟩ := hwrites hclean
  cases hleaves with
  | arrow hdef' => cases hdef.symm.trans hdef'
  | leaf hdef' hlower =>
    refine ended_skip (by rw [hleaf]; rfl)
      (ended_skip (by rw [hleaf]; rfl) (ended_skip (by rw [hleaf]; rfl) ?_))
    refine ended_silent (by rw [hleaf]; rfl) (lower_ok sameTask_reached hdef' rfl hlower) ?_
    exact ended_generate hclean (.leaf hdef' hlower) hcode rfl

theorem ended_arrow {e : Arrow} (hdef : d.program.component.definition = .arrow e) :
    let inferred := (Arena.ofArrow e).infer d.resolution.symbols
    d.Ended o [] [d.resolution.findings, inferred.2, (inferred.1.analyze d.resolution.symbols).2.2]
      ((d.reached none none none []).runPasses o Pass.all).1 := by
  have harrow : d.program.component.isLeaf = false := by simp only [Component.isLeaf, hdef]
  refine ended_cons rfl (resolve_eq sameTask_reached) fun hfound => ?_
  have hclean : d.resolution.Clean := by simpa [Resolution.Clean] using hfound
  obtain ⟨s, body, code, hleaves, hcode⟩ := hwrites hclean
  obtain ⟨rfl, rfl⟩ := hleaves.unique (.arrow hdef)
  refine ended_silent (by rw [harrow]; rfl) (layOut_eq sameTask_reached hdef) ?_
  refine ended_cons (by rw [harrow]; rfl) (infer_eq rfl rfl) fun _ => ?_
  refine ended_cons (by rw [harrow]; rfl) (analyze_eq rfl rfl) fun _ => ?_
  exact ended_skip (by rw [harrow]; rfl) (ended_generate hclean hleaves hcode rfl)

/-- A run through all passes ends with the reports of those that check the program, and those that
write code have nothing to add. -/
theorem ended_all :
    d.Ended o [] (d.program.reports d.resolution)
      ((d.reached none none none []).runPasses o Pass.all).1 := by
  rw [Program.reports]
  cases hdef : d.program.component.definition with
  | leaf body => exact ended_leaf hwrites hdef
  | arrow e => exact ended_arrow hwrites hdef

end Runs

end Compilation

end PipelineLang
