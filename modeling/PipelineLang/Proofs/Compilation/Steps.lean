import PipelineLang.Proofs.Compilation.Acceptance
import PipelineLang.Proofs.Leaf.Numbers

/-! What a single pass does in a state that runs of a compilation may lead to. It only reads what
the passes that it needs have left, so all such states are told the same and come to have the same
artifacts. -/

namespace PipelineLang

namespace Target

variable {c : Component} {s : Symbols}

theorem forall_ok_of_mapM {α β ε : Type} {f : α → Except ε β} {xs : List α} {ys : List β}
    (h : xs.mapM f = .ok ys) : ∀ x ∈ xs, ∃ y, f x = .ok y := by
  induction xs generalizing ys with
  | nil => exact List.forall_mem_nil _
  | cons x xs ih =>
    rw [List.mapM_cons] at h
    obtain ⟨y, hy, h⟩ := exists_of_bind_eq_ok h
    obtain ⟨ys, hys, -⟩ := exists_of_bind_eq_ok h
    exact List.forall_mem_cons.mpr ⟨⟨y, hy⟩, ih hys⟩

theorem exists_declarationCode {lines : LineIndex} {instrument : Bool} {d : Declaration}
    {entry : DeclarationEntry} (h : ∃ code, declarationCode s lines instrument d entry = .ok code)
    (lines' : LineIndex) (instrument' : Bool) :
    ∃ code, declarationCode s lines' instrument' d entry = .ok code := by
  unfold declarationCode at h ⊢
  cases himport : s.import? entry.importName with
  | some i => exact ⟨_, rfl⟩
  | none =>
    rw [himport] at h
    obtain ⟨code, hcode⟩ := h
    cases hcode

theorem exists_initialiseBody {body : Body} {lines : LineIndex} {instrument : Bool}
    (h : ∃ result, initialiseBody c s body lines instrument = .ok result) (instrument' : Bool) :
    ∃ result, initialiseBody c s body lines instrument' = .ok result := by
  unfold initialiseBody at h ⊢
  obtain ⟨result, h⟩ := h
  split at h
  · rename_i a
    obtain ⟨⟨statements, steps⟩, h, -⟩ := exists_of_bind_eq_ok h
    obtain ⟨instances, hinstances, h⟩ := exists_of_bind_eq_ok h
    obtain ⟨prog, hprog, -⟩ := exists_of_bind_eq_ok h
    have hcodes := fun x hx => exists_declarationCode (forall_ok_of_mapM hinstances x hx) lines
      instrument'
    obtain ⟨instances', hinstances'⟩ := exists_mapM_ok hcodes
    simp only [arrowBody, hinstances', hprog, bind, Except.bind]
    exact ⟨_, rfl⟩
  · exact ⟨_, rfl⟩
  · cases h

end Target

theorem Program.exists_generate_congr {p : Program} {s : Symbols} {body : Body} {lines : LineIndex}
    {o : CodeOptions} (h : ∃ code, p.generate s body lines o = .ok code) (o' : CodeOptions) :
    ∃ code, p.generate s body lines o' = .ok code := by
  obtain ⟨code, h⟩ := h
  obtain ⟨result, hresult, -⟩ := exists_of_bind_eq_ok h
  exact exists_generate (Target.exists_initialiseBody ⟨result, hresult⟩ o'.instrument)

def Artifact.Same (c e : Compilation) : Artifact → Prop
  | symbols => c.symbols = e.symbols
  | arena => c.arena = e.arena
  | lowered => c.lowered = e.lowered
  | generated => c.generated = e.generated

namespace Compilation

section Reachable

variable {d c e : Compilation} {o : CodeOptions} {pass : Pass} {last : Option Pass}

/-- A state that runs may lead to from `d`. What is there of a leaf or of code was made from `d`. -/
structure Kept (d c : Compilation) : Prop extends SameTask d c where
  arena : d.program.component.isLeaf = true → c.arena = none
  lowered : ∀ leaf, c.lowered = some leaf → ∃ body, d.program.component.definition = .leaf body ∧
    body.lower d.resolution.symbols.tables = .ok leaf
  generated : c.generated ≠ none → ∃ s body, d.program.Leaves d.resolution s body ∧
    ∃ o code, d.program.generate s body d.lines o = .ok code

/-- What a pass that has found no error leaves to those behind it. -/
def Left (d c : Compilation) : Pass → Prop
  | .resolve => c.symbols = some d.resolution.symbols
  | .layOut =>
    c.symbols = some d.resolution.symbols ∧ ∃ e, d.program.component.definition = .arrow e ∧
      c.arena = some (.ofArrow e)
  | .infer =>
    c.symbols = some d.resolution.symbols ∧ ∃ e, d.program.component.definition = .arrow e ∧
      c.arena = some ((Arena.ofArrow e).infer d.resolution.symbols).1
  | .analyze | .lower =>
    ∃ s body, c.symbols = some s ∧ c.body? = some body ∧ d.program.Leaves d.resolution s body
  | .generate => True

def Ready (d c : Compilation) (pass : Pass) : Prop :=
  ∀ q ∈ pass.inputs, q.dialect.applies d.program.component.isLeaf = true → d.Left c q

theorem ready_of_left
    (hneeds : (pass.inputs.filter fun q => q.dialect.applies d.program.component.isLeaf) =
    last.toList) (hleft : ∀ q ∈ last, d.Left c q) : d.Ready c pass := by
  intro q hq happlies
  have hmem : q ∈ last.toList := by
    rw [← hneeds]
    exact List.mem_filter.mpr ⟨hq, happlies⟩
  exact hleft q (by simpa using hmem)

theorem exists_arrow (h : d.program.component.isLeaf = false) :
    ∃ e, d.program.component.definition = .arrow e := by
  unfold Component.isLeaf at h
  cases hdef : d.program.component.definition with
  | arrow e => exact ⟨e, rfl⟩
  | leaf body =>
    rw [hdef] at h
    cases h

theorem exists_leaf (h : d.program.component.isLeaf = true) :
    ∃ body, d.program.component.definition = .leaf body := by
  unfold Component.isLeaf at h
  cases hdef : d.program.component.definition with
  | leaf body => exact ⟨body, rfl⟩
  | arrow e =>
    rw [hdef] at h
    cases h

/-- Code is written from what the passes before have left, be they those of arrows or those of
leaves. -/
theorem Ready.leaves (h : d.Ready c .generate) :
    ∃ s body, c.symbols = some s ∧ c.body? = some body ∧ d.program.Leaves d.resolution s body := by
  cases hleaf : d.program.component.isLeaf with
  | true => exact h .lower (by decide) (by rw [hleaf]; rfl)
  | false => exact h .analyze (by decide) (by rw [hleaf]; rfl)

theorem lower_error (hc : d.SameTask c) {body : DoBlock} {fault : LoweringError}
    (hdef : d.program.component.definition = .leaf body)
    (hs : c.symbols = some d.resolution.symbols)
    (hlower : body.lower d.resolution.symbols.tables = .error fault) :
    c.runPass o .lower = (c, ⟨[], [⟨fault.span, .generation (.lowering fault.fault)⟩]⟩) := by
  simp only [runPass, lowerPass, hc.program, hdef, hs, hlower]
  rfl

theorem generate_error (hc : d.SameTask c) {s : Symbols} {body : Body} {fault : EmissionFault}
    (hs : c.symbols = some s) (hbody : c.body? = some body)
    (hcode : d.program.generate s body d.lines (d.settled o) = .error fault) :
    c.runPass o .generate = (c, ⟨[], [⟨d.program.span, .generation (.emission fault)⟩]⟩) := by
  rw [settled] at hcode
  simp only [runPass, generatePass, hs, hbody, hc.program, hc.lines, hc.provenance, hcode]
  rfl

/-- Pass by pass, two states that runs may lead to are told the same and come to have the same. -/
structure Step (d : Compilation) (o : CodeOptions) (pass : Pass) (c e : Compilation) : Prop where
  report : (c.runPass o pass).2 = (e.runPass o pass).2
  kept : d.Kept (c.runPass o pass).1
  left : (c.runPass o pass).2.findings.any Finding.isError = false →
    d.Left (c.runPass o pass).1 pass
  hasInputs : ∀ f ∈ (c.runPass o pass).2.findings, ∀ name,
    f.problem ≠ .generation (.missingInputs name)
  same : ∀ a : Artifact, a ∈ pass.outputs ∨ a.Same c e →
    a.Same (c.runPass o pass).1 (e.runPass o pass).1

theorem Step.of_eq {c' e' : Compilation} {report : PassReport}
    (hc : c.runPass o pass = (c', report)) (he : e.runPass o pass = (e', report))
    (hkept : d.Kept c') (hleft : report.findings.any Finding.isError = false → d.Left c' pass)
    (hinputs : ∀ f ∈ report.findings, ∀ name, f.problem ≠ .generation (.missingInputs name))
    (hsame : ∀ a : Artifact, a ∈ pass.outputs ∨ a.Same c e → a.Same c' e') : d.Step o pass c e := by
  constructor
  · rw [hc, he]
  · rw [hc]
    exact hkept
  · rw [hc]
    exact hleft
  · rw [hc]
    exact hinputs
  · rw [hc, he]
    exact hsame

theorem hasInputs_of_ofProgram {findings : List Finding}
    (h : ∀ f ∈ findings, f.problem.ofProgram = true) :
    ∀ f ∈ findings, ∀ name, f.problem ≠ .generation (.missingInputs name) := by
  intro f hf name heq
  have hprogram := h f hf
  rw [heq] at hprogram
  cases hprogram

theorem step_resolve (hc : d.Kept c) (he : d.Kept e) : d.Step o .resolve c e := by
  have hinputs := hasInputs_of_ofProgram
    (d.program.ofProgram_resolve d.file d.registry d.files).findings
  refine .of_eq (resolve_eq hc.toSameTask) (resolve_eq he.toSameTask) { hc
    with program := hc.program } (fun _ => rfl)
    hinputs fun a ha => ?_
  cases a with
  | symbols => rfl
  | arena | lowered | generated => exact ha.resolve_left (by decide)

theorem Kept.withArena (hc : d.Kept c) (harrow : d.program.component.isLeaf = false)
    (arena : Option Arena) (symbols : Option Symbols) : d.Kept { c with arena, symbols } :=
  { hc with arena := fun hleaf => absurd (hleaf.symm.trans harrow) (by decide) }

theorem step_layOut (hc : d.Kept c) (he : d.Kept e) (hready : d.Ready c .layOut)
    (harrow : d.program.component.isLeaf = false) : d.Step o .layOut c e := by
  obtain ⟨expression, hdef⟩ := exists_arrow harrow
  have hsymbols : c.symbols = some d.resolution.symbols := hready .resolve (by decide) rfl
  refine .of_eq (layOut_eq hc.toSameTask hdef) (layOut_eq he.toSameTask hdef)
    (hc.withArena harrow _ _)
    (fun _ => ⟨hsymbols, expression, hdef, rfl⟩) (List.forall_mem_nil _) fun a ha => ?_
  cases a with
  | arena => rfl
  | symbols | lowered | generated => exact ha.resolve_left (by decide)

theorem step_infer (hc : d.Kept c) (hready : d.Ready c .infer) (hreadye : d.Ready e .infer)
    (harrow : d.program.component.isLeaf = false) : d.Step o .infer c e := by
  obtain ⟨hs, expression, hdef, ha⟩ := hready .layOut (by decide) (by rw [harrow]; rfl)
  obtain ⟨hse, expression', hdef', hae⟩ := hreadye .layOut (by decide) (by rw [harrow]; rfl)
  cases hdef.symm.trans hdef'
  have hinputs := hasInputs_of_ofProgram
    (Arena.ofProgram_infer d.resolution.symbols (.ofArrow expression))
  refine .of_eq (infer_eq ha hs) (infer_eq hae hse) (hc.withArena harrow _ _)
    (fun _ => ⟨hs, expression, hdef, rfl⟩) hinputs fun a ha => ?_
  cases a with
  | arena => rfl
  | symbols | lowered | generated => exact ha.resolve_left (by decide)

theorem step_analyze (hc : d.Kept c) (hready : d.Ready c .analyze) (hreadye : d.Ready e .analyze)
    (harrow : d.program.component.isLeaf = false) : d.Step o .analyze c e := by
  obtain ⟨hs, expression, hdef, ha⟩ := hready .infer (by decide) (by rw [harrow]; rfl)
  obtain ⟨hse, expression', hdef', hae⟩ := hreadye .infer (by decide) (by rw [harrow]; rfl)
  cases hdef.symm.trans hdef'
  refine .of_eq (analyze_eq ha hs) (analyze_eq hae hse) (hc.withArena harrow _ _)
    (fun _ => ⟨_, _, rfl, rfl, .arrow hdef⟩)
    (hasInputs_of_ofProgram fun f hf => (Arena.wrong_of_mem_analyze hf).ofProgram) fun a ha => ?_
  cases a with
  | arena | symbols => rfl
  | lowered | generated => exact ha.resolve_left (by decide)

theorem Kept.lowered_of_error (hc : d.Kept c) {body : DoBlock} {fault : LoweringError}
    (hdef : d.program.component.definition = .leaf body)
    (hlower : body.lower d.resolution.symbols.tables = .error fault) : c.lowered = none := by
  cases hlowered : c.lowered with
  | none => rfl
  | some leaf =>
    obtain ⟨body', hdef', hlower'⟩ := hc.lowered leaf hlowered
    cases hdef.symm.trans hdef'
    cases hlower.symm.trans hlower'

theorem step_lower (hc : d.Kept c) (he : d.Kept e) (hready : d.Ready c .lower)
    (hreadye : d.Ready e .lower) (hleaf : d.program.component.isLeaf = true) :
    d.Step o .lower c e := by
  obtain ⟨body, hdef⟩ := exists_leaf hleaf
  have hs : c.symbols = some d.resolution.symbols := hready .resolve (by decide) rfl
  have hse : e.symbols = some d.resolution.symbols := hreadye .resolve (by decide) rfl
  cases hlower : body.lower d.resolution.symbols.tables with
  | ok leaf =>
    have hkept : d.Kept { c with lowered := some leaf } :=
      { hc with lowered := fun _ h => ⟨body, hdef, hlower.trans (congrArg _ (Option.some.inj h))⟩ }
    have hbody : ({ c with lowered := some leaf } : Compilation).body? = some (.leaf leaf) := by
      simp only [body?, hc.arena hleaf]
    refine .of_eq (lower_ok hc.toSameTask hdef hs hlower) (lower_ok he.toSameTask hdef hse hlower)
      hkept
      (fun _ => ⟨_, .leaf leaf, hs, hbody, .leaf hdef hlower⟩) (List.forall_mem_nil _)
        fun a ha => ?_
    cases a with
    | lowered => rfl
    | symbols | arena | generated => exact ha.resolve_left (by decide)
  | error fault =>
    refine .of_eq (lower_error hc.toSameTask hdef hs hlower)
      (lower_error he.toSameTask hdef hse hlower) hc
      (fun h => absurd h (by simp [Finding.isError, Problem.isError])) (by simp) fun a ha => ?_
    cases a with
    | lowered =>
      exact (hc.lowered_of_error hdef hlower).trans (he.lowered_of_error hdef hlower).symm
    | symbols | arena | generated => exact ha.resolve_left (by decide)

/-- Where no code can be written, none lies about, whatever the options of earlier runs were. -/
theorem Kept.generated_of_error (hc : d.Kept c) {s : Symbols} {body : Body} {fault : EmissionFault}
    (hleaves : d.program.Leaves d.resolution s body)
    (hcode : d.program.generate s body d.lines o = .error fault) : c.generated = none := by
  by_contra hsome
  obtain ⟨s', body', hleaves', o', hcode'⟩ := hc.generated hsome
  obtain ⟨rfl, rfl⟩ := hleaves.unique hleaves'
  obtain ⟨code, hok⟩ := Program.exists_generate_congr hcode' o
  cases hcode.symm.trans hok

theorem step_generate (hc : d.Kept c) (he : d.Kept e) (hready : d.Ready c .generate)
    (hreadye : d.Ready e .generate) : d.Step o .generate c e := by
  obtain ⟨s, body, hs, hbody, hleaves⟩ := hready.leaves
  obtain ⟨s', body', hse, hbodye, hleaves'⟩ := hreadye.leaves
  obtain ⟨rfl, rfl⟩ := hleaves.unique hleaves'
  cases hcode : d.program.generate s body d.lines (d.settled o) with
  | ok code =>
    have hkept : d.Kept { c with generated := some code.text } :=
      { hc with generated := fun _ => ⟨s, body, hleaves, _, code, hcode⟩ }
    refine .of_eq (generate_ok hc.toSameTask hs hbody hcode)
      (generate_ok he.toSameTask hse hbodye hcode) hkept
      (fun _ => trivial) (List.forall_mem_nil _) fun a ha => ?_
    cases a with
    | generated => rfl
    | symbols | arena | lowered => exact ha.resolve_left (by decide)
  | error fault =>
    refine .of_eq (generate_error hc.toSameTask hs hbody hcode)
      (generate_error he.toSameTask hse hbodye hcode) hc
      (fun _ => trivial) (by simp) fun a ha => ?_
    cases a with
    | generated =>
      exact (hc.generated_of_error hleaves hcode).trans (he.generated_of_error hleaves hcode).symm
    | symbols | arena | lowered => exact ha.resolve_left (by decide)

theorem step_runPass (hc : d.Kept c) (he : d.Kept e) (hready : d.Ready c pass)
    (hreadye : d.Ready e pass) (happlies : pass.dialect.applies d.program.component.isLeaf = true) :
    d.Step o pass c e := by
  have harrow (h : Dialect.applies .arrow d.program.component.isLeaf = true) :
      d.program.component.isLeaf = false := by simpa [Dialect.applies] using h
  cases pass with
  | resolve => exact step_resolve hc he
  | layOut => exact step_layOut hc he hready (harrow happlies)
  | infer => exact step_infer hc hready hreadye (harrow happlies)
  | analyze => exact step_analyze hc hready hreadye (harrow happlies)
  | lower => exact step_lower hc he hready hreadye happlies
  | generate => exact step_generate hc he hready hreadye

end Reachable

end Compilation

end PipelineLang
