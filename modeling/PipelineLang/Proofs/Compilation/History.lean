import PipelineLang.Proofs.Compilation.Steps

/-! One compilation may be run many times, up to different passes. Each run does what it would have
done had it been the first: it only reads what its own passes have left, whatever lies about from
earlier runs. -/

namespace PipelineLang

/-- The pass that a run tells about, with what it reports; skipped passes are passed over in
silence. -/
def PassOutcome.callback? : PassOutcome → Option (Pass × List Finding)
  | ran pass report => some (pass, report.findings)
  | skipped _ => none

def callbacks (outcomes : List PassOutcome) : List (Pass × List Finding) :=
  outcomes.filterMap PassOutcome.callback?

/-- These passes run in turn, up to the first that reports an error, which is the failure. -/
inductive CutAtError : List Pass → List (Pass × List Finding) → Option Pass → Prop where
  | done : CutAtError [] [] none
  | fails {pass : Pass} {passes : List Pass} {findings : List Finding} :
      findings.any Finding.isError = true →
      CutAtError (pass :: passes) [(pass, findings)] (some pass)
  | passes {pass : Pass} {passes : List Pass} {findings : List Finding}
      {told : List (Pass × List Finding)}
      {failure : Option Pass} : findings.any Finding.isError = false →
      CutAtError passes told failure →
      CutAtError (pass :: passes) ((pass, findings) :: told) failure

namespace Pass

/-- Behind `last`, the passes follow each other so that each that applies needs just the one before
it. -/
def linked (isLeaf : Bool) : Option Pass → List Pass → Bool
  | _, [] => true
  | last, pass :: passes =>
    if pass.dialect.applies isLeaf then
      (pass.inputs.filter fun q => q.dialect.applies isLeaf) == last.toList && linked isLeaf
        (some pass) passes
    else linked isLeaf last passes

theorem linked_required (isLeaf : Bool) (terminal : Pass) :
    linked isLeaf none terminal.required = true := by
  cases isLeaf <;> cases terminal <;> decide +kernel

end Pass

namespace Compilation

section Runs

variable {d c e : Compilation} {o : CodeOptions} {pass : Pass} {passes : List Pass}

theorem cutAtError_runPasses (o : CodeOptions) (c : Compilation) (passes : List Pass) :
    CutAtError (passes.filter fun p => p.dialect.applies c.program.component.isLeaf)
      (callbacks (c.runPasses o passes).2.1) (c.runPasses o passes).2.2 := by
  induction passes generalizing c with
  | nil => exact .done
  | cons pass passes ih =>
    cases happlies : pass.dialect.applies c.program.component.isLeaf with
    | false =>
      rw [List.filter_cons_of_neg (by simp [happlies]), runPasses_skip happlies]
      exact ih c
    | true =>
      rw [List.filter_cons_of_pos (by simp [happlies])]
      cases hfailed : (c.runPass o pass).2.findings.any Finding.isError with
      | true =>
        rw [runPasses_fail happlies hfailed]
        exact .fails hfailed
      | false =>
        have hrest := ih (noted (c.runPass o pass))
        have hprogram : (noted (c.runPass o pass)).program = c.program :=
          (frame_runPass o c pass).1.program
        rw [hprogram] at hrest
        rw [runPasses_next happlies hfailed]
        exact .passes hfailed hrest

def reported (outcomes : List PassOutcome) : List Finding := (callbacks outcomes).flatMap Prod.snd

theorem told_runPasses (o : CodeOptions) (c : Compilation) (passes : List Pass) :
    (c.runPasses o passes).1.findings = c.findings ++ reported (c.runPasses o passes).2.1 ∧
      (c.runPasses o passes).1.hasError =
        (c.hasError || (reported (c.runPasses o passes).2.1).any Finding.isError) := by
  induction passes generalizing c with
  | nil => exact ⟨(List.append_nil _).symm, (Bool.or_false _).symm⟩
  | cons pass passes ih =>
    cases happlies : pass.dialect.applies c.program.component.isLeaf with
    | false =>
      rw [runPasses_skip happlies]
      exact ih c
    | true =>
      obtain ⟨-, hfindings, herror⟩ := frame_runPass o c pass
      have hnoted : (noted (c.runPass o pass)).findings =
          c.findings ++ (c.runPass o pass).2.findings := by
        simp only [noted, hfindings]
      have hflag : (noted (c.runPass o pass)).hasError =
          (c.hasError || (c.runPass o pass).2.findings.any Finding.isError) := by
        simp only [noted, herror]
      cases hfailed : (c.runPass o pass).2.findings.any Finding.isError with
      | true =>
        rw [runPasses_fail happlies hfailed]
        simp [hnoted, hflag, hfailed, reported, callbacks, PassOutcome.callback?]
      | false =>
        obtain ⟨hrest, hrestflag⟩ := ih (noted (c.runPass o pass))
        rw [runPasses_next happlies hfailed]
        simp [hrest, hrestflag, hnoted, hflag, hfailed, reported, callbacks, PassOutcome.callback?]

theorem Kept.noted (h : d.Kept (c.runPass o pass).1) : d.Kept (noted (c.runPass o pass)) :=
  { h with program := h.program }

theorem left_noted {q : Pass} (h : d.Left (c.runPass o pass).1 q) :
    d.Left (Compilation.noted (c.runPass o pass)) q := by
  cases q <;> exact h

theorem same_noted {a : Artifact} (h : a.Same (c.runPass o pass).1 (e.runPass o pass).1) :
    a.Same (noted (c.runPass o pass)) (noted (e.runPass o pass)) := by
  cases a <;> exact h

/-- The same as for one pass, for passes in turn. -/
structure Alike (d : Compilation) (o : CodeOptions) (passes : List Pass) (c e : Compilation) :
    Prop where
  outcomes : (c.runPasses o passes).2 = (e.runPasses o passes).2
  kept : d.Kept (c.runPasses o passes).1
  hasInputs : ∀ f ∈ reported (c.runPasses o passes).2.1, ∀ name,
    f.problem ≠ .generation (.missingInputs name)
  same : ∀ a : Artifact, (∃ told ∈ callbacks (c.runPasses o passes).2.1, a ∈ told.1.outputs) ∨
    a.Same c e → a.Same (c.runPasses o passes).1 (e.runPasses o passes).1

theorem Alike.skip (h : d.Alike o passes c e)
    (hskip : pass.dialect.applies c.program.component.isLeaf = false)
    (hskipe : pass.dialect.applies e.program.component.isLeaf = false) :
    d.Alike o (pass :: passes) c e := by
  constructor
  · rw [runPasses_skip hskip, runPasses_skip hskipe, h.outcomes]
  · rw [runPasses_skip hskip]
    exact h.kept
  · rw [runPasses_skip hskip]
    exact h.hasInputs
  · rw [runPasses_skip hskip, runPasses_skip hskipe]
    exact h.same

theorem Step.alike (h : d.Step o pass c e)
    (hrun : pass.dialect.applies c.program.component.isLeaf = true)
    (hrune : pass.dialect.applies e.program.component.isLeaf = true)
    (hfailed : (c.runPass o pass).2.findings.any Finding.isError = true) :
    d.Alike o (pass :: passes) c e := by
  have hfailede := hfailed
  rw [h.report] at hfailede
  constructor
  · rw [runPasses_fail hrun hfailed, runPasses_fail hrune hfailede, h.report]
  · rw [runPasses_fail hrun hfailed]
    exact h.kept.noted
  · rw [runPasses_fail hrun hfailed]
    simpa [reported, callbacks, PassOutcome.callback?] using h.hasInputs
  · rw [runPasses_fail hrun hfailed, runPasses_fail hrune hfailede]
    refine fun a ha => same_noted (h.same a ?_)
    simpa [callbacks, PassOutcome.callback?] using ha

theorem Alike.next (h : d.Alike o passes (noted (c.runPass o pass)) (noted (e.runPass o pass)))
    (hstep : d.Step o pass c e) (hrun : pass.dialect.applies c.program.component.isLeaf = true)
    (hrune : pass.dialect.applies e.program.component.isLeaf = true)
    (hfailed : (c.runPass o pass).2.findings.any Finding.isError = false) :
    d.Alike o (pass :: passes) c e := by
  have hfailede := hfailed
  rw [hstep.report] at hfailede
  constructor
  · rw [runPasses_next hrun hfailed, runPasses_next hrune hfailede, hstep.report, h.outcomes]
  · rw [runPasses_next hrun hfailed]
    exact h.kept
  · have hall : reported (c.runPasses o (pass :: passes)).2.1 = (c.runPass o pass).2.findings ++
        reported ((noted (c.runPass o pass)).runPasses o passes).2.1 := by
      rw [runPasses_next hrun hfailed]
      rfl
    rw [hall]
    exact List.forall_mem_append.mpr ⟨hstep.hasInputs, h.hasInputs⟩
  · rw [runPasses_next hrun hfailed, runPasses_next hrune hfailede]
    intro a ha
    apply h.same a
    rcases ha with ⟨told, htold, ha⟩ | ha
    · rcases List.mem_cons.mp htold with rfl | htold
      · exact .inr (same_noted (hstep.same a (.inl ha)))
      · exact .inl ⟨told, htold, ha⟩
    · exact .inr (same_noted (hstep.same a (.inr ha)))

/-- Passes that follow each other do the same in all states that runs may lead to. -/
theorem alike_of_linked {last : Option Pass}
    (hlinked : Pass.linked d.program.component.isLeaf last passes = true) (hc : d.Kept c)
    (he : d.Kept e) (hleft : ∀ q ∈ last, d.Left c q) (hlefte : ∀ q ∈ last, d.Left e q) :
    d.Alike o passes c e := by
  induction passes generalizing c e last with
  | nil =>
    exact ⟨rfl, hc, List.forall_mem_nil _,
      fun a ha => ha.resolve_left (by simp [runPasses, callbacks])⟩
  | cons pass passes ih =>
    have happliesc : pass.dialect.applies c.program.component.isLeaf =
        pass.dialect.applies d.program.component.isLeaf := by rw [hc.program]
    have happliese : pass.dialect.applies e.program.component.isLeaf =
        pass.dialect.applies d.program.component.isLeaf := by rw [he.program]
    rw [Pass.linked] at hlinked
    cases happlies : pass.dialect.applies d.program.component.isLeaf with
    | false =>
      rw [happlies] at hlinked happliesc happliese
      exact (ih hlinked hc he hleft hlefte).skip happliesc happliese
    | true =>
      rw [happlies] at happliesc happliese
      rw [happlies, if_pos rfl, Bool.and_eq_true, beq_iff_eq] at hlinked
      have hready := ready_of_left hlinked.1 hleft
      have hreadye := ready_of_left hlinked.1 hlefte
      have hstep : d.Step o pass c e := step_runPass hc he hready hreadye happlies
      have hstepe : d.Step o pass e c := step_runPass he hc hreadye hready happlies
      cases hfailed : (c.runPass o pass).2.findings.any Finding.isError with
      | true => exact hstep.alike happliesc happliese hfailed
      | false =>
        have hleft' : ∀ q ∈ some pass, d.Left (noted (c.runPass o pass)) q := by
          rintro _ ⟨⟩
          exact left_noted (hstep.left hfailed)
        have hlefte' : ∀ q ∈ some pass, d.Left (noted (e.runPass o pass)) q := by
          rintro _ ⟨⟩
          exact left_noted (hstepe.left (hstepe.report ▸ hfailed))
        exact (ih hlinked.2 hstep.kept.noted hstepe.kept.noted hleft' hlefte').next hstep happliesc
          happliese hfailed

theorem alike_run (hc : d.Kept c) (he : d.Kept e) (o : CodeOptions) (terminal : Pass) :
    d.Alike o terminal.required c e :=
  alike_of_linked (Pass.linked_required _ terminal) hc he (by simp) (by simp)

theorem kept_start (program : Program) (registry : Registry) (files : FileTree)
    (file source : String) (provenance : Option Provenance) :
    (start program registry files file source provenance).Kept
      (start program registry files file source provenance) where
  toSameTask := ⟨rfl, rfl, rfl, rfl, rfl, rfl⟩
  arena _ := rfl
  lowered _ h := by cases h
  generated h := absurd rfl h

end Runs

end Compilation

end PipelineLang
