import PipelineLang.Proofs.Arrow.Exactness
import PipelineLang.Proofs.Compilation.Outcome
import PipelineLang.Proofs.Grammar.Source
import PipelineLang.Proofs.Leaf.Lowering
import PipelineLang.Proofs.Symbols.Findings
import PipelineLang.Proofs.Symbols.Leaf
import PipelineLang.Proofs.Target.Module

/-! A source text is compiled to code just when no error is found in it: once the passes that check
a program are content, those that write code for it cannot fail. -/

namespace PipelineLang

variable {source : String} {p : Program}

namespace Arena

theorem ofProgram_inferNode (s : Symbols) (a : Arena) (i : Nat) :
    ∀ f ∈ (a.inferNode s i).2, f.problem.ofProgram = true := by
  unfold inferNode
  split
  · exact List.forall_mem_nil _
  · split
    · exact List.forall_mem_nil _
    · split
      · exact List.forall_mem_nil _
      · intro f hf
        obtain ⟨⟨side, ids⟩, -, hf⟩ := List.mem_flatMap.mp hf
        obtain ⟨id, -, rfl⟩ := List.mem_map.mp hf
        rfl

theorem ofProgram_infer (s : Symbols) (a : Arena) :
    ∀ f ∈ (a.infer s).2, f.problem.ofProgram = true := by
  rw [infer_eq_sweep]
  generalize List.range' 0 a.size = places
  induction places generalizing a with
  | nil => exact List.forall_mem_nil _
  | cons i places ih => exact List.forall_mem_append.mpr ⟨ofProgram_inferNode s a i, ih _⟩

end Arena

theorem Program.ofProgram_reports (p : Program) (file : String) (registry : Registry)
    (files : FileTree) :
    ∀ report ∈ p.reports (p.resolve file registry files), ∀ f ∈ report,
    f.problem.ofProgram = true := by
  have hresolve := (p.ofProgram_resolve file registry files).findings
  rw [Program.reports]
  cases p.component.definition with
  | leaf body => exact List.forall_mem_singleton.mpr hresolve
  | arrow e =>
    exact List.forall_mem_cons.mpr ⟨hresolve, List.forall_mem_cons.mpr ⟨Arena.ofProgram_infer _ _,
      List.forall_mem_singleton.mpr fun f hf => (Arena.wrong_of_mem_analyze hf).ofProgram⟩⟩

theorem problems_any_isError (findings : List Finding) :
    findings.any Finding.isError = (findings.map Finding.problem).any Problem.isError := by
  rw [List.any_map]
  rfl

/-- Where a run stops depends on the problems only, not on their places. -/
theorem problems_untilError {reports reports' : List (List Finding)}
    (h : List.Forall₂ (fun report report' => report'.map Finding.problem =
      report.map Finding.problem)
      reports reports') :
    (untilError reports').map Finding.problem = (untilError reports).map Finding.problem := by
  induction h with
  | nil => rfl
  | cons hhead _ ih =>
    simp only [untilError, problems_any_isError, hhead]
    split
    · exact hhead
    · rw [List.map_append, List.map_append, hhead, ih]

theorem forall_mem_untilError {P : Finding → Prop} {reports : List (List Finding)}
    (h : ∀ report ∈ reports, ∀ f ∈ report, P f) : ∀ f ∈ untilError reports, P f := by
  induction reports with
  | nil => exact List.forall_mem_nil _
  | cons report reports ih =>
    obtain ⟨hreport, hreports⟩ := List.forall_mem_cons.mp h
    rw [untilError]
    split
    · exact hreport
    · exact List.forall_mem_append.mpr ⟨hreport, ih hreports⟩

theorem isError_of_untilError {reports : List (List Finding)}
    (h : (untilError reports).any Finding.isError = false) :
    ∀ report ∈ reports, ∀ f ∈ report, f.isError = false := by
  induction reports with
  | nil => exact List.forall_mem_nil _
  | cons report reports ih =>
    rw [untilError] at h
    split at h
    · rename_i herror
      exact absurd (herror.symm.trans h) (by decide)
    · rw [List.any_append, Bool.or_eq_false_iff] at h
      exact List.forall_mem_cons.mpr ⟨by simpa using h.1, ih h.2⟩

namespace Compilation

theorem required_generate : Pass.required .generate = Pass.all := by decide +kernel

/-- Where the names of a whole program are resolved, what is left of it can be written. -/
theorem writable_of_intact {d : Compilation} (hintact : d.program.component.definition.Intact)
    (o : CodeOptions) :
    d.Writable o := by
  intro hclean
  cases hdef : d.program.component.definition with
  | leaf body =>
    rw [hdef] at hintact
    obtain ⟨leaf, hleaf, -⟩ :=
      (Program.bodyAgrees_of_clean hdef hintact.1 hintact.2 hclean).exists_lower
    obtain ⟨code, hcode⟩ := Program.exists_generate_leaf leaf d.lines (d.settled o) hdef
    exact ⟨_, _, code, .leaf hdef hleaf, hcode⟩
  | arrow e =>
    rw [hdef] at hintact
    obtain ⟨code, hcode⟩ := Program.exists_generate_arrow d.lines (d.settled o) hdef
      (Program.traced_resolve_arrow hdef hclean) hintact
      (fun id hid => Program.isSome_declaration?_of_components hdef hclean hid)
        (Arena.shape_nodes_typed _ e)
    exact ⟨_, _, code, .arrow hdef, hcode⟩

end Compilation

theorem compile_of_findings (h : (Parsed.ofSource source).findings ≠ []) (file : String)
    (registry : Registry) (files : FileTree) (o : CodeOptions) :
    compile source file registry files o = ⟨(Parsed.ofSource source).findings, none⟩ := by
  obtain ⟨f, hf⟩ := List.exists_mem_of_ne_nil _ h
  have herror : (Parsed.ofSource source).findings.any Finding.isError = true :=
    List.any_eq_true.mpr ⟨f, hf, (Parsed.wrong_of_mem_ofSource hf).isError⟩
  simp only [compile, herror, if_true]
  split <;> rfl

theorem Parsed.exists_program (hnil : (Parsed.ofSource source).findings = []) :
    ∃ p, (Parsed.ofSource source).program = some p :=
  Option.ne_none_iff_exists'.mp fun hnone => Parsed.findings_ne_nil_of_none hnone hnil

theorem exists_ended (hp : (Parsed.ofSource source).program = some p)
    (hnil : (Parsed.ofSource source).findings = []) (file : String) (registry : Registry)
    (files : FileTree) (o : CodeOptions) :
    let begun := Compilation.start p registry files file source (some (.ofSource source registry))
    ∃ c, compile source file registry files o =
    ⟨c.findings, if c.hasError then none else c.generated⟩ ∧
      begun.Ended o [] (p.reports (p.resolve file registry files)) c := by
  intro begun
  refine ⟨_, ?_, Compilation.ended_all (d := begun)
    (Compilation.writable_of_intact (Parsed.intact_of_clean hp hnil) o)⟩
  simp only [compile, hp, hnil, List.any_nil, Bool.false_eq_true, if_false, Compilation.run,
    Compilation.required_generate]
  rfl

theorem compile_findings (hp : (Parsed.ofSource source).program = some p)
    (hnil : (Parsed.ofSource source).findings = []) (file : String) (registry : Registry)
    (files : FileTree) (o : CodeOptions) :
    (compile source file registry files o).findings =
      untilError (p.reports (p.resolve file registry files)) := by
  obtain ⟨c, hcompile, hended⟩ := exists_ended hp hnil file registry files o
  rw [hcompile]
  exact hended.findings

theorem compile_told (source file : String) (registry : Registry) (files : FileTree)
    (o : CodeOptions) :
    ((compile source file registry files o).code.isSome = true ↔
      (compile source file registry files o).findings.any Finding.isError = false) ∧
    ∀ f ∈ (compile source file registry files o).findings, f.problem.ofProgram = true := by
  by_cases hnil : (Parsed.ofSource source).findings = []
  · obtain ⟨p, hp⟩ := Parsed.exists_program hnil
    obtain ⟨c, hcompile, hended⟩ := exists_ended hp hnil file registry files o
    have hfindings : c.findings = untilError (p.reports (p.resolve file registry files)) :=
      hended.findings
    rw [hcompile]
    refine ⟨?_, ?_⟩
    · simp only [hfindings, ← hended.hasError]
      cases herror : c.hasError with
      | true => simp
      | false =>
        obtain ⟨-, s, body, code, -, -, hcode⟩ := hended.emitted herror
        simp [hcode]
    · simp only [hfindings]
      exact forall_mem_untilError (p.ofProgram_reports file registry files)
  · rw [compile_of_findings hnil]
    obtain ⟨f, hf⟩ := List.exists_mem_of_ne_nil _ hnil
    refine ⟨?_, fun f hf => (Parsed.wrong_of_mem_ofSource hf).ofProgram⟩
    simpa using ⟨f, hf, (Parsed.wrong_of_mem_ofSource hf).isError⟩

theorem isError_of_reports {file : String} {registry : Registry} {files : FileTree}
    {o : CodeOptions} (hp : (Parsed.ofSource source).program = some p)
    (hnil : (Parsed.ofSource source).findings = [])
    (hcode : (compile source file registry files o).code.isSome = true) :
    ∀ report ∈ p.reports (p.resolve file registry files), ∀ f ∈ report, f.isError = false := by
  have hfound := (compile_told source file registry files o).1.mp hcode
  rw [compile_findings hp hnil] at hfound
  exact isError_of_untilError hfound

/-- All that is known where there is code: the text was read whole, its names were resolved, and the
code was written from what the passes have made of it. -/
theorem exists_of_code {file text : String} {registry : Registry} {files : FileTree}
    {o : CodeOptions} (h : (compile source file registry files o).code = some text) :
    ∃ p s body code, (Parsed.ofSource source).program = some p ∧ (Parsed.ofSource source).findings =
      [] ∧ (p.resolve file registry files).Clean ∧ p.Leaves (p.resolve file registry files) s body ∧
      p.generate s body (.ofText source)
        { o with provenance := o.provenance.or (some (.ofSource source registry)) } = .ok code ∧
      code.text = text := by
  have hnil : (Parsed.ofSource source).findings = [] := by
    by_contra hfound
    rw [compile_of_findings hfound] at h
    cases h
  obtain ⟨p, hp⟩ := Parsed.exists_program hnil
  obtain ⟨c, hcompile, hended⟩ := exists_ended hp hnil file registry files o
  rw [hcompile] at h
  cases herror : c.hasError with
  | true => simp [herror] at h
  | false =>
    obtain ⟨hclean, s, body, code, hleaves, hcode, hgenerated⟩ := hended.emitted herror
    have htext : c.generated = some text := by simpa [herror] using h
    exact ⟨p, s, body, code, hp, hnil, hclean, hleaves, hcode,
      Option.some.inj (hgenerated.symm.trans htext)⟩

/-- There is code just if there is no error, and no error lies in the writing of the code. -/
theorem compile_complete (source file : String) (registry : Registry) (files : FileTree)
    (o : CodeOptions) :
    let result := compile source file registry files o
    let diagnostics := result.findings.map Diagnostic.ofFinding
    (result.code.isSome = true ↔ Diagnostic.hasErrors diagnostics = false) ∧
      ∀ d ∈ diagnostics, d.code ≠ some "E0400" := by
  intro result diagnostics
  obtain ⟨hcode, hprogram⟩ := compile_told source file registry files o
  refine ⟨?_, List.forall_mem_map.mpr fun f hf => ?_⟩
  · rw [Diagnostic.hasErrors_map_ofFinding]
    exact hcode
  · exact fun h => Problem.code_ne_of_ofProgram (hprogram f hf) (Option.some.inj h)

end PipelineLang
