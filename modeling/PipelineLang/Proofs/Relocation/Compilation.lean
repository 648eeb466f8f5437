import PipelineLang.Proofs.Compilation.Acceptance
import PipelineLang.Proofs.Relocation.Code
import PipelineLang.Proofs.Relocation.Lowering

/-! Compiling a program at other places, or against another registry that gives the same imports:
the same problems are found, and the code is the same but for its header. -/

namespace PipelineLang

namespace Program

variable {φ : Relocation} {p : Program} {r : Resolution} {s : Symbols} {body : Body}

theorem Leaves.relocate (log : List LogEvent) (h : p.Leaves r s body) :
    (p.relocate φ).Leaves (r.relocate φ log) (s.relocate φ) (body.relocate φ) := by
  cases h with
  | @leaf body leaf hdef hlower =>
    have hdef' : (p.relocate φ).component.definition = .leaf (body.relocate φ) :=
      congrArg (Definition.relocate φ) hdef
    refine .leaf hdef' ?_
    have htables : (r.relocate φ log).symbols.tables = r.symbols.tables.relocate φ := rfl
    rw [htables, DoBlock.lower_relocate, hlower]
    rfl
  | @arrow e hdef =>
    have hdef' : (p.relocate φ).component.definition = .arrow (e.relocate φ) :=
      congrArg (Definition.relocate φ) hdef
    have h := Leaves.arrow (r := r.relocate φ log) hdef'
    obtain ⟨harena, hsymbols, -⟩ :=
      Arena.analyze_relocate (φ := φ) ((Arena.ofArrow e).infer r.symbols).1 r.symbols
    rw [Arena.ofArrow_relocate, Resolution.symbols_relocate, Arena.infer_relocate, harena, hsymbols]
      at h
    exact h

theorem problems_relocate (findings : List Finding) :
    (findings.map (Finding.relocate φ)).map Finding.problem = findings.map Finding.problem := by
  rw [List.map_map]
  rfl

theorem problems_reports_relocate (p : Program) (r : Resolution) (log : List LogEvent) :
    List.Forall₂ (fun report report' => report'.map Finding.problem = report.map Finding.problem)
      (p.reports r) ((p.relocate φ).reports (r.relocate φ log)) := by
  have hfindings : (r.relocate φ log).findings = r.findings.map (Finding.relocate φ) := rfl
  have hdefinition : (p.relocate φ).component.definition = p.component.definition.relocate φ := rfl
  rw [reports, reports, hdefinition, hfindings]
  cases hdef : p.component.definition with
  | leaf body => exact .cons (problems_relocate _) .nil
  | arrow e =>
    obtain ⟨-, -, hanalyzed⟩ :=
      Arena.analyze_relocate (φ := φ) ((Arena.ofArrow e).infer r.symbols).1 r.symbols
    simp only [Definition.relocate, Arena.ofArrow_relocate, Resolution.symbols_relocate,
      Arena.infer_relocate]
    exact .cons (problems_relocate _) (.cons (problems_relocate _) (.cons hanalyzed .nil))

end Program

/-- Where the code of a source text says that it comes from. -/
def CodeOptions.origin (o : CodeOptions) (source : String) (registry : Registry) : Provenance :=
  o.provenance.getD (.ofSource source registry)

theorem CodeOptions.source_origin (o : CodeOptions) (source : String) (registry : Registry) :
    (o.origin source registry).source =
      (o.provenance.map Provenance.source).getD (Sha256.ofText source) := by
  unfold origin
  cases o.provenance <;> rfl

theorem CodeOptions.interfaces_origin (o : CodeOptions) (source : String) (registry : Registry) :
    (o.origin source registry).interfaces =
      (o.provenance.map Provenance.interfaces).getD (Sha256.ofText registry.canonicalText) := by
  unfold origin
  cases o.provenance <;> rfl

def CodeOptions.header (o : CodeOptions) (source : String) (registry : Registry) : List String :=
  Target.headerLines { o with provenance := o.provenance.or (some (.ofSource source registry)) }

theorem CodeOptions.exists_header (o : CodeOptions) :
    ∃ top, ∀ source registry, o.header source registry =
      top ++ ["# source sha256 " ++ (o.origin source registry).source.hex,
        "# signatures sha256 " ++ (o.origin source registry).interfaces.hex, "#"] := by
  obtain ⟨_, generatedAt, provenance⟩ := o
  let top (version : String) : List String :=
    ["#", "# DO NOT EDIT THIS FILE!", "#", "# This file was automatically generated by PCLc on",
      "# " ++ generatedAt ++ ".", "#", "# pclc " ++ version]
  cases provenance with
  | none => exact ⟨top compilerVersion, fun _ _ => rfl⟩
  | some q => exact ⟨top q.version, fun _ _ => rfl⟩

section Relocated

variable {φ : Relocation} {source source' : String} {p : Program} {registry registry' : Registry}
  {files files' : FileTree}
  (hp : (Parsed.ofSource source).program = some p) (hnil : (Parsed.ofSource source).findings = [])
  (hp' : (Parsed.ofSource source').program = some (p.relocate φ))
    (hnil' : (Parsed.ofSource source').findings = [])
  (himports : ∀ i ∈ p.imports, Resolution.imported registry' files' p.component.isLeaf i.path.name =
    Resolution.imported registry files p.component.isLeaf i.path.name)
include hp hnil hp' hnil' himports

theorem problems_compile_relocate (file : String) (o : CodeOptions) :
    (compile source' file registry' files' o).findings.map Finding.problem =
      (compile source file registry files o).findings.map Finding.problem := by
  obtain ⟨log, hresolve⟩ := Program.exists_resolve_relocate φ file himports
  rw [compile_findings hp hnil, compile_findings hp' hnil', hresolve]
  exact problems_untilError (p.problems_reports_relocate _ log)

theorem isSome_code_relocate (file : String) (o : CodeOptions) :
    (compile source' file registry' files' o).code.isSome =
      (compile source file registry files o).code.isSome := by
  rw [Bool.eq_iff_iff, (compile_told source' file registry' files' o).1,
    (compile_told source file registry files o).1, problems_any_isError, problems_any_isError,
    problems_compile_relocate hp hnil hp' hnil' himports file o]

theorem exists_code_relocate {file : String} {o : CodeOptions} {text : String}
    (hlines : o.instrument = true →
      ∀ n, (LineIndex.ofText source').lineOf (φ.start n) = (LineIndex.ofText source).lineOf n)
    (h : (compile source file registry files o).code = some text) :
    ∃ rest, text = unlines (o.header source registry ++ rest) ∧
      (compile source' file registry' files' o).code =
        some (unlines (o.header source' registry' ++ rest)) := by
  have hsome := isSome_code_relocate hp hnil hp' hnil' himports file o
  rw [h] at hsome
  obtain ⟨text', h'⟩ := Option.isSome_iff_exists.mp hsome
  obtain ⟨p₁, s, body, code, hp₁, -, -, hleaves, hcode, rfl⟩ := exists_of_code h
  obtain ⟨p₂, s', body', code', hp₂, -, -, hleaves', hcode', rfl⟩ := exists_of_code h'
  cases hp.symm.trans hp₁
  cases hp'.symm.trans hp₂
  obtain ⟨log, hresolve⟩ := Program.exists_resolve_relocate φ file himports
  rw [hresolve] at hleaves'
  obtain ⟨rfl, rfl⟩ := (hleaves.relocate log).unique hleaves'
  obtain ⟨rest, htext, hgenerate⟩ := Program.generate_relocate hcode hlines
  cases hcode'.symm.trans (hgenerate _ rfl)
  exact ⟨rest, htext, h'⟩

theorem compile_relocate (file : String) {o : CodeOptions} (hlines : o.instrument = true → ∀ n,
      (LineIndex.ofText source').lineOf (φ.start n) = (LineIndex.ofText source).lineOf n) :
    (compile source' file registry' files' o).findings.map Finding.problem =
        (compile source file registry files o).findings.map Finding.problem
      ∧ ((compile source file registry files o).code = none ∧
        (compile source' file registry' files' o).code = none
        ∨ ∃ rest, (compile source file registry files o).code =
          some (unlines (o.header source registry ++ rest))
          ∧ (compile source' file registry' files' o).code =
            some (unlines (o.header source' registry' ++ rest))) := by
  refine ⟨problems_compile_relocate hp hnil hp' hnil' himports file o, ?_⟩
  cases hcode : (compile source file registry files o).code with
  | none =>
    have hsome := isSome_code_relocate hp hnil hp' hnil' himports file o
    rw [hcode, Option.isSome_none, Option.isSome_eq_false_iff, Option.isNone_iff_eq_none] at hsome
    exact .inl ⟨rfl, hsome⟩
  | some text =>
    obtain ⟨rest, rfl, hcode'⟩ := exists_code_relocate hp hnil hp' hnil' himports hlines hcode
    exact .inr ⟨rest, rfl, hcode'⟩

end Relocated

end PipelineLang
