import PipelineLang.Proofs.Compilation.History
import PipelineLang.Proofs.Files.Tree
import PipelineLang.Proofs.Symbols.Header
import PipelineLang.Tool.Run

/-! What a run of the compiler leaves in the files around it: the code of a component that has no
errors, in a package, or nothing at all. -/

namespace PipelineLang

namespace Path

theorem subset_cutName (name : String) : (cutName name).1.toList ⊆ name.toList := by
  unfold cutName
  dsimp only
  split
  · exact List.Subset.refl _
  · rw [String.toList_ofList]
    intro c hc
    rw [List.mem_reverse] at hc
    exact List.mem_reverse.mp (List.mem_of_mem_drop hc)

theorem noSlash_lastName {path before name : String} (h : lastName? path = some (before, name)) :
    '/' ∉ name.toList := by
  unfold lastName? at h
  dsimp only at h
  split at h
  · cases h
  · rw [Option.some.injEq, Prod.mk.injEq] at h
    rw [← h.2, String.toList_ofList, List.mem_reverse]
    intro hmem
    have hkept := List.all_eq_true.mp (List.all_takeWhile) _ hmem
    simp at hkept

theorem noSlash_stem (path : String) : '/' ∉ (stem path).toList := by
  unfold stem
  split
  · rename_i before name hlast
    exact fun hmem => noSlash_lastName hlast (subset_cutName name hmem)
  · simp

end Path

def codePath (dir component : String) : String := Path.join dir (component ++ ".py")

def markerPath (dir : String) : String := Path.join dir "__init__.py"

/-- The code of a component has been written into a directory. The directory is a package then, and
nothing else has changed in the files. -/
structure Delivered (before after : FileTree) (dir component code : String) : Prop where
  code : after.at? (codePath dir component) = some (.file code.toUTF8)
  marker : component ≠ "__init__" →
    after.at? (markerPath dir) = some ((before.at? (markerPath dir)).getD (.file .empty))
  others : ∀ path, ¬ before.SamePlace path (codePath dir component) →
    (before.at? (markerPath dir) = none → ¬ before.SamePlace path (markerPath dir)) →
    after.at? path = before.at? path

section Writing

open FileTree

variable {files after : FileTree} {dir component code : String}

theorem entryName_code (h : '/' ∉ component.toList) : EntryName (component ++ ".py") := by
  have hlength : (component ++ ".py").length = component.length + 3 := String.length_append _ _
  constructor
  · intro heq
    simp [heq] at hlength
  · intro heq
    rw [heq] at hlength
    have hone : ".".length = 1 := rfl
    omega
  · intro heq
    rw [heq] at hlength
    have htwo : "..".length = 2 := rfl
    omega
  · rw [String.toList_append, List.mem_append, not_or]
    exact ⟨h, by decide⟩

theorem entryName_marker : EntryName "__init__.py" := by
  constructor <;> decide

theorem not_samePlace_of_ne (hslash : '/' ∉ component.toList) (hne : component ≠ "__init__") :
    ¬ files.SamePlace (markerPath dir) (codePath dir component) := by
  intro hsame
  obtain ⟨names, hmarker, hcode⟩ := hsame
  obtain ⟨inside, hends, -⟩ := exists_of_names_join entryName_marker hmarker
  obtain ⟨inside', hends', -⟩ := exists_of_names_join (entryName_code hslash) hcode
  rw [hends] at hends'
  have hlast : "__init__.py" = component ++ ".py" := by
    simpa using (List.append_inj_right' hends' rfl)
  apply hne
  have hsplit : "__init__" ++ ".py" = component ++ ".py" := hlast
  exact (String.append_left_inj ".py").mp hsplit.symm

theorem writeCode_cases (files : FileTree) (dir component code : String) :
    (∃ e, writeCode files dir component code = (files, some e)) ∨
    ∃ middle, files.write (codePath dir component) code.toUTF8 = .ok middle ∧
      ((middle.at? (markerPath dir) ≠ none ∧ writeCode files dir component code = (middle, none)) ∨
      middle.at? (markerPath dir) = none ∧
        ((∃ e, middle.write (markerPath dir) .empty = .error e ∧
          writeCode files dir component code = (middle, some e)) ∨
        ∃ after, middle.write (markerPath dir) .empty = .ok after ∧
          writeCode files dir component code = (after, none))) := by
  unfold writeCode tryWrite codePath markerPath
  cases hcode : files.write (Path.join dir (component ++ ".py")) code.toUTF8 with
  | error e => exact Or.inl ⟨e, rfl⟩
  | ok middle =>
    refine Or.inr ⟨middle, rfl, ?_⟩
    dsimp only
    cases hmarker : middle.at? (Path.join dir "__init__.py") with
    | some entry =>
      have hentry : middle.hasEntry (Path.join dir "__init__.py") = true := by
        change (middle.at? _).isSome = true
        rw [hmarker]
        rfl
      rw [hentry]
      exact Or.inl ⟨by simp, rfl⟩
    | none =>
      have hentry : middle.hasEntry (Path.join dir "__init__.py") = false := by
        change (middle.at? _).isSome = false
        rw [hmarker]
        rfl
      rw [hentry]
      refine Or.inr ⟨rfl, ?_⟩
      cases middle.write (Path.join dir "__init__.py") .empty with
      | error e => exact Or.inl ⟨e, rfl, rfl⟩
      | ok after => exact Or.inr ⟨after, rfl, rfl⟩

theorem exists_write_marker {middle : FileTree} (hslash : '/' ∉ component.toList)
    (hfits : (markerPath dir).utf8ByteSize ≤ pathLimit)
    (hcode : files.write (codePath dir component) code.toUTF8 = .ok middle)
    (hnone : middle.at? (markerPath dir) = none) :
    ∃ after, middle.write (markerPath dir) .empty = .ok after := by
  have hnames := names_write_iff hcode (markerPath dir)
  obtain ⟨place, hplace, hopen, rfl⟩ := exists_of_write hcode
  obtain ⟨inside, -, hdir, hother⟩ := exists_of_names_join (entryName_code hslash) hplace
  have hmarker := (hnames _).mpr
    (hother "__init__.py" entryName_marker (by decide) (by decide) hfits)
  have hplain : Plain inside := fun name hname =>
    plain_of_names hmarker name (List.mem_append_left _ hname)
  apply exists_write hmarker
  · rw [← at?_of_names hmarker]
    exact hnone
  · rw [List.dropLast_concat, hopen.directory_put_iff hplain]
    exact hdir

theorem files_of_writeCode_fails (hslash : '/' ∉ component.toList)
    (hfits : (markerPath dir).utf8ByteSize ≤ pathLimit) {e : FileError}
    (h : writeCode files dir component code = (after, some e)) : after = files := by
  rcases writeCode_cases files dir component code with ⟨e', hwrite⟩ | ⟨middle, hcode, hrest⟩
  · rw [hwrite] at h
    exact (congrArg Prod.fst h).symm
  · rcases hrest with ⟨-, hwrite⟩ | ⟨hnone, ⟨e', hmarker, -⟩ | ⟨after', -, hwrite⟩⟩
    · rw [hwrite] at h
      cases h
    · obtain ⟨after', hafter⟩ := exists_write_marker hslash hfits hcode hnone
      rw [hafter] at hmarker
      cases hmarker
    · rw [hwrite] at h
      cases h

theorem delivered_of_writeCode (hslash : '/' ∉ component.toList)
    (h : writeCode files dir component code = (after, none)) :
    Delivered files after dir component code := by
  rcases writeCode_cases files dir component code with ⟨e, hwrite⟩ | ⟨middle, hcode, hrest⟩
  · rw [hwrite] at h
    cases h
  · obtain ⟨place, hplace, -⟩ := exists_of_write hcode
    have hwritten : middle.at? (codePath dir component) = some (.file code.toUTF8) :=
      at?_write hcode ⟨place, hplace, hplace⟩
    rcases hrest with ⟨hthere, hwrite⟩ | ⟨hnone, ⟨e, -, hwrite⟩ | ⟨after', hmarker, hwrite⟩⟩
    · rw [hwrite] at h
      cases h
      refine ⟨hwritten, fun hne => ?_, fun path hpath _ => at?_write_of_not_same hcode hpath⟩
      rw [← at?_write_of_not_same hcode (not_samePlace_of_ne hslash hne)]
      obtain ⟨entry, hentry⟩ := Option.ne_none_iff_exists'.mp hthere
      rw [hentry]
      rfl
    · rw [hwrite] at h
      cases h
    · rw [hwrite] at h
      cases h
      -- the marker was missing, so it is not the code, and was missing all along
      have hapart : ¬ files.SamePlace (markerPath dir) (codePath dir component) := by
        intro hsame
        rw [at?_write hcode hsame] at hnone
        cases hnone
      have hbefore : files.at? (markerPath dir) = none := by
        rw [← at?_write_of_not_same hcode hapart]
        exact hnone
      have hother : ∀ path, ¬ files.SamePlace path (markerPath dir) →
          after.at? path = middle.at? path := by
        intro path hpath
        apply at?_write_of_not_same hmarker
        rintro ⟨names, hnames, hnames'⟩
        exact hpath ⟨names, (names_write_iff hcode _ _).mp hnames,
          (names_write_iff hcode _ _).mp hnames'⟩
      obtain ⟨place', hplace', -⟩ := exists_of_write hmarker
      constructor
      · rw [hother _ fun hsame => hapart hsame.symm]
        exact hwritten
      · intro _
        rw [at?_write hmarker ⟨place', hplace', hplace'⟩, hbefore]
        rfl
      · intro path hpath hpath'
        rw [hother path (hpath' hbefore), at?_write_of_not_same hcode hpath]

end Writing

namespace Compilation

theorem not_isError_of_cut {passes : List Pass} {told : List (Pass × List Finding)}
    {failure : Option Pass} (h : CutAtError passes told failure) (hnone : failure = none) :
    (told.flatMap Prod.snd).any Finding.isError = false := by
  induction h with
  | done => rfl
  | fails _ => cases hnone
  | passes hfindings _ ih =>
    rw [List.flatMap_cons, List.any_append, hfindings, ih hnone]
    rfl

theorem run_of_not_failed {d : Compilation} (hd : d.Kept d) (hclean : d.hasError = false)
    {o : CodeOptions} {terminal : Pass} (h : (d.run o terminal).2.2 = none) :
    d.Kept (d.run o terminal).1 ∧ (d.run o terminal).1.hasError = false := by
  refine ⟨(alike_run hd hd o terminal).kept, ?_⟩
  have hcut := cutAtError_runPasses o d terminal.required
  have hreported := not_isError_of_cut hcut h
  rw [run, (told_runPasses o d terminal.required).2, hclean, reported, hreported]
  rfl

end Compilation

/-- The program was read, together with the manifests, and nothing is wrong with its text. -/
structure Job.Ready (o : Options) (around : Surroundings) (job : Job) : Prop where
  registry :
    (loadManifests around.files (.withSearchPaths (searchPaths around.importPath)) o.manifests).2 =
    some job.registry
  source : around.files.readText o.file = .ok job.source
  program : (Parsed.ofSource job.source).program = some job.program
  clean : (Parsed.ofSource job.source).findings.any Finding.isError = false

theorem Job.ready_of_read {o : Options} {around : Surroundings} {job : Job}
    (h : Job.read o around = .ok job) :
    job.Ready o around := by
  unfold Job.read at h
  dsimp only at h
  split at h
  · cases h
  · rename_i notes registry hload
    split at h
    · cases h
    · rename_i source hsource
      split at h
      · cases h
      · rename_i program hprogram
        split at h
        · cases h
        · rename_i hclean
          cases h
          exact ⟨congrArg Prod.snd hload, hsource, hprogram, by simpa using hclean⟩

def Options.codeOptions (o : Options) (around : Surroundings) : CodeOptions :=
  ⟨o.instrument, around.now, none⟩

def Job.compilation (job : Job) (o : Options) (around : Surroundings) :
    Compilation × List PassOutcome × Option Pass :=
  (job.start o around).run (o.codeOptions around) o.terminal

section Deliver

variable {c : Compilation} {o : Options} (notes : List Note)

theorem Compilation.files_deliver (h : o.stage ≠ .python) :
    (c.deliver o notes).files = c.files := by
  unfold Compilation.deliver
  cases hstage : o.stage with
  | python => exact absurd hstage h
  | ast => rfl
  | signatures => rfl
  | lir => cases c.lowered <;> rfl

theorem Compilation.deliver_none (h : o.stage = .python) (hgenerated : c.generated = none) :
    (c.deliver o notes).files = c.files ∧ (c.deliver o notes).exitCode = 1 := by
  unfold Compilation.deliver
  rw [h, hgenerated]
  exact ⟨rfl, rfl⟩

theorem Compilation.deliver_some {code : String} (h : o.stage = .python)
    (hgenerated : c.generated = some code) :
    let written := writeCode c.files (Path.parent o.file) c.program.component.name.name code
    (c.deliver o notes).files = written.1 ∧
    ((c.deliver o notes).exitCode = 0 ↔ written.2 = none) := by
  unfold Compilation.deliver
  simp only [h, hgenerated]
  obtain ⟨files, failure⟩ :=
    writeCode c.files (Path.parent o.file) c.program.component.name.name code
  cases failure <;> simp [Outcome.failure, Outcome.display]

end Deliver

section Run

variable {o : Options} {around : Surroundings} {job : Job}

theorem Options.run_failed {pass : Pass} (hread : Job.read o around = .ok job)
    (hast : o.stage ≠ .ast) (h : (job.compilation o around).2.2 = some pass) :
    ∃ notes, o.run around = .failure o around.files notes := by
  unfold Job.compilation Options.codeOptions at h
  unfold Options.run
  simp only [hread, hast, if_false, h]
  exact ⟨_, rfl⟩

theorem Options.run_delivers (hread : Job.read o around = .ok job) (hast : o.stage ≠ .ast)
    (h : (job.compilation o around).2.2 = none) :
    ∃ notes, o.run around = (job.compilation o around).1.deliver o notes := by
  unfold Job.compilation Options.codeOptions at h
  unfold Options.run
  simp only [hread, hast, if_false, h]
  exact ⟨_, rfl⟩

theorem Job.kept_compilation (h : (job.compilation o around).2.2 = none) :
    (job.start o around).Kept (job.compilation o around).1 ∧
    (job.compilation o around).1.hasError = false :=
  Compilation.run_of_not_failed (Compilation.kept_start _ _ _ _ _ _) rfl h

theorem Job.code_compile (hready : job.Ready o around) (hpython : o.stage = .python)
    (h : (job.compilation o around).2.2 = none) :
    (compile job.source o.file job.registry around.files (o.codeOptions around)).code =
      (job.compilation o around).1.generated := by
  have hterminal : o.terminal = .generate := by simp only [Options.terminal, hpython]
  obtain ⟨-, herror⟩ := Job.kept_compilation h
  unfold Job.compilation at herror ⊢
  rw [hterminal] at herror ⊢
  unfold compile
  simp only [hready.program, hready.clean, Bool.false_eq_true, if_false]
  change (if ((job.start o around).run (o.codeOptions around) .generate).1.hasError then none
    else _) = _
  rw [if_neg (by simp [herror])]
  rfl

theorem Options.run_cases (o : Options) (around : Surroundings) :
    ((o.run around).files = around.files ∧ (o.stage = .python → (o.run around).exitCode ≠ 0)) ∨
    ∃ (job : Job) (code : String), o.stage = .python ∧ job.Ready o around ∧
      (compile job.source o.file job.registry around.files (o.codeOptions around)).code =
        some code ∧
      let written := writeCode around.files (Path.parent o.file) job.program.component.name.name
        code
      (o.run around).files = written.1 ∧ ((o.run around).exitCode = 0 ↔ written.2 = none) := by
  cases hread : Job.read o around with
  | error notes =>
    have hrun : o.run around = .failure o around.files notes := by
      unfold Options.run
      rw [hread]
    rw [hrun]
    exact Or.inl ⟨rfl, by simp [Outcome.failure]⟩
  | ok job =>
    have hready := Job.ready_of_read hread
    by_cases hast : o.stage = .ast
    · have hrun : (o.run around).files = around.files := by
        unfold Options.run
        simp only [hread, hast, if_true]
        rfl
      exact Or.inl ⟨hrun, by simp [hast]⟩
    · cases hfailed : (job.compilation o around).2.2 with
      | some pass =>
        obtain ⟨notes, hrun⟩ := Options.run_failed hread hast hfailed
        rw [hrun]
        exact Or.inl ⟨rfl, by simp [Outcome.failure]⟩
      | none =>
        obtain ⟨notes, hrun⟩ := Options.run_delivers hread hast hfailed
        obtain ⟨hkept, -⟩ := Job.kept_compilation hfailed
        have hfiles : (job.compilation o around).1.files = around.files := hkept.files
        have hprogram : (job.compilation o around).1.program = job.program := hkept.program
        rw [hrun]
        by_cases hpython : o.stage = .python
        · have hcode := Job.code_compile hready hpython hfailed
          cases hgenerated : (job.compilation o around).1.generated with
          | none =>
            obtain ⟨hdelivered, hexit⟩ := Compilation.deliver_none notes hpython hgenerated
            exact Or.inl ⟨hdelivered.trans hfiles, by simp [hexit]⟩
          | some code =>
            have hdelivered := Compilation.deliver_some notes hpython hgenerated
            rw [hfiles, hprogram] at hdelivered
            exact Or.inr ⟨job, code, hpython, hready, hcode.trans hgenerated, hdelivered⟩
        · exact Or.inl ⟨(Compilation.files_deliver notes hpython).trans hfiles,
            fun h => absurd h hpython⟩

theorem Job.name_of_code {code : String} {c : CodeOptions} (hready : job.Ready o around)
    (hcode : (compile job.source o.file job.registry around.files c).code = some code) :
    job.program.component.name.name = Path.stem o.file := by
  obtain ⟨p, -, -, -, hp, -, hclean, -⟩ := exists_of_code hcode
  have hprogram : p = job.program := Option.some.inj (hp.symm.trans hready.program)
  rw [← hprogram]
  exact (Program.stem_of_clean hclean).symm

theorem Options.files_run_of_shown (h : o.stage ≠ .python) :
    (o.run around).files = around.files := by
  rcases o.run_cases around with ⟨hfiles, -⟩ | ⟨-, -, hpython, -⟩
  · exact hfiles
  · exact absurd hpython h

theorem Options.files_run_of_fails
    (hfits : (markerPath (Path.parent o.file)).utf8ByteSize ≤ FileTree.pathLimit)
    (h : (o.run around).exitCode ≠ 0) : (o.run around).files = around.files := by
  rcases o.run_cases around with ⟨hfiles, -⟩ | ⟨job, code, -, hready, hcode, hfiles, hexit⟩
  · exact hfiles
  · have hslash : '/' ∉ job.program.component.name.name.toList := by
      rw [Job.name_of_code hready hcode]
      exact Path.noSlash_stem o.file
    cases hwritten : writeCode around.files (Path.parent o.file) job.program.component.name.name
      code with
    | mk files failure =>
      simp only [hwritten] at hfiles hexit
      cases failure with
      | none => exact absurd (hexit.mpr rfl) h
      | some e =>
        rw [hfiles]
        exact files_of_writeCode_fails hslash hfits hwritten

theorem Options.exists_delivered (hpython : o.stage = .python) (h : (o.run around).exitCode = 0) :
    ∃ (job : Job) (code : String), job.Ready o around ∧
      (compile job.source o.file job.registry around.files (o.codeOptions around)).code =
        some code ∧
      Delivered around.files (o.run around).files (Path.parent o.file) (Path.stem o.file) code := by
  rcases o.run_cases around with ⟨-, hexit⟩ | ⟨job, code, -, hready, hcode, hfiles, hexit⟩
  · exact absurd h (hexit hpython)
  · rw [Job.name_of_code hready hcode] at hfiles hexit
    refine ⟨job, code, hready, hcode, delivered_of_writeCode (Path.noSlash_stem o.file) ?_⟩
    rw [hfiles, ← hexit.mp h]

end Run

/-- A run of the compiler writes all that it has to write, or nothing. When it was not asked for
code no file has changed. Nor has one when it fails, unless the path of the marker is longer than a
path may be. When it was asked for code and succeeds, no error was found in the source text nor by
any pass, the component has the name of its file, and its code was delivered into the directory of
the source. -/
theorem runTool_all_or_nothing (args : List String) (around : Surroundings) :
    let outcome := runTool args around
    ((∀ o, Options.ofArgs args = .ok o → o.stage ≠ .python) → outcome.files = around.files) ∧
      (outcome.exitCode ≠ 0 →
        (∀ o, Options.ofArgs args = .ok o → (markerPath (Path.parent o.file)).utf8ByteSize ≤
          FileTree.pathLimit) →
        outcome.files = around.files) ∧
      ∀ o, Options.ofArgs args = .ok o → o.stage = .python → outcome.exitCode = 0 →
        ∃ registry source p code,
          (loadManifests around.files (.withSearchPaths (searchPaths around.importPath))
            o.manifests).2 = some registry ∧
          around.files.readText o.file = .ok source ∧
          (Parsed.ofSource source).program = some p ∧ (Parsed.ofSource source).findings = [] ∧
          (compile source o.file registry around.files (o.codeOptions around)).code = some code ∧
          (∀ f ∈ (compile source o.file registry around.files (o.codeOptions around)).findings,
            f.isError = false) ∧
          p.component.name.name = Path.stem o.file ∧
          Delivered around.files outcome.files (Path.parent o.file) (Path.stem o.file) code := by
  intro outcome
  cases hargs : Options.ofArgs args with
  | error aside =>
    have hfiles : outcome.files = around.files := by
      change (runTool args around).files = _
      unfold runTool
      rw [hargs]
      cases aside <;> rfl
    exact ⟨fun _ => hfiles, fun _ _ => hfiles, fun o ho => by cases ho⟩
  | ok o =>
    have hrun : outcome = o.run around := by
      change runTool args around = _
      unfold runTool
      rw [hargs]
    rw [hrun]
    refine ⟨fun hshown => ?_, fun hfails hfits => ?_, fun o' ho' hpython hzero => ?_⟩
    · exact Options.files_run_of_shown (hshown o rfl)
    · exact Options.files_run_of_fails (hfits o rfl) hfails
    · cases ho'
      obtain ⟨job, code, hready, hcode, hdelivered⟩ := Options.exists_delivered hpython hzero
      have hclean : (Parsed.ofSource job.source).findings = [] :=
        Parsed.findings_eq_nil_iff.mpr (by simpa using hready.clean)
      have hfound := (compile_told _ _ _ _ _).1.mp (by rw [hcode]; rfl)
      exact ⟨job.registry, job.source, job.program, code, hready.registry, hready.source,
        hready.program, hclean,
        hcode, by simpa using hfound, Job.name_of_code hready hcode, hdelivered⟩

def workshop : Surroundings where
  importPath := none
  files := FileTree.empty.add "lib/echo.pcl"
      (.file "component echo inputs a outputs b as wire a -> b".toUTF8)
  now := "2024-01-01"
  elapsed _ := "0"

theorem echo_delivered :
    let outcome := runTool ["lib/echo"] workshop
    outcome.exitCode = 0 ∧ (∃ code : String,
      outcome.files.at? "lib/echo.py" = some (.file code.toUTF8)) ∧
      outcome.files.at? "lib/__init__.py" = some (.file .empty) ∧
      outcome.files.at? "lib/echo.pcl" = workshop.files.at? "lib/echo.pcl" := by
  intro outcome
  let o : Options := ⟨"lib/echo", none, false, [], .python, false⟩
  have hargs : Options.ofArgs ["lib/echo"] = .ok o := by decide +kernel
  have hexit : outcome.exitCode = 0 := by decide +kernel
  obtain ⟨-, -, -, code, -, -, -, -, -, -, -, h⟩ :=
    (runTool_all_or_nothing ["lib/echo"] workshop).2.2 o hargs rfl hexit
  have hdir : Path.parent o.file = "lib" := by decide +kernel
  have hstem : Path.stem o.file = "echo" := by decide +kernel
  have hcode : codePath "lib" "echo" = "lib/echo.py" := by decide +kernel
  have hmarker : markerPath "lib" = "lib/__init__.py" := by decide +kernel
  have hmissing : workshop.files.at? "lib/__init__.py" = none :=
    Option.isNone_iff_eq_none.mp (by decide +kernel)
  rw [hdir, hstem] at h
  obtain ⟨hwritten, hpackage, hothers⟩ := h
  rw [hcode] at hwritten hothers
  rw [hmarker] at hpackage hothers
  rw [hmissing] at hpackage
  have hsource : workshop.files.names "lib/echo.pcl" = .ok ["lib", "echo.pcl"] := by decide +kernel
  have hapart : ∀ path, workshop.files.names path ≠ .ok ["lib", "echo.pcl"] →
      ¬ workshop.files.SamePlace "lib/echo.pcl" path := by
    rintro path hpath ⟨names, hnames, hnames'⟩
    rw [hsource] at hnames
    cases hnames
    exact hpath hnames'
  have hsame := hothers "lib/echo.pcl" (hapart _ (by decide +kernel)) fun _ => hapart _
    (by decide +kernel)
  exact ⟨hexit, ⟨code, hwritten⟩, hpackage (by decide), hsame⟩

end PipelineLang
