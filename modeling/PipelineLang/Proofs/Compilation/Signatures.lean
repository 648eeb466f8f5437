import PipelineLang.Proofs.Compilation.History
import PipelineLang.Proofs.Interface.Registry
import PipelineLang.Proofs.Relocation.Identity
import PipelineLang.Proofs.Symbols.Imports

/-!
The interfaces of all imports of a program, taken down as a manifest, are all that its compilation
reads of a registry: a registry that holds nothing else, without a search path, gives the same
symbols, messages and code.
-/

namespace PipelineLang

variable {i : Import} {e : ImportEntry}

namespace Resolution

variable {registry : Registry} {files : FileTree} {isLeaf : Bool} {r : Resolution}

def importEntry (registry : Registry) (files : FileTree) (isLeaf : Bool) (i : Import) :
    ImportEntry :=
  ⟨i.localName.name, i.path.name, i.span, (imported registry files isLeaf i.path.name).1, false⟩

theorem of_clean_addImport (h : (r.addImport registry files isLeaf i).Clean) :
    r.Clean ∧ (r.addImport registry files isLeaf i).symbols.imports =
        r.symbols.imports ++ [importEntry registry files isLeaf i]
      ∧ ∀ problem ∈ (imported registry files isLeaf i.path.name).2, problem.isError = false := by
  cases htaken : (r.symbols.import? i.localName.name).isSome with
  | true =>
    rw [addImport_taken htaken, clean_report] at h
    cases h.2
  | false =>
    obtain ⟨log, heq⟩ := exists_addImport_fresh registry files isLeaf htaken
    rw [heq] at h ⊢
    obtain ⟨hr, hproblems⟩ := List.forall_mem_append.mp h
    exact ⟨hr, rfl, fun problem hproblem => hproblems _ (List.mem_map_of_mem hproblem)⟩

theorem of_clean_addImports {imports : List Import}
    (h : (imports.foldl (addImport registry files isLeaf) r).Clean) :
    (imports.foldl (addImport registry files isLeaf) r).symbols.imports =
        r.symbols.imports ++ imports.map (importEntry registry files isLeaf)
      ∧ ∀ i ∈ imports, ∀ problem ∈ (imported registry files isLeaf i.path.name).2,
      problem.isError = false := by
  induction imports generalizing r with
  | nil => exact ⟨(List.append_nil _).symm, List.forall_mem_nil _⟩
  | cons i imports ih =>
    have hfirst : (r.addImport registry files isLeaf i).Clean :=
      clean_of_foldl (fun _ _ hx => (of_clean_addImport hx).1) h
    obtain ⟨-, hentry, hproblems⟩ := of_clean_addImport hfirst
    obtain ⟨hentries, hrest⟩ := ih h
    refine ⟨?_, List.forall_mem_cons.mpr ⟨hproblems, hrest⟩⟩
    rw [List.foldl_cons, hentries, hentry, List.append_assoc]
    rfl

theorem clean_of_checkHeader {c : Component} {file : String} (h : (r.checkHeader c file).Clean) :
    r.Clean := by
  have hback : ∀ (r : Resolution) id, (r.addConfiguration id).Clean → r.Clean := by
    intro r id h
    unfold addConfiguration at h
    split at h <;> exact h
  unfold checkHeader at h
  dsimp only at h
  split at h <;>
    · have hreports := clean_of_foldl hback h
      simp only [clean_reportAll, clean_reportIf] at hreports
      exact hreports.1.1.1.1.1.1

end Resolution

namespace Program

variable {p : Program} {file : String} {registry : Registry} {files : FileTree}
  (hclean : (p.resolve file registry files).Clean)
include hclean

theorem clean_addImports :
    (p.imports.foldl (Resolution.addImport registry files p.component.isLeaf)
        (.start p.component)).Clean :=
  Resolution.clean_of_checkHeader ((p.keeps_resolve file registry files).clean hclean)

theorem imports_of_clean :
    (p.resolve file registry files).symbols.unmarked.imports =
      p.imports.map (Resolution.importEntry registry files p.component.isLeaf) := by
  have hframe := congrArg Prod.snd (p.keeps_resolve file registry files).frame
  have himports := (Resolution.of_clean_addImports (clean_addImports hclean)).1
  refine hframe.trans ?_
  simp only [Symbols.frame, Symbols.unmarked, Resolution.imports_checkHeader, himports]
  rw [Resolution.start, List.nil_append, List.map_map]
  rfl

theorem exists_functions (hleaf : p.component.isLeaf = true) (hi : i ∈ p.imports) :
    ∃ package, (registry.functions files i.path.name).2 = .ok package := by
  have hproblems := (Resolution.of_clean_addImports (clean_addImports hclean)).2 i hi
  rw [hleaf, Resolution.imported, if_pos rfl] at hproblems
  cases hfunctions : (registry.functions files i.path.name).2 with
  | ok package => exact ⟨package, rfl⟩
  | error e =>
    rw [hfunctions] at hproblems
    cases hproblems _ (List.mem_singleton_self _)

theorem exists_component (harrow : p.component.isLeaf = false) (hi : i ∈ p.imports) :
    ∃ signature, (registry.component files i.path.name).2 = .ok signature := by
  have hproblems := (Resolution.of_clean_addImports (clean_addImports hclean)).2 i hi
  rw [harrow, Resolution.imported, if_neg Bool.false_ne_true] at hproblems
  cases hcomponent : (registry.component files i.path.name).2 with
  | ok signature => exact ⟨signature, rfl⟩
  | error e =>
    rw [hcomponent] at hproblems
    cases hproblems _ (List.mem_singleton_self _)

theorem exists_import_of_entry (he : e ∈ (p.resolve file registry files).symbols.imports) :
    ∃ i ∈ p.imports, e.localName = i.localName.name ∧ e.path = i.path.name
      ∧ e.kind = (Resolution.imported registry files p.component.isLeaf i.path.name).1 := by
  have hmem : { e with used := false } ∈ (p.resolve file registry files).symbols.unmarked.imports :=
    List.mem_map_of_mem he
  rw [imports_of_clean hclean] at hmem
  obtain ⟨i, hi, heq⟩ := List.mem_map.mp hmem
  exact ⟨i, hi, (congrArg ImportEntry.localName heq).symm, (congrArg ImportEntry.path heq).symm,
    (congrArg ImportEntry.kind heq).symm⟩

theorem paths_of_clean :
    (p.resolve file registry files).symbols.imports.map ImportEntry.path =
      p.imports.map fun i => i.path.name := by
  have hpaths := congrArg (List.map ImportEntry.path) (imports_of_clean hclean)
  rw [Symbols.unmarked, List.map_map, List.map_map] at hpaths
  exact hpaths

end Program

namespace Registry

variable (r : Registry) {module : String}

theorem functions_of_manifest {package : FunctionPackage}
    (h : r.manifest.packages.get? module = some package) (files : FileTree) :
    (r.functions files module).2 = .ok package := by
  rw [get?_packages] at h
  obtain ⟨⟨p, place⟩, hget, rfl⟩ := Option.map_eq_some_iff.mp h
  rw [functions, hget]

theorem component_of_manifest {signature : ComponentSignature}
    (h : r.manifest.components.get? module = some signature) (files : FileTree) :
    (r.component files module).2 = .ok signature := by
  rw [get?_components] at h
  obtain ⟨⟨s, place⟩, hget, rfl⟩ := Option.map_eq_some_iff.mp h
  rw [component, hget]

end Registry

namespace Compilation

/-- A state of the compilation `d` that has the imports of its resolution. -/
structure Imported (d c : Compilation) : Prop extends SameTask d c where
  imports : ∃ s, c.symbols = some s ∧ s.imports = d.resolution.symbols.imports

theorem imported_runPass {d c : Compilation} (hc : d.Imported c) (o : CodeOptions) (pass : Pass) :
    d.Imported (noted (c.runPass o pass)) := by
  obtain ⟨s, hs, himports⟩ := hc.imports
  refine ⟨hc.toSameTask.runPass o pass, ?_⟩
  cases pass with
  | resolve =>
    rw [resolve_eq hc.toSameTask]
    exact ⟨_, rfl, rfl⟩
  | analyze =>
    simp only [runPass, analyzePass, hs]
    split
    · rename_i a s' _ heq
      cases heq
      exact ⟨_, rfl, himports⟩
    · exact ⟨s, hs, himports⟩
  | layOut | infer | lower | generate =>
    simp only [runPass, layOutPass, inferPass, lowerPass, generatePass]
    repeat' split
    all_goals exact ⟨s, hs, himports⟩

theorem imported_runPasses {d c : Compilation} (hc : d.Imported c) (o : CodeOptions)
    (passes : List Pass) :
    d.Imported (c.runPasses o passes).1 := by
  induction passes generalizing c with
  | nil => exact hc
  | cons pass passes ih =>
    cases happlies : pass.dialect.applies c.program.component.isLeaf with
    | false =>
      rw [runPasses_skip happlies]
      exact ih hc
    | true =>
      have hnext := imported_runPass hc o pass
      cases hfailed : (c.runPass o pass).2.findings.any Finding.isError with
      | true =>
        rw [runPasses_fail happlies hfailed]
        exact hnext
      | false =>
        rw [runPasses_next happlies hfailed]
        exact ih hnext

theorem required_eq_cons (terminal : Pass) :
    terminal.required = .resolve :: terminal.required.tail := by
  cases terminal <;> decide +kernel

theorem imported_run (d : Compilation) (hclean : d.resolution.Clean) (o : CodeOptions)
    (terminal : Pass) :
    d.Imported (d.run o terminal).1 := by
  have hfailed : (d.runPass o .resolve).2.findings.any Finding.isError = false := by
    change d.resolution.findings.any Finding.isError = false
    simpa [Resolution.Clean] using hclean
  have hresolved : d.Imported (noted (d.runPass o .resolve)) :=
    ⟨⟨rfl, rfl, rfl, rfl, rfl, rfl⟩, _, rfl, rfl⟩
  rw [run, required_eq_cons, runPasses_next rfl hfailed]
  exact imported_runPasses hresolved o _

section Exported

variable {c : Compilation} {entries : List ImportEntry}

/-- Where each step of an export enters what it finds under the path of an import, all that is found
is there in the end, however often a path is imported. -/
theorem get?_foldl_exportImport {α : Type} (table : Registry → Table String (α × String))
    {lookup : String → Option α}
    (hstep : ∀ e ∈ entries, ∀ x path, (table (c.exportImport x e).1).get? path =
      if path = e.path then (lookup path).map (·, "<memory>") else (table x.1).get? path)
    (x : Registry × List LogEvent) (path : String) :
    (table (entries.foldl c.exportImport x).1).get? path =
      if path ∈ entries.map ImportEntry.path then (lookup path).map (·, "<memory>")
        else (table x.1).get? path := by
  induction entries generalizing x with
  | nil => rfl
  | cons e entries ih =>
    obtain ⟨hfirst, hrest⟩ := List.forall_mem_cons.mp hstep
    rw [List.foldl_cons, ih hrest, hfirst, List.map_cons]
    by_cases hlater : path ∈ entries.map ImportEntry.path
    · rw [if_pos hlater, if_pos (List.mem_cons_of_mem _ hlater)]
    · by_cases hhere : path = e.path
      · rw [if_neg hlater, if_pos hhere, if_pos (hhere ▸ List.mem_cons_self)]
      · rw [if_neg hlater, if_neg hhere, if_neg (by simp [hlater, hhere])]

theorem get?_exportImport_package {package functions : FunctionPackage}
    (hkind : e.kind = .package functions)
    (hlookup : (c.registry.functions c.files e.path).2 = .ok package)
    (x : Registry × List LogEvent) (path : String) :
    (c.exportImport x e).1.packages.get? path =
      if path = e.path then (c.registry.functions c.files path).2.toOption.map (·, "<memory>")
      else x.1.packages.get? path := by
  obtain ⟨events, hfound⟩ : ∃ events, c.registry.functions c.files e.path = (events, .ok package) :=
    ⟨_, Prod.ext rfl hlookup⟩
  simp only [exportImport, hkind, hfound, Registry.insertPackage, Table.get?_insert]
  split
  · rename_i hpath
    rw [hpath, hlookup]
    rfl
  · rfl

theorem get?_exportImport_component {signature : ComponentSignature} {leaf : LeafSignature}
    (hkind : e.kind = .component leaf) (hloaded : leaf.loaded = true)
    (hlookup : (c.registry.component c.files e.path).2 = .ok signature)
    (x : Registry × List LogEvent) (path : String) :
    (c.exportImport x e).1.components.get? path =
      if path = e.path then (c.registry.component c.files path).2.toOption.map (·, "<memory>")
      else x.1.components.get? path := by
  obtain ⟨events, hfound⟩ :
    ∃ events, c.registry.component c.files e.path = (events, .ok signature) :=
    ⟨_, Prod.ext rfl hlookup⟩
  simp only [exportImport, hkind, hloaded, if_true, hfound, Registry.insertComponent,
    Table.get?_insert]
  split
  · rename_i hpath
    rw [hpath, hlookup]
    rfl
  · rfl

end Exported

section SelfContained

variable {d c : Compilation}

theorem mem_paths (hclean : d.resolution.Clean) {s : Symbols}
    (himports : s.imports = d.resolution.symbols.imports) (hi : i ∈ d.program.imports) :
    i.path.name ∈ s.imports.map ImportEntry.path := by
  have hpaths : d.resolution.symbols.imports.map ImportEntry.path =
      d.program.imports.map fun i => i.path.name :=
    Program.paths_of_clean hclean
  rw [himports, hpaths]
  exact List.mem_map_of_mem hi

variable (hclean : d.resolution.Clean) (hc : d.Imported c)
include hclean hc

theorem get?_resolvedSignatures {α : Type} (table : Registry → Table String (α × String))
    (lookup : String → Option α) (hstep : ∀ e ∈ d.resolution.symbols.imports, ∀ x path,
      (table (c.exportImport x e).1).get? path =
      if path = e.path then (lookup path).map (·, "<memory>") else (table x.1).get? path) (hi :
        i ∈ d.program.imports) :
    ((table c.resolvedSignatures.1).get? i.path.name).map Prod.fst = lookup i.path.name := by
  obtain ⟨s, hs, himports⟩ := hc.imports
  rw [← himports] at hstep
  rw [resolvedSignatures, hs, get?_foldl_exportImport table hstep,
    if_pos (mem_paths hclean himports hi), Option.map_map]
  exact Option.map_id'

theorem get?_resolvedSignatures_packages (hleaf : d.program.component.isLeaf = true)
    (hi : i ∈ d.program.imports) :
    c.resolvedSignatures.1.manifest.packages.get? i.path.name =
      (d.registry.functions d.files i.path.name).2.toOption := by
  rw [Registry.get?_packages, ← hc.registry, ← hc.files]
  refine get?_resolvedSignatures hclean hc Registry.packages
    (fun path => (c.registry.functions c.files path).2.toOption)
    (fun e he => ?_) hi
  obtain ⟨i, hi, -, hpath, hkind⟩ := Program.exists_import_of_entry hclean he
  obtain ⟨package, hlookup⟩ := Program.exists_functions hclean hleaf hi
  rw [hleaf, Resolution.imported, if_pos rfl, hlookup] at hkind
  rw [← hpath, ← hc.registry, ← hc.files] at hlookup
  exact get?_exportImport_package hkind hlookup

theorem get?_resolvedSignatures_components (harrow : d.program.component.isLeaf = false)
    (hi : i ∈ d.program.imports) :
    c.resolvedSignatures.1.manifest.components.get? i.path.name =
      (d.registry.component d.files i.path.name).2.toOption := by
  rw [Registry.get?_components, ← hc.registry, ← hc.files]
  refine get?_resolvedSignatures hclean hc Registry.components
    (fun path => (c.registry.component c.files path).2.toOption) (fun e he => ?_) hi
  obtain ⟨i, hi, -, hpath, hkind⟩ := Program.exists_import_of_entry hclean he
  obtain ⟨signature, hlookup⟩ := Program.exists_component hclean harrow hi
  rw [harrow, Resolution.imported, if_neg Bool.false_ne_true, hlookup] at hkind
  rw [← hpath, ← hc.registry, ← hc.files] at hlookup
  exact get?_exportImport_component hkind rfl hlookup

/-- A registry that holds what was exported gives the same imports, whatever files there are. -/
theorem imported_of_exported {loaded : Registry}
    (hmanifest : loaded.manifest = c.resolvedSignatures.1.manifest) (files : FileTree)
    (hi : i ∈ d.program.imports) :
    Resolution.imported loaded files d.program.component.isLeaf i.path.name =
      Resolution.imported d.registry d.files d.program.component.isLeaf i.path.name := by
  cases hleaf : d.program.component.isLeaf with
  | true =>
    obtain ⟨package, hlookup⟩ := Program.exists_functions hclean hleaf hi
    have hget := get?_resolvedSignatures_packages hclean hc hleaf hi
    rw [hlookup, ← hmanifest] at hget
    rw [Resolution.imported, Resolution.imported, if_pos rfl, if_pos rfl, hlookup,
      loaded.functions_of_manifest hget files]
  | false =>
    obtain ⟨signature, hlookup⟩ := Program.exists_component hclean hleaf hi
    have hget := get?_resolvedSignatures_components hclean hc hleaf hi
    rw [hlookup, ← hmanifest] at hget
    rw [Resolution.imported, Resolution.imported, if_neg Bool.false_ne_true,
      if_neg Bool.false_ne_true, hlookup, loaded.component_of_manifest hget files]

end SelfContained

/-- What a run exports is all that is read of the registry: its text loads into an empty registry,
against which the program has the same symbols and findings, and any text that holds the program
gets the same messages and the same code but for the line that tells the digest of the
interfaces. -/
theorem resolvedSignatures_self_contained {p : Program} {file : String} {registry : Registry}
    {files : FileTree} (hclean : (p.resolve file registry files).Clean) (source : String)
    (provenance : Option Provenance) (o : CodeOptions) (terminal : Pass) (origin : String) :
    let state := ((start p registry files file source provenance).run o terminal).1
    ∃ loaded count, Registry.empty.loadText state.resolvedSignatures.1.prettyText origin =
    (loaded, .ok count)
      ∧ loaded.searchPaths = []
      ∧ ∀ files', (p.resolve file loaded files').symbols = (p.resolve file registry files).symbols
        ∧ (p.resolve file loaded files').findings = (p.resolve file registry files).findings
        ∧ ∀ text, (Parsed.ofSource text).program = some p → ∀ o : CodeOptions,
          let result := compile text file registry files o
          let result' := compile text file loaded files' o
          result'.findings = result.findings
            ∧ (result.code = none ∧ result'.code = none ∨ ∃ before after,
              result.code =
                some (unlines (before ++ ("# signatures sha256 " ++
                  (o.origin text registry).interfaces.hex) :: after))
              ∧ result'.code =
                some (unlines (before ++ ("# signatures sha256 " ++
                  (o.origin text loaded).interfaces.hex) :: after))) := by
  intro state
  let begun := start p registry files file source provenance
  have hresolved : begun.resolution.Clean := hclean
  have hstate := imported_run begun hresolved o terminal
  obtain ⟨loaded, hload, hmanifest, hpaths⟩ :=
    Registry.loadText_empty origin (Manifest.read?_pretty state.resolvedSignatures.1.manifest)
  refine ⟨loaded, _, hload, hpaths, fun files' => ?_⟩
  have himports : ∀ i ∈ p.imports,
      Resolution.imported loaded files' p.component.isLeaf i.path.name =
      Resolution.imported registry files p.component.isLeaf i.path.name :=
    fun i hi => imported_of_exported hresolved hstate hmanifest files' hi
  obtain ⟨hsymbols, hfindings⟩ := p.resolve_congr himports file
  refine ⟨hsymbols, hfindings, fun text hp o => ?_⟩
  obtain ⟨hfound, hcodes⟩ := compile_congr himports hp file o
  refine ⟨hfound, hcodes.imp_right ?_⟩
  rintro ⟨rest, hcode, hcode'⟩
  obtain ⟨top, htop⟩ := o.exists_header
  have hsource : (o.origin text loaded).source = (o.origin text registry).source := by
    rw [CodeOptions.source_origin, CodeOptions.source_origin]
  refine ⟨top ++ ["# source sha256 " ++ (o.origin text registry).source.hex], "#" :: rest, ?_, ?_⟩
  · rw [hcode, htop, List.append_assoc, List.append_assoc]
    rfl
  · rw [hcode', htop, hsource, List.append_assoc, List.append_assoc]
    rfl

def twice : String :=
  "import m as a import m as b component c inputs x outputs y "
    ++ "do v <- a.f(x) w <- b.f(v) return y <- w"

def twiceRegistry : Registry :=
  Registry.empty.insertPackage "m"
    (.ofList [("f", ⟨["x"], 0, false, false⟩), ("g", ⟨[], 0, false, true⟩)])

theorem twice_self_contained :
    ∃ p, (Parsed.ofSource twice).program = some p
      ∧ (p.resolve "c.pcl" twiceRegistry .empty).Clean
      ∧ ∃ loaded count,
        Registry.empty.loadText ((start p twiceRegistry .empty "c.pcl" twice none).run
          ⟨false, "now", none⟩ .resolve).1.resolvedSignatures.1.prettyText "exported" =
            (loaded, .ok count)
        ∧ (p.resolve "c.pcl" loaded .empty).findings.map Finding.problem =
          [.droppedFunction "g" "m", .droppedFunction "g" "m"]
        ∧ ∃ before after,
          (compile twice "c.pcl" twiceRegistry .empty ⟨false, "now", none⟩).code = some (unlines
            (before ++ ("# signatures sha256 " ++
                (Sha256.ofText twiceRegistry.canonicalText).hex) :: after))
          ∧ (compile twice "c.pcl" loaded .empty ⟨false, "now", none⟩).code = some (unlines
            (before ++ ("# signatures sha256 " ++
                (Sha256.ofText loaded.canonicalText).hex) :: after)) := by
  have hfindings : (Parsed.ofSource twice).program.map (fun p =>
      (p.resolve "c.pcl" twiceRegistry .empty).findings.map Finding.problem) =
        some [.droppedFunction "g" "m", .droppedFunction "g" "m"] := by
    decide +kernel
  have hsome : (compile twice "c.pcl" twiceRegistry .empty ⟨false, "now", none⟩).code.isSome =
      true := by
    decide +kernel
  obtain ⟨p, hp, hproblems⟩ := Option.map_eq_some_iff.mp hfindings
  have hclean : (p.resolve "c.pcl" twiceRegistry .empty).Clean := by
    intro finding hfinding
    have hmem := List.mem_map_of_mem (f := Finding.problem) hfinding
    rw [hproblems] at hmem
    simp only [List.mem_cons, List.not_mem_nil, or_false, or_self] at hmem
    rw [Finding.isError, hmem]
    rfl
  obtain ⟨loaded, count, hload, -, hsame⟩ :=
    resolvedSignatures_self_contained hclean twice none ⟨false, "now", none⟩ .resolve "exported"
  obtain ⟨-, hfound, hcompiled⟩ := hsame .empty
  have hcodes := (hcompiled twice hp ⟨false, "now", none⟩).2
  simp only [CodeOptions.interfaces_origin, Option.map_none, Option.getD_none] at hcodes
  refine ⟨p, hp, hclean, loaded, count, hload, hfound ▸ hproblems,
    hcodes.resolve_left fun hnone => ?_⟩
  rw [hnone.1] at hsome
  cases hsome

end Compilation

end PipelineLang
