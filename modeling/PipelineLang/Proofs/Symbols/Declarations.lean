import PipelineLang.Proofs.Symbols.Imports

/-! Where no error is found, each declaration has its own entry among the symbols, and declares an
import. -/

namespace PipelineLang

namespace Resolution

variable {r : Resolution}

theorem isSome_declaration?_addDeclaration (r : Resolution) (index : Nat) (d : Declaration)
    (name : String) :
    ((r.addDeclaration index d).symbols.declaration? name).isSome = true ↔
      (r.symbols.declaration? name).isSome = true ∨ d.name.name = name := by
  have hunmarked : ∀ s : Symbols,
      (s.declaration? name).isSome = (s.unmarked.declaration? name).isSome := by
    intro s
    rw [Symbols.declaration?_unmarked, Option.isSome_map]
  rw [hunmarked, unmarked_addDeclaration, hunmarked r.symbols]
  split
  · rename_i hknown
    rw [or_iff_left_of_imp]
    rintro rfl
    rwa [← hunmarked]
  · simp [Symbols.declaration?, entryOf]

theorem isSome_declaration?_addDeclarations (ds : List Declaration) (r : Resolution) :
    ∀ d ∈ ds, ((r.addDeclarations ds).symbols.declaration? d.name.name).isSome = true := by
  have hfold : ∀ (xs : List (Declaration × Nat)) (r : Resolution) (name : String),
      ((r.symbols.declaration? name).isSome = true ∨ ∃ x ∈ xs, x.1.name.name = name) →
        ((xs.foldl (fun r x => r.addDeclaration x.2 x.1) r).symbols.declaration? name).isSome =
        true := by
    intro xs
    induction xs with
    | nil => simp
    | cons x xs ih =>
      intro r name h
      refine ih _ name ?_
      rw [isSome_declaration?_addDeclaration]
      simp only [List.mem_cons, exists_eq_or_imp] at h
      grind
  intro d hd
  refine hfold ds.zipIdx _ d.name.name (.inr ?_)
  rw [← List.zipIdx_map_fst 0 ds] at hd
  obtain ⟨x, hx, rfl⟩ := List.mem_map.mp hd
  exact ⟨x, hx, rfl⟩

theorem nodup_of_addDeclarations {ds : List Declaration} (h : (r.addDeclarations ds).Clean) :
    (ds.map fun d => d.name.name).Nodup := by
  have hreport : (r.reportAll (duplicateFindings .component (ds.map Declaration.name))).Clean :=
    clean_of_foldl (fun r (x : Declaration × Nat) hx =>
      (clean_of_checkDeclaration (clean_of_addDeclaration hx)).1) h
  simpa [Function.comp_def] using nodup_of_duplicateFindings (clean_reportAll.mp hreport).2

end Resolution

namespace Program

variable {p : Program} {file : String} {registry : Registry} {files : FileTree} {e : Arrow}
  (hdef : p.component.definition = .arrow e) (hclean : (p.resolve file registry files).Clean)
include hdef hclean

theorem nodup_declarations : (p.component.declarations.map fun d => d.name.name).Nodup :=
  Resolution.nodup_of_addDeclarations
    (Resolution.clean_of_resolveArrow (clean_resolveArrow hdef hclean)).1

theorem declared_of_components {id : Ident} (hid : id ∈ e.components) :
    ∃ d ∈ p.component.declarations, d.name.name = id.name := by
  obtain ⟨entry, hentry⟩ :=
    Option.isSome_iff_exists.mp (isSome_declaration?_of_components hdef hclean hid)
  obtain ⟨d, hd, hname, -⟩ :=
    (traced_resolve_arrow hdef hclean).listed entry (List.mem_of_find?_eq_some hentry)
  exact ⟨d, hd, hname.trans (by simpa using List.find?_some hentry)⟩

variable {d : Declaration} (hd : d ∈ p.component.declarations)
include hd

theorem exists_declaration? :
    ∃ entry, (p.resolve file registry files).symbols.declaration? d.name.name = some entry ∧
      entry.importName = d.component.name ∧ entry.span = d.span := by
  have hsome : ((p.resolve file registry files).symbols.declaration? d.name.name).isSome =
      true := by
    rw [Symbols.isSome_declaration?_congr (unmarked_resolve_arrow hdef)]
    exact Resolution.isSome_declaration?_addDeclarations _ _ d hd
  obtain ⟨entry, hentry⟩ := Option.isSome_iff_exists.mp hsome
  obtain ⟨⟨d', hd', hname, himport, hspan⟩, -⟩ :=
    traced_resolve_arrow hdef hclean entry (List.mem_of_find?_eq_some hentry)
  have hentryName : entry.name = d.name.name := by simpa using List.find?_some hentry
  -- of one name there is one declaration
  obtain rfl : d' = d := List.inj_on_of_nodup_map (nodup_declarations hdef hclean) hd' hd
    (hname.trans hentryName)
  exact ⟨entry, hentry, himport.symm, hspan.symm⟩

theorem imported_of_declaration : ∃ i ∈ p.imports, i.localName.name = d.component.name := by
  obtain ⟨entry, hentry, hname, -⟩ := exists_declaration? hdef hclean hd
  obtain ⟨-, i, -, himport, -⟩ :=
    traced_resolve_arrow hdef hclean entry (List.mem_of_find?_eq_some hentry)
  exact exists_import (hname ▸ Symbols.mem_importNames himport)

end Program

end PipelineLang
