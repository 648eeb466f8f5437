import PipelineLang.Proofs.Symbols.Resolution
import PipelineLang.Proofs.Target.ArrowProgram
import PipelineLang.Target.Module

/-! Code can be written for every expression that was read whole, once its components are
declared. -/

namespace PipelineLang

variable {a : Arena} {c : Component}

namespace Target

variable {s : Symbols} {ds : List Declaration} {e : Arrow}

theorem mem_known {d : Declaration} {entry : DeclarationEntry} :
    (d, entry) ∈ known s ds ↔ d ∈ ds ∧ s.declaration? d.name.name = some entry ∧
    entry.span = d.span := by
  simp only [known, List.mem_filterMap]
  constructor
  · rintro ⟨d', hd', h⟩
    split at h
    · rename_i found hfound
      split at h
      · rename_i hspan
        cases h
        exact ⟨hd', hfound, hspan⟩
      · cases h
    · cases h
  · rintro ⟨hd, hfound, hspan⟩
    exact ⟨d, hd, by simp [hfound, hspan]⟩

theorem contains_known (hl : s.Listed ds) {name : String}
    (h : (s.declaration? name).isSome = true) :
    ((known s ds).map fun (d, _) => d.name.name).contains name = true := by
  obtain ⟨entry, he⟩ := Option.isSome_iff_exists.mp h
  obtain ⟨d, hd, hname, -, hspan⟩ := hl entry (List.mem_of_find?_eq_some he)
  have hentry : entry.name = name := by simpa using List.find?_some he
  rw [List.contains_iff_mem, List.mem_map]
  refine ⟨(d, entry), mem_known.mpr ⟨hd, ?_, hspan.symm⟩, hname.trans hentry⟩
  rw [hname, hentry, he]

theorem exists_arrowProgram (ht : s.Traced c.declarations) (hi : e.intact = true)
    (hd : ∀ id ∈ e.components, (s.declaration? id.name).isSome = true)
    (ha : a.nodes.map ArrowNode.shape = (Arena.ofArrow e).nodes.map ArrowNode.shape) :
    ∃ prog, arrowProgram c s a = .ok prog ∧ ArrowProgram.Builds prog.steps e prog.result := by
  rw [arrowProgram, ArrowProgram.ofArena_congr ha]
  exact ArrowProgram.exists_ofArena_ofArrow hi fun id hid => contains_known ht.listed (hd id hid)

theorem intact_of_arrowProgram {prog : ArrowProgram}
    (ha : a.nodes.map ArrowNode.shape = (Arena.ofArrow e).nodes.map ArrowNode.shape)
    (h : arrowProgram c s a = .ok prog) : e.intact = true := by
  rw [arrowProgram, ArrowProgram.ofArena_congr ha] at h
  exact ArrowProgram.intact_of_ofArena h

theorem exists_mapM_ok {α β ε : Type} {f : α → Except ε β} {xs : List α}
    (h : ∀ x ∈ xs, ∃ y, f x = .ok y) :
    ∃ ys, xs.mapM f = .ok ys := by
  induction xs with
  | nil => exact ⟨[], rfl⟩
  | cons x xs ih =>
    rw [List.forall_mem_cons] at h
    obtain ⟨y, hy⟩ := h.1
    obtain ⟨ys, hys⟩ := ih h.2
    refine ⟨y :: ys, ?_⟩
    rw [List.mapM_cons, hy, hys]
    rfl

theorem exists_arrowBody (lines : LineIndex) (instrument : Bool)
    (ht : s.Traced c.declarations) (hi : e.intact = true)
    (hd : ∀ id ∈ e.components, (s.declaration? id.name).isSome = true)
    (ha : a.nodes.map ArrowNode.shape = (Arena.ofArrow e).nodes.map ArrowNode.shape) :
    ∃ result, arrowBody c s lines instrument a = .ok result := by
  obtain ⟨instances, hinstances⟩ : ∃ instances, (known s c.declarations).mapM
      (fun (d, entry) => declarationCode s lines instrument d entry) = .ok instances := by
    refine exists_mapM_ok ?_
    rintro ⟨d, entry⟩ hx
    obtain ⟨-, hfound, -⟩ := mem_known.mp hx
    obtain ⟨-, i, leaf, himport, -⟩ := ht entry (List.mem_of_find?_eq_some hfound)
    simp only [declarationCode, himport]
    exact ⟨_, rfl⟩
  obtain ⟨prog, hprog, -⟩ := exists_arrowProgram ht hi hd ha
  simp only [arrowBody, hinstances, bind, Except.bind, hprog]
  exact ⟨_, rfl⟩

end Target

namespace Program

variable {p : Program} {s : Symbols}

theorem exists_generate {body : Body} {lines : LineIndex} {o : CodeOptions}
    (h : ∃ result, Target.initialiseBody p.component s body lines o.instrument = .ok result) :
    ∃ code, p.generate s body lines o = .ok code := by
  obtain ⟨result, hresult⟩ := h
  simp only [generate, hresult]
  exact ⟨_, rfl⟩

theorem exists_generate_arrow {e : Arrow} (lines : LineIndex) (o : CodeOptions)
    (hdef : p.component.definition = .arrow e) (ht : s.Traced p.component.declarations)
    (hi : e.intact = true) (hd : ∀ id ∈ e.components, (s.declaration? id.name).isSome = true)
    (ha : a.nodes.map ArrowNode.shape = (Arena.ofArrow e).nodes.map ArrowNode.shape) :
    ∃ code, p.generate s (.arrow a) lines o = .ok code := by
  obtain ⟨result, hresult⟩ := Target.exists_arrowBody lines o.instrument ht hi hd ha
  refine exists_generate ?_
  simp only [Target.initialiseBody, hdef, hresult]
  exact ⟨_, rfl⟩

theorem exists_generate_leaf {body : DoBlock} (leaf : LoweredLeaf) (lines : LineIndex)
    (o : CodeOptions) (hdef : p.component.definition = .leaf body) :
    ∃ code, p.generate s (.leaf leaf) lines o = .ok code := by
  refine exists_generate ?_
  simp only [Target.initialiseBody, hdef]
  exact ⟨_, rfl⟩

end Program

end PipelineLang
