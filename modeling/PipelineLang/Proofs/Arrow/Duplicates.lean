import PipelineLang.Proofs.Symbols.Header

/-! Repeated names in wires and merges. Inference comes to each node before its types are known, and
reports what stands twice on one of its sides; so where it finds no error, no name does. -/

namespace PipelineLang

namespace NodeKind

variable {kind : NodeKind}

theorem nodup_of_duplicateFindings (h : ∀ f ∈ kind.duplicateFindings, f.isError = false) :
    ∀ side ∈ kind.sides, (side.2.map Ident.name).Nodup := by
  intro side hside
  have herror : ∀ id : Ident, (⟨id.span, .duplicateMapping side.1 id.name⟩ : Finding).isError =
      true := fun _ => rfl
  exact nodup_of_duplicates herror fun f hf => h f (List.mem_flatMap.mpr ⟨side, hside, hf⟩)

end NodeKind

namespace Arena

variable {s : Symbols} {a : Arena} {i : Nat} {kind : NodeKind} {parent : Option Nat} {span : Span}

theorem sameOutside_inferNode (s : Symbols) (a : Arena) (i : Nat) :
    SameOutside i (i + 1) (a.inferNode s i).1 a := by
  unfold inferNode
  split
  · exact .refl _ _ a
  · split
    · exact .refl _ _ a
    · split <;> exact .setTypes a _ (Nat.le_refl i) (Nat.lt_succ_self i)

theorem duplicateFindings_subset_inferNode (hs : a.shape i = some (kind, parent, span))
    (hu : a.types i = .unknown) : kind.duplicateFindings ⊆ (a.inferNode s i).2 := by
  have hcombined := combined?_of_shape hs
  simp only [inferNode, node?_of_shape hs, hu]
  cases kind with
  | merge | wire | wirePair =>
    simp only [hcombined]
    exact List.Subset.refl _
  | _ => exact List.nil_subset _

theorem duplicateFindings_subset_sweep {places : List Nat} (hnodup : places.Nodup) (hi : i ∈ places)
    (hs : a.shape i = some (kind, parent, span)) (hu : a.types i = .unknown) :
    kind.duplicateFindings ⊆ (sweep (inferNode s) a places).2 := by
  induction places generalizing a with
  | nil => cases hi
  | cons j places ih =>
    obtain ⟨hj, hnodup⟩ := List.nodup_cons.mp hnodup
    rcases List.mem_cons.mp hi with rfl | hi
    · exact List.subset_append_of_subset_left _ (duplicateFindings_subset_inferNode hs hu)
    · -- the node is still as it was when the nodes in front of it have been typed
      have hsame := sameOutside_inferNode s a j
      have hne : i ≠ j := fun heq => hj (heq ▸ hi)
      refine List.subset_append_of_subset_right _ (ih hnodup hi ?_ ?_)
      · rw [hsame.shape, hs]
      · rw [hsame.types i (by omega), hu]

theorem nodup_sides_of_infer {e : Arrow} (h : ∀ f ∈ ((ofArrow e).infer s).2, f.isError = false) :
    ∀ node ∈ e.layOut 0 none, ∀ side ∈ node.kind.sides, (side.2.map Ident.name).Nodup := by
  intro node hnode
  rw [← nodes_ofArrow] at hnode
  obtain ⟨i, hi⟩ := List.mem_iff_getElem?.mp hnode
  have hshape : (ofArrow e).shape i = some (node.kind, node.parent, node.span) :=
    congrArg (Option.map _) hi
  have hlt : i < (ofArrow e).size := (List.getElem?_eq_some_iff.mp hi).1
  rw [infer_eq_sweep] at h
  refine NodeKind.nodup_of_duplicateFindings fun f hf => h f ?_
  exact duplicateFindings_subset_sweep List.nodup_range'
    (List.mem_range'_1.mpr ⟨Nat.zero_le i, by omega⟩) hshape
    (types_ofArrow e i) hf

end Arena

end PipelineLang
