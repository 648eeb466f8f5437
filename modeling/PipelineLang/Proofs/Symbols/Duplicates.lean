import PipelineLang.Grammar.Source
import PipelineLang.Proofs.Symbols.Findings
import PipelineLang.Proofs.Symbols.Header

/-!
Repeated names. Of each name that occurs more than once, just the second occurrence is reported, and
how often names occur does not depend on their order. So the messages about repeated names stay the
same, up to their order, when the names of a clause are written in another order.
-/

namespace PipelineLang

theorem sublist_duplicatesAfter (seen : List String) (ids : List Ident) :
    (duplicatesAfter seen ids).Sublist ids := by
  induction ids generalizing seen with
  | nil => exact .refl _
  | cons id ids ih =>
    simp only [duplicatesAfter]
    split
    · exact (ih _).cons_cons id
    · exact (ih _).cons id

theorem count_duplicatesAfter (seen : List String) (ids : List Ident) (name : String) :
    ((duplicatesAfter seen ids).map Ident.name).count name =
      if seen.count name ≤ 1 ∧ 2 ≤
        seen.count name + (ids.map Ident.name).count name then 1 else 0 := by
  induction ids generalizing seen with
  | nil =>
    rw [if_neg]
    · rfl
    · simp only [List.map_nil, List.count_nil]
      omega
  | cons id ids ih =>
    have hrest := ih (id.name :: seen)
    by_cases hname : id.name = name
    · subst hname
      simp only [duplicatesAfter, List.map_cons, List.count_cons_self] at hrest ⊢
      split <;> simp only [List.map_cons, List.count_cons_self, hrest] <;> split <;> split <;> omega
    · simp only [duplicatesAfter, List.map_cons, List.count_cons_of_ne hname] at hrest ⊢
      split
      · simp only [List.map_cons, List.count_cons_of_ne hname, hrest]
      · exact hrest

theorem count_duplicates (ids : List Ident) (name : String) :
    ((duplicates ids).map Ident.name).count name =
      if 2 ≤ (ids.map Ident.name).count name then 1 else 0 := by
  simp [duplicates, count_duplicatesAfter]

/-- The entries of a list whose names have come just once before, in `seen` or in the list
itself. -/
def secondsAfter (seen : List String) (ids : List Ident) : List Ident :=
  (ids.zipIdx.filter fun x => (seen ++ (ids.take x.2).map Ident.name).count x.1.name =
    1).map Prod.fst

theorem secondsAfter_cons (seen : List String) (id : Ident) (ids : List Ident) :
    secondsAfter seen (id :: ids) =
      if seen.count id.name = 1 then id :: secondsAfter (id.name :: seen) ids
      else secondsAfter (id.name :: seen) ids := by
  have hrest : (((ids.zipIdx 1).filter fun x =>
      (seen ++ ((id :: ids).take x.2).map Ident.name).count x.1.name = 1).map Prod.fst) =
        secondsAfter (id.name :: seen) ids := by
    rw [List.zipIdx_succ, List.filter_map, List.map_map]
    simp only [secondsAfter, Function.comp_def]
    congr 1
    refine List.filter_congr fun x _ => ?_
    simp only [List.take_succ_cons, List.map_cons, List.count_append, List.count_cons,
      decide_eq_decide]
    omega
  rw [secondsAfter, List.zipIdx_cons, List.filter_cons]
  simp only [List.take_zero, List.map_nil, List.append_nil, decide_eq_true_eq]
  split
  · rw [List.map_cons, hrest]
  · exact hrest

theorem duplicatesAfter_eq_secondsAfter (seen : List String) (ids : List Ident) :
    duplicatesAfter seen ids = secondsAfter seen ids := by
  induction ids generalizing seen with
  | nil => rfl
  | cons id ids ih => rw [secondsAfter_cons, duplicatesAfter, ih]

/-- The same names, as often, in whatever order and at whatever places. -/
def SameNames (ids ids' : List Ident) : Prop := (ids.map Ident.name).Perm (ids'.map Ident.name)

theorem SameNames.duplicates {ids ids' : List Ident} (h : SameNames ids ids') :
    SameNames (duplicates ids) (PipelineLang.duplicates ids') := by
  refine List.perm_iff_count.mpr fun name => ?_
  rw [count_duplicates, count_duplicates, List.perm_iff_count.mp h name]

def duplicateMessages (findings : List Finding) : List String :=
  (findings.filter fun f => f.problem.code = "E0101").map fun f => f.problem.message

theorem duplicateMessages_append (fs gs : List Finding) :
    duplicateMessages (fs ++ gs) = duplicateMessages fs ++ duplicateMessages gs := by
  simp [duplicateMessages]

namespace Resolution

variable {r r' : Resolution}

theorem messages_of_silent {findings : List Finding}
    (h : ∀ f ∈ findings, f.problem.tellsDuplicate = false) :
    duplicateMessages findings = [] := by
  have hnone : (findings.filter fun f => f.problem.code = "E0101") = [] := by
    refine List.filter_eq_nil_iff.mpr fun f hf => ?_
    simpa using Problem.code_ne_of_tellsDuplicate (h f hf)
  rw [duplicateMessages, hnone, List.map_nil]

theorem Adds.messages (h : r.Adds r') :
    duplicateMessages r'.findings = duplicateMessages r.findings := by
  obtain ⟨new, hnew, hplain⟩ := h
  have hsilent := messages_of_silent fun f hf => (Problem.isPlain_iff.mp (hplain f hf)).2.1
  rw [hnew, duplicateMessages_append, hsilent, List.append_nil]

theorem messages_reportUnused (r : Resolution) :
    duplicateMessages r.reportUnused.findings = duplicateMessages r.findings := by
  have hstep : ∀ (r : Resolution) (findings : List Finding),
      (∀ f ∈ findings, f.problem.tellsDuplicate = false) →
      duplicateMessages (r.reportAll findings).findings = duplicateMessages r.findings := by
    intro r findings h
    rw [reportAll, duplicateMessages_append, messages_of_silent h, List.append_nil]
  refine (hstep _ _ ?_).trans ((hstep _ _ ?_).trans (hstep _ _ ?_))
  all_goals exact List.forall_mem_map.mpr fun _ _ => rfl

theorem messages_checkHeader (r : Resolution) (c : Component) (file : String) :
    duplicateMessages (r.checkHeader c file).findings =
      duplicateMessages r.findings ++ duplicateMessages (clauseFindings .input c.inputs ++
        clauseFindings .output c.outputs ++ duplicateFindings .configuration c.configuration) := by
  have hsilent := (((Passes.refl r).reportIf (Path.stem file != c.name.name) c.name.span
    (.misnamedFile c.name.name) rfl).reportIf (c.isLeaf && isPairClause
      c.inputs) c.span .inputPair rfl).reportIf
      (c.isLeaf && isPairClause c.outputs) c.span .outputPair rfl
  have hchecked : (r.checkHeader c file).findings = (r.checkedHeader c file).findings := by
    have hfold : ∀ r : Resolution,
        (c.configuration.foldl addConfiguration r).findings = r.findings :=
      foldl_keeps (fun r => r.findings) (fun r id => by unfold addConfiguration; split <;> rfl)
        c.configuration
    rw [checkHeader_eq]
    dsimp only
    split <;> exact hfold _
  rw [hchecked]
  simp only [checkedHeader, reportAll, duplicateMessages_append, List.append_assoc]
  exact congrArg (· ++ _) hsilent.adds.messages

theorem messages_addDeclarations (r : Resolution) (ds : List Declaration) :
    duplicateMessages (r.addDeclarations ds).findings =
      duplicateMessages r.findings ++ duplicateMessages
        (duplicateFindings .component (ds.map Declaration.name)) := by
  rw [← duplicateMessages_append]
  exact ((Adds.refl _).foldl (fun r (x : Declaration × Nat) => adds_addDeclaration r x.2 x.1)
    ds.zipIdx).messages

theorem messages_duplicateFindings (clause : Clause) (ids : List Ident) :
    duplicateMessages (duplicateFindings clause ids) =
      ((duplicates ids).map Ident.name).map fun name =>
        (Problem.duplicateName clause name).message := by
  have hall : (duplicateFindings clause ids).filter (fun f => f.problem.code = "E0101") =
      duplicateFindings clause ids := by
    refine List.filter_eq_self.mpr fun f hf => ?_
    obtain ⟨id, -, rfl⟩ := List.mem_map.mp hf
    rfl
  rw [duplicateMessages, hall, duplicateFindings, List.map_map, List.map_map]
  rfl

end Resolution

/-- The same clause up to the order of its names, in each half of a pair on its own. -/
def SignalClause.Reordered : SignalClause → SignalClause → Prop
  | flat names, flat names' => SameNames names names'
  | pair top bottom, pair top' bottom' => SameNames top top' ∧ SameNames bottom bottom'
  | _, _ => False

instance (clause clause' : SignalClause) : Decidable (clause.Reordered clause') :=
  match clause, clause' with
  | .flat _, .flat _ => inferInstanceAs (Decidable (List.Perm _ _))
  | .pair _ _, .pair _ _ => inferInstanceAs (Decidable (List.Perm _ _ ∧ List.Perm _ _))
  | .flat _, .pair _ _ | .pair _ _, .flat _ => inferInstanceAs (Decidable False)

/-- The lists of the second component have the names of those of the first, in whatever order. -/
structure Component.Reordered (c c' : Component) : Prop where
  inputs : c.inputs.Reordered c'.inputs
  outputs : c.outputs.Reordered c'.outputs
  configuration : SameNames c.configuration c'.configuration
  declarations : SameNames (c.declarations.map Declaration.name)
      (c'.declarations.map Declaration.name)

instance (c c' : Component) : Decidable (c.Reordered c') :=
  decidable_of_iff (c.inputs.Reordered c'.inputs ∧ c.outputs.Reordered c'.outputs ∧
      List.Perm (c.configuration.map Ident.name) (c'.configuration.map Ident.name) ∧
      List.Perm ((c.declarations.map Declaration.name).map Ident.name)
        ((c'.declarations.map Declaration.name).map Ident.name))
    ⟨fun ⟨hi, ho, hc, hd⟩ => ⟨hi, ho, hc, hd⟩, fun ⟨hi, ho, hc, hd⟩ => ⟨hi, ho, hc, hd⟩⟩

theorem SameNames.messages {ids ids' : List Ident} (h : SameNames ids ids') (clause : Clause) :
    (duplicateMessages (Resolution.duplicateFindings clause ids)).Perm
      (duplicateMessages (Resolution.duplicateFindings clause ids')) := by
  rw [Resolution.messages_duplicateFindings, Resolution.messages_duplicateFindings]
  exact h.duplicates.map _

open Resolution in
theorem SignalClause.Reordered.messages {signals signals' : SignalClause}
    (h : signals.Reordered signals') (clause : Clause) :
    (duplicateMessages (clauseFindings clause signals)).Perm
      (duplicateMessages (clauseFindings clause signals')) := by
  cases signals with
  | flat names =>
    cases signals' with
    | flat names' => exact SameNames.messages h clause
    | pair top' bottom' => exact h.elim
  | pair top bottom =>
    cases signals' with
    | flat names' => exact h.elim
    | pair top' bottom' =>
      simp only [clauseFindings, duplicateMessages_append]
      exact (SameNames.messages h.1 clause).append (SameNames.messages h.2 clause)

namespace Program

open Resolution in
theorem messages_resolve (p : Program) (file : String) (registry : Registry) (files : FileTree) :
    duplicateMessages (p.resolve file registry files).findings =
      duplicateMessages (clauseFindings .input p.component.inputs) ++
        duplicateMessages (clauseFindings .output p.component.outputs) ++
        duplicateMessages (duplicateFindings .configuration p.component.configuration) ++
        duplicateMessages (duplicateFindings .component
            (p.component.declarations.map Declaration.name)) := by
  have hdefined : duplicateMessages (p.resolve file registry files).findings =
      duplicateMessages (p.declared file registry files).findings := by
    cases hdef : p.component.definition with
    | arrow e =>
      rw [resolve_arrow hdef, messages_reportUnused, (passes_resolveArrow e _).adds.messages]
    | leaf body =>
      rw [resolve_leaf hdef, messages_reportUnused, (passes_resolveLeaf body _).adds.messages]
  have himports := ((Adds.refl (.start p.component)).foldl
    (adds_addImport registry files p.component.isLeaf) p.imports).messages
  have hstart : duplicateMessages (start p.component).findings = [] := rfl
  calc duplicateMessages (p.resolve file registry files).findings
    _ = duplicateMessages (p.declared file registry files).findings := hdefined
    _ = _ := by
      rw [declared, messages_addDeclarations, messages_checkHeader, himports, hstart,
        List.nil_append]
      simp only [duplicateMessages_append]

theorem perm_messages {p q : Program} (h : p.component.Reordered q.component) (file : String)
    (registry : Registry) (files : FileTree) :
    (duplicateMessages (p.resolve file registry files).findings).Perm
      (duplicateMessages (q.resolve file registry files).findings) := by
  rw [messages_resolve, messages_resolve]
  exact (((h.inputs.messages _).append (h.outputs.messages _)).append
    (h.configuration.messages _)).append
    (h.declarations.messages _)

/-- The repeated names of a list are those that occur at least twice, each listed once, at its
second occurrence and in the order of these. So no order in which a component writes its names
changes what is said about repeated ones. -/
theorem duplicates_reported_once :
    (∀ ids : List Ident,
      duplicates ids =
        (ids.zipIdx.filter fun x => ((ids.take x.2).map Ident.name).count x.1.name =
          1).map Prod.fst ∧
      ∀ name, ((duplicates ids).map Ident.name).count name = if 2 ≤
        (ids.map Ident.name).count name then 1 else 0) ∧
    ∀ (p q : Program) (file : String) (registry : Registry) (files : FileTree),
    p.component.Reordered q.component →
      (duplicateMessages (p.resolve file registry files).findings).Perm
        (duplicateMessages (q.resolve file registry files).findings) :=
  ⟨fun ids => ⟨duplicatesAfter_eq_secondsAfter [] ids, count_duplicates ids⟩,
    fun _ _ file registry files h => perm_messages h file registry files⟩

/-- A component in every list of which a name is repeated. -/
def repeating : String :=
  "component c inputs a, b, a, b outputs (x, y, y), (z, z) configuration j, k, j "
    ++ "declare l := new m r := new m l := new m as l"

def reordering : String :=
  "component c inputs b, a, b, a outputs (y, x, y), (z, z) configuration k, j, j "
    ++ "declare r := new m l := new m l := new m as l"

def repeatedNames : List String :=
  [("input", "b"), ("input", "a"), ("output", "y"), ("output", "z"), ("configuration", "j"),
    ("component", "l")].map fun x => x.1 ++ " declaration contains duplicate identifier " ++ x.2

theorem reordering_reported :
    ∃ p ∈ (Parsed.ofSource repeating).program, ∃ q ∈ (Parsed.ofSource reordering).program,
      p.component.Reordered q.component ∧
      duplicateMessages (q.resolve "c.pcl" .empty .empty).findings = repeatedNames ∧
      (duplicateMessages (p.resolve "c.pcl" .empty .empty).findings).Perm repeatedNames := by
  have hfacts : ∃ p ∈ (Parsed.ofSource repeating).program,
      ∃ q ∈ (Parsed.ofSource reordering).program,
      p.component.Reordered q.component ∧
      duplicateMessages (q.resolve "c.pcl" .empty .empty).findings = repeatedNames := by
    decide +kernel
  obtain ⟨p, hp, q, hq, hreordered, hmessages⟩ := hfacts
  have hperm := duplicates_reported_once.2 p q "c.pcl" .empty .empty hreordered
  exact ⟨p, hp, q, hq, hreordered, hmessages, hmessages ▸ hperm⟩

end Program

end PipelineLang
