import PipelineLang.Compilation.State
import PipelineLang.Proofs.Interface.Manifest

/-!
Loading manifests. A manifest loads exactly if none of its modules is known yet, and adds its
modules to those that are; what a registry offers depends only on the modules that it holds and its
search path.
-/

namespace PipelineLang

variable {r s a : Registry} {m n : Manifest} {ms : List (String × String)}

namespace Table

variable {κ : Type} [Ord κ] {α β : Type}

def Apart (s : Table κ α) (t : Table κ β) : Prop := ∀ k, s.get? k = none ∨ t.get? k = none

theorem Apart.symm {s : Table κ α} {t : Table κ β} (h : s.Apart t) : t.Apart s :=
  fun k => (h k).symm

theorem apart_mapValues_iff {γ : Type} (f : α → β) (s : Table κ α) (t : Table κ γ) :
    (s.mapValues f).Apart t ↔ s.Apart t := by
  simp [Apart, get?_mapValues]

variable [Std.TransOrd κ] [Std.LawfulEqOrd κ]

/-- The entries of both tables; of one key that of the second counts. -/
def merge (s t : Table κ α) : Table κ α := t.entries.foldl (fun s e => s.insert e.1 e.2) s

theorem get?_merge [DecidableEq κ] (s t : Table κ α) (k : κ) :
    (s.merge t).get? k = (t.get? k).or (s.get? k) :=
  get?_foldl_insert t.nodup_keys s k

theorem mapValues_merge [DecidableEq κ] (f : α → β) (s t : Table κ α) :
    (s.merge t).mapValues f = (s.mapValues f).merge (t.mapValues f) := by
  apply ext_get?
  intro k
  simp only [get?_merge, get?_mapValues, Option.map_or]

theorem merge_right_comm [DecidableEq κ] {s t u : Table κ α} (h : t.Apart u) :
    (s.merge t).merge u = (s.merge u).merge t := by
  apply ext_get?
  intro k
  simp only [get?_merge]
  rcases h k with h | h <;> simp [h]

theorem apart_merge_iff [DecidableEq κ] {s t u : Table κ α} :
    (s.merge t).Apart u ↔ s.Apart u ∧ t.Apart u := by
  simp only [Apart, get?_merge, Option.or_eq_none_iff]
  grind

theorem empty_merge [DecidableEq κ] (t : Table κ α) : (empty : Table κ α).merge t = t := by
  apply ext_get?
  intro k
  simp [get?_merge]

end Table

namespace Manifest

def Apart (m n : Manifest) : Prop := m.components.Apart n.components ∧ m.packages.Apart n.packages

def merge (m n : Manifest) : Manifest :=
  ⟨m.components.merge n.components, m.packages.merge n.packages⟩

theorem merge_right_comm {p : Manifest} (h : n.Apart p) :
    (m.merge n).merge p = (m.merge p).merge n := by
  simp [merge, Table.merge_right_comm h.1, Table.merge_right_comm h.2]

theorem apart_merge_iff {p : Manifest} : (m.merge n).Apart p ↔ m.Apart p ∧ n.Apart p := by
  simp only [Apart, merge, Table.apart_merge_iff]
  tauto

theorem Apart.symm (h : m.Apart n) : n.Apart m := ⟨h.1.symm, h.2.symm⟩

end Manifest

namespace Registry

variable {α : Type}

theorem insertNew_of_apart (origin : String) {l : List (String × α)}
    (hl : (l.map Prod.fst).Pairwise (fun a b => compare a b = .lt)) {t : Table String (α × String)}
    (h : ∀ e ∈ l, t.get? e.1 = none) :
    insertNew origin t l = (l.foldl (fun t e => t.insert e.1 (e.2, origin)) t, none) := by
  induction l generalizing t with
  | nil => rfl
  | cons e l ih =>
    obtain ⟨hhead, htail⟩ := List.pairwise_cons.mp hl
    obtain ⟨module, a⟩ := e
    have hfree : t.get? module = none := h (module, a) List.mem_cons_self
    rw [insertNew, hfree]
    refine ih htail fun d hd => ?_
    have hne : d.1 ≠ module := by
      intro heq
      have hlt := hhead d.1 (List.mem_map_of_mem hd)
      simp [heq] at hlt
    rw [Table.get?_insert, if_neg hne]
    exact h d (List.mem_cons_of_mem _ hd)

theorem free_of_insertNew {origin : String} {l : List (String × α)}
    {t : Table String (α × String)} (h : (insertNew origin t l).2 = none) :
    ∀ e ∈ l, t.get? e.1 = none := by
  induction l generalizing t with
  | nil => simp
  | cons e l ih =>
    obtain ⟨module, a⟩ := e
    rw [insertNew] at h
    cases hfree : t.get? module with
    | some first => simp [hfree] at h
    | none =>
      rw [hfree] at h
      intro d hd
      rcases List.mem_cons.mp hd with rfl | hd
      · exact hfree
      · have hrest := ih h d hd
        rw [Table.get?_insert] at hrest
        split at hrest
        · simp at hrest
        · exact hrest

theorem insertNew_entries (origin : String) {t : Table String (α × String)}
    {m : Table String α} (h : t.Apart m) :
    insertNew origin t m.entries = (t.merge (m.mapValues fun a => (a, origin)), none) := by
  have hfree : ∀ e ∈ m.entries, t.get? e.1 = none := by
    intro e he
    rcases h e.1 with hnone | hnone
    · exact hnone
    · simp [Table.mem_entries_iff.mp he] at hnone
  rw [insertNew_of_apart origin m.sorted hfree, Table.merge, Table.mapValues, List.foldl_map]

theorem apart_of_insertNew {origin : String} {t : Table String (α × String)}
    {m : Table String α} (h : (insertNew origin t m.entries).2 = none) : t.Apart m := by
  intro k
  cases hk : m.get? k with
  | none => exact Or.inr rfl
  | some a => exact Or.inl (free_of_insertNew h (k, a) (Table.mem_entries_iff.mpr hk))

theorem values_mapValues (t : Table String α) (origin : String) :
    (t.mapValues fun a => (a, origin)).mapValues Prod.fst = t := by
  apply Table.ext_get?
  intro k
  cases h : t.get? k <;> simp [Table.get?_mapValues, h]

theorem loadManifest_of_apart (r : Registry) (origin : String)
    (h : r.manifest.Apart m) :
    ∃ s, r.loadManifest m origin = (s, .ok (m.components.size + m.packages.size))
      ∧ s.manifest = r.manifest.merge m ∧ s.searchPaths = r.searchPaths := by
  obtain ⟨hcomponents, hpackages⟩ := h
  have hc := insertNew_entries origin ((Table.apart_mapValues_iff _ _ _).mp hcomponents)
  have hp := insertNew_entries origin ((Table.apart_mapValues_iff _ _ _).mp hpackages)
  refine ⟨⟨r.components.merge (m.components.mapValues fun s => (s, origin)),
    r.packages.merge (m.packages.mapValues fun p => (p, origin)), r.searchPaths⟩, ?_, ?_, rfl⟩
  · rw [loadManifest, hc, hp]
  · simp only [manifest, Manifest.merge, Table.mapValues_merge, values_mapValues]

theorem apart_of_loadManifest {origin : String} {n : Nat}
    (h : r.loadManifest m origin = (s, .ok n)) : r.manifest.Apart m := by
  rw [loadManifest] at h
  cases hc : insertNew origin r.components m.components.entries with
  | mk components fault =>
    cases fault with
    | some e => simp [hc] at h
    | none =>
      cases hp : insertNew origin r.packages m.packages.entries with
      | mk packages fault =>
        cases fault with
        | some e => simp [hc, hp] at h
        | none =>
          constructor
          · exact (Table.apart_mapValues_iff _ _ _).mpr (apart_of_insertNew (by rw [hc]))
          · exact (Table.apart_mapValues_iff _ _ _).mpr (apart_of_insertNew (by rw [hp]))

theorem exists_of_loadText {text origin : String} {n : Nat}
    (h : r.loadText text origin = (s, .ok n)) :
    ∃ m, Manifest.read? text = some m ∧ r.manifest.Apart m
      ∧ s.manifest = r.manifest.merge m ∧ s.searchPaths = r.searchPaths := by
  rw [loadText] at h
  cases hread : Manifest.read? text with
  | none => simp [hread] at h
  | some m =>
    rw [hread] at h
    have hapart := apart_of_loadManifest h
    obtain ⟨s', hload, hmanifest, hpaths⟩ := r.loadManifest_of_apart origin hapart
    obtain rfl : s' = s := congrArg Prod.fst (hload.symm.trans h)
    exact ⟨m, rfl, hapart, hmanifest, hpaths⟩

theorem loadText_of_apart (r : Registry) {text : String} (origin : String)
    (hread : Manifest.read? text = some m) (h : r.manifest.Apart m) :
    ∃ s, r.loadText text origin = (s, .ok (m.components.size + m.packages.size))
      ∧ s.manifest = r.manifest.merge m ∧ s.searchPaths = r.searchPaths := by
  rw [loadText, hread]
  exact r.loadManifest_of_apart origin h

theorem loadText_empty {text : String} (origin : String)
    (hread : Manifest.read? text = some m) :
    ∃ s, empty.loadText text origin = (s, .ok (m.components.size + m.packages.size))
      ∧ s.manifest = m ∧ s.searchPaths = [] := by
  obtain ⟨s, hload, hmanifest, hpaths⟩ :=
    empty.loadText_of_apart origin hread ⟨fun _ => Or.inl rfl, fun _ => Or.inl rfl⟩
  refine ⟨s, hload, ?_, hpaths⟩
  have hcomponents := Table.empty_merge m.components
  have hpackages := Table.empty_merge m.packages
  rw [hmanifest]
  exact congrArg₂ Manifest.mk hcomponents hpackages

theorem get?_components (r : Registry) (module : String) :
    r.manifest.components.get? module = (r.components.get? module).map Prod.fst :=
  Table.get?_mapValues _ _ _

theorem get?_packages (r : Registry) (module : String) :
    r.manifest.packages.get? module = (r.packages.get? module).map Prod.fst :=
  Table.get?_mapValues _ _ _

theorem readModule_congr (h : s.searchPaths = r.searchPaths) (files : FileTree)
    (module : String) : s.readModule files module = r.readModule files module := by
  rw [readModule, readModule, locate, locate, candidates, candidates, h]

theorem component_congr (hm : s.manifest = r.manifest)
    (hp : s.searchPaths = r.searchPaths) (files : FileTree) (module : String) :
    s.component files module = r.component files module := by
  have hget : (s.components.get? module).map Prod.fst =
      (r.components.get? module).map Prod.fst := by
    rw [← get?_components, ← get?_components, hm]
  rw [component, component, readModule_congr hp]
  cases hs : s.components.get? module <;> cases hr : r.components.get? module <;> simp_all

theorem functions_congr (hm : s.manifest = r.manifest)
    (hp : s.searchPaths = r.searchPaths) (files : FileTree) (module : String) :
    s.functions files module = r.functions files module := by
  have hget : (s.packages.get? module).map Prod.fst = (r.packages.get? module).map Prod.fst := by
    rw [← get?_packages, ← get?_packages, hm]
  rw [functions, functions, readModule_congr hp]
  cases hs : s.packages.get? module <;> cases hr : r.packages.get? module <;> simp_all

/-- The registries that are built by inserting interfaces and loading manifests. -/
inductive Reached : Registry → Prop
  | empty : Reached empty
  | insertComponent {r : Registry} (h : Reached r) (module : String) (s : ComponentSignature) :
      Reached (r.insertComponent module s)
  | insertPackage {r : Registry} (h : Reached r) (module : String) (p : FunctionPackage) :
      Reached (r.insertPackage module p)
  | loadText {r s : Registry} (h : Reached r) {text origin : String} {n : Nat}
      (hload : r.loadText text origin = (s, .ok n)) : Reached s

theorem Reached.searchPaths (h : Reached r) : r.searchPaths = [] := by
  induction h with
  | empty => rfl
  | insertComponent _ _ _ ih => exact ih
  | insertPackage _ _ _ ih => exact ih
  | loadText _ hload ih =>
    obtain ⟨m, -, -, -, hpaths⟩ := exists_of_loadText hload
    rw [hpaths, ih]

/-- Manifests, each with the place that it comes from, load one after the other. -/
inductive Loads : Registry → List (String × String) → Registry → Prop
  | nil (r : Registry) : Loads r [] r
  | cons {r s t : Registry} {text origin : String} {rest : List (String × String)} {n : Nat}
      (first : r.loadText text origin = (s, .ok n)) (others : Loads s rest t) :
      Loads r ((text, origin) :: rest) t

theorem Loads.congr (h : Loads r ms a)
    (hs : s.manifest = r.manifest) : ∃ b, Loads s ms b ∧ b.manifest = a.manifest := by
  induction h generalizing s with
  | nil r => exact ⟨s, .nil s, hs⟩
  | @cons r r' _ text origin rest n first others ih =>
    obtain ⟨m, hread, hapart, hr', -⟩ := exists_of_loadText first
    rw [← hs] at hapart hr'
    obtain ⟨s', first', hs', -⟩ := s.loadText_of_apart origin hread hapart
    obtain ⟨b, others', hb⟩ := ih (hs'.trans hr'.symm)
    exact ⟨b, .cons first' others', hb⟩

theorem Loads.swap {x y : String × String}
    (h : Loads r (x :: y :: ms) a) : ∃ b, Loads r (y :: x :: ms) b ∧ b.manifest = a.manifest := by
  obtain ⟨text, origin⟩ := x
  obtain ⟨text', origin'⟩ := y
  cases h with
  | cons first others =>
    cases others with
    | cons second others =>
      obtain ⟨m, hread, hapart, hr₁, -⟩ := exists_of_loadText first
      obtain ⟨m', hread', hapart', hr₂, -⟩ := exists_of_loadText second
      rw [hr₁] at hapart' hr₂
      obtain ⟨hapart', hboth⟩ := Manifest.apart_merge_iff.mp hapart'
      obtain ⟨s₁, second', hs₁, -⟩ := r.loadText_of_apart origin' hread' hapart'
      have hfree : s₁.manifest.Apart m := by
        rw [hs₁]
        exact Manifest.apart_merge_iff.mpr ⟨hapart, hboth.symm⟩
      obtain ⟨s₂, first', hs₂, -⟩ := s₁.loadText_of_apart origin hread hfree
      rw [hs₁, Manifest.merge_right_comm hboth.symm] at hs₂
      obtain ⟨b, others', hb⟩ := others.congr (hs₂.trans hr₂.symm)
      exact ⟨b, .cons second' (.cons first' others'), hb⟩

theorem Loads.perm {ms' : List (String × String)} (hperm : ms.Perm ms')
    (h : Loads r ms a) : ∃ b, Loads r ms' b ∧ b.manifest = a.manifest := by
  induction hperm generalizing r a with
  | nil => exact ⟨a, h, rfl⟩
  | cons x _ ih =>
    cases h with
    | cons first others =>
      obtain ⟨b, others', hb⟩ := ih others
      exact ⟨b, .cons first others', hb⟩
  | swap x y l => exact h.swap
  | trans _ _ ih ih' =>
    obtain ⟨b, hloads, hb⟩ := ih h
    obtain ⟨c, hloads', hc⟩ := ih' hloads
    exact ⟨c, hloads', hc.trans hb⟩

theorem read?_texts (r : Registry) :
    ∀ text ∈ [r.canonicalText, r.prettyText], Manifest.read? text = some r.manifest := by
  intro text htext
  simp only [List.mem_cons, List.not_mem_nil, or_false] at htext
  rcases htext with rfl | rfl
  · exact r.manifest.read?_compact
  · exact r.manifest.read?_pretty

theorem size_manifest (r : Registry) :
    r.manifest.components.size + r.manifest.packages.size = r.size := by
  simp [manifest, size]

/-- A registry is what its texts say, and it does not matter in which order manifests are loaded. -/
theorem reload_and_reorder {r : Registry} (hr : Reached r) :
    (∀ text ∈ [r.canonicalText, r.prettyText], ∀ origin, ∃ s,
      empty.loadText text origin = (s, .ok r.size)
        ∧ (∀ files module, s.component files module = r.component files module
          ∧ s.functions files module = r.functions files module)
        ∧ s.canonicalText = r.canonicalText)
    ∧ ∀ ms a, Loads r ms a → ∀ ms', ms.Perm ms' → ∃ b, Loads r ms' b
        ∧ b.canonicalText = a.canonicalText
        ∧ ∀ source, (Provenance.ofSource source b).interfaces =
          (Provenance.ofSource source a).interfaces := by
  constructor
  · intro text htext origin
    obtain ⟨s, hload, hmanifest, hpaths⟩ := loadText_empty origin (r.read?_texts text htext)
    rw [← hr.searchPaths] at hpaths
    rw [size_manifest] at hload
    refine ⟨s, hload, fun files module => ?_, by rw [canonicalText, hmanifest, canonicalText]⟩
    exact ⟨component_congr hmanifest hpaths files module,
      functions_congr hmanifest hpaths files module⟩
  · intro ms a hloads ms' hperm
    obtain ⟨b, hloads', hmanifest⟩ := hloads.perm hperm
    have htext : b.canonicalText = a.canonicalText := by
      rw [canonicalText, hmanifest, canonicalText]
    exact ⟨b, hloads', htext, fun source => by rw [Provenance.ofSource, htext, Provenance.ofSource]⟩

def sample : Registry :=
  (empty.insertComponent "net.split"
      ⟨some (.flat ["a"]), some (.pair ["b"] []), some ["k"], true, true⟩)
    |>.insertPackage "lib" (Table.empty.insert "f" ⟨["x", "y"], 1, false, true⟩)

theorem reached_sample : Reached sample := (Reached.empty.insertComponent _ _).insertPackage _ _

theorem exists_loads_sample : ∃ a, Loads sample
    [((empty.insertComponent "net.join" default).canonicalText, "join.json"),
      ((empty.insertPackage "tools" .empty).prettyText, "tools.json")] a := by
  have hjoin : sample.manifest.Apart (empty.insertComponent "net.join" default).manifest := by
    refine ⟨fun k => ?_, fun k => Or.inr rfl⟩
    by_cases hk : k = "net.join"
    · subst hk
      exact Or.inl rfl
    · right
      simp [get?_components, insertComponent, hk, empty]
  obtain ⟨s, first, hs, -⟩ := sample.loadText_of_apart "join.json" (Manifest.read?_compact _) hjoin
  have htools : s.manifest.Apart (empty.insertPackage "tools" .empty).manifest := by
    rw [hs]
    refine ⟨fun k => Or.inr rfl, fun k => ?_⟩
    by_cases hk : k = "tools"
    · subst hk
      exact Or.inl rfl
    · right
      simp [get?_packages, insertPackage, hk, empty]
  obtain ⟨t, second, -, -⟩ := s.loadText_of_apart "tools.json" (Manifest.read?_pretty _) htools
  exact ⟨t, .cons first (.cons second (.nil t))⟩

theorem sample_reloaded :
    Reached sample
    ∧ (∃ s, empty.loadText sample.prettyText "sample.json" = (s, .ok 2)
      ∧ s.canonicalText = sample.canonicalText)
    ∧ ∃ a b, Loads sample
        [((empty.insertComponent "net.join" default).canonicalText, "join.json"),
          ((empty.insertPackage "tools" .empty).prettyText, "tools.json")] a
      ∧ Loads sample
        [((empty.insertPackage "tools" .empty).prettyText, "tools.json"),
          ((empty.insertComponent "net.join" default).canonicalText, "join.json")] b
      ∧ b.canonicalText = a.canonicalText := by
  obtain ⟨hreload, hreorder⟩ := reload_and_reorder reached_sample
  obtain ⟨s, hload, -, htext⟩ := hreload sample.prettyText (by simp) "sample.json"
  obtain ⟨a, hloads⟩ := exists_loads_sample
  obtain ⟨b, hloads', htexts, -⟩ := hreorder _ a hloads _ (.swap _ _ _)
  exact ⟨reached_sample, ⟨s, hload, htext⟩, a, b, hloads, hloads', htexts⟩

end Registry

end PipelineLang
