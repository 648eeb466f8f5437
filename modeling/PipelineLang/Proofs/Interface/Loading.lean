import PipelineLang.Proofs.Interface.Registry

/-!
What a load leaves behind. A text that cannot be read changes nothing, and one that loads adds all
its interfaces. A manifest with a module that is known already is loaded up to that module: nothing
is taken back.
-/

namespace PipelineLang

namespace Table

variable {κ : Type} [Ord κ] {α : Type}

theorem length_insertEntry {k : κ} {v : α} {l : List (κ × α)}
    (h : (l.find? fun e => compare k e.1 == .eq) = none) :
    (insertEntry k v l).length = l.length + 1 := by
  induction l with
  | nil => rfl
  | cons e rest ih =>
    rw [List.find?_cons] at h
    rw [insertEntry]
    split
    · rfl
    · rename_i heq
      simp [heq] at h
    · rename_i hgt
      simp only [hgt] at h
      rw [List.length_cons, ih h, List.length_cons]

def front (t : Table κ α) {first rest : List (κ × α)} (h : t.entries = first ++ rest) :
    Table κ α where
  entries := first
  sorted := t.sorted.sublist (by rw [h, List.map_append]; exact List.sublist_append_left _ _)

variable [Std.LawfulEqOrd κ] [Std.TransOrd κ]

theorem size_insert {t : Table κ α} {k : κ} (h : t.get? k = none) (v : α) :
    (t.insert k v).size = t.size + 1 :=
  length_insertEntry (Option.map_eq_none_iff.mp h)

theorem size_foldl_insert [DecidableEq κ] {l : List (κ × α)} (hl : (l.map Prod.fst).Nodup)
    {t : Table κ α} (h : ∀ e ∈ l, t.get? e.1 = none) :
    (l.foldl (fun t e => t.insert e.1 e.2) t).size = t.size + l.length := by
  induction l generalizing t with
  | nil => rfl
  | cons e l ih =>
    obtain ⟨hhead, htail⟩ := List.nodup_cons.mp hl
    obtain ⟨hfree, hrest⟩ := List.forall_mem_cons.mp h
    have hrest' : ∀ d ∈ l, (t.insert e.1 e.2).get? d.1 = none := by
      intro d hd
      have hne : d.1 ≠ e.1 := fun heq => hhead (heq ▸ List.mem_map_of_mem hd)
      rw [get?_insert, if_neg hne]
      exact hrest d hd
    rw [List.foldl_cons, ih htail hrest', size_insert hfree, List.length_cons]
    omega

theorem size_merge [DecidableEq κ] {s t : Table κ α} (h : s.Apart t) :
    (s.merge t).size = s.size + t.size := by
  refine size_foldl_insert t.nodup_keys fun e he => ?_
  exact (h e.1).resolve_right (by simp [mem_entries_iff.mp he])

end Table

namespace Manifest

/-- The interfaces of a manifest in the order in which they are loaded: components first, each kind
by module. -/
def listed (m : Manifest) : List (String × (ComponentSignature ⊕ FunctionPackage)) :=
  m.components.entries.map (Prod.map id .inl) ++ m.packages.entries.map (Prod.map id .inr)

theorem length_listed (m : Manifest) : m.listed.length = m.components.size + m.packages.size := by
  simp [listed, Table.size]

end Manifest

namespace Registry

/-- The place that the interface which a module has of the same kind as this one comes from. -/
def origin? (r : Registry) (module : String) : ComponentSignature ⊕ FunctionPackage → Option String
  | .inl _ => (r.components.get? module).map Prod.snd
  | .inr _ => (r.packages.get? module).map Prod.snd

def adding (r : Registry) (m : Manifest) (origin : String) : Registry where
  components := r.components.merge (m.components.mapValues fun a => (a, origin))
  packages := r.packages.merge (m.packages.mapValues fun a => (a, origin))
  searchPaths := r.searchPaths

/-- `s` is `r` with the interfaces of `added` from `origin`, and `r` has none of their modules. -/
structure Extends (r : Registry) (added : Manifest) (origin : String) (s : Registry) : Prop where
  apart : r.manifest.Apart added
  eq : s = r.adding added origin

section InsertNew

variable {α : Type} {origin : String} {t : Table String (α × String)}

theorem insertNew_append {l rest : List (String × α)} (h : (insertNew origin t l).2 = none) :
    insertNew origin t (l ++ rest) = insertNew origin (insertNew origin t l).1 rest := by
  induction l generalizing t with
  | nil => rfl
  | cons e l ih =>
    rw [insertNew] at h
    rw [List.cons_append, insertNew, insertNew]
    cases hfree : t.get? e.1 with
    | some first => simp [hfree] at h
    | none =>
      rw [hfree] at h
      exact ih h

theorem insertNew_clash {m added : Table String α} {module : String} {a : α}
    {rest : List (String × α)} (hm : m.entries = added.entries ++ (module, a) :: rest)
    (hadded : t.Apart added) {first : String} (hfirst : (t.get? module).map Prod.snd = some first) :
    insertNew origin t m.entries =
      (t.merge (added.mapValues fun a => (a, origin)), some (.duplicate module first origin)) := by
  have hfront := insertNew_entries origin hadded
  have hkeys := m.nodup_keys
  rw [hm, List.map_append, List.map_cons] at hkeys
  have hfresh : added.get? module = none := by
    cases hget : added.get? module with
    | none => rfl
    | some b =>
      have hmem : module ∈ added.entries.map Prod.fst :=
        List.mem_map_of_mem (Table.mem_entries_iff.mpr hget)
      exact absurd rfl (List.nodup_append.mp hkeys |>.2.2 _ hmem _ List.mem_cons_self)
  obtain ⟨⟨b, place⟩, hget, rfl⟩ := Option.map_eq_some_iff.mp hfirst
  have htaken : (t.merge (added.mapValues fun a => (a, origin))).get? module = some (b, place) := by
    rw [Table.get?_merge, Table.get?_mapValues, hfresh, hget]
    rfl
  rw [hm, insertNew_append (by rw [hfront]), hfront, insertNew, htaken]

theorem insertNew_cases (origin : String) (t : Table String (α × String)) (m : Table String α) :
    t.Apart m ∧ insertNew origin t m.entries = (t.merge (m.mapValues fun a => (a, origin)), none) ∨
      ∃ (added : Table String α) (module : String) (a : α) (rest : List (String × α))
        (first : String),
        m.entries = added.entries ++ (module, a) :: rest ∧ t.Apart added
          ∧ (t.get? module).map Prod.snd = some first
          ∧ insertNew origin t m.entries =
              (t.merge (added.mapValues fun a => (a, origin)),
                some (.duplicate module first origin)) := by
  cases hclash : m.entries.find? (fun e => (t.get? e.1).isSome) with
  | none =>
    have hapart : t.Apart m := by
      intro k
      cases hk : m.get? k with
      | none => exact Or.inr rfl
      | some a => simpa using List.find?_eq_none.mp hclash (k, a) (Table.mem_entries_iff.mpr hk)
    exact Or.inl ⟨hapart, insertNew_entries origin hapart⟩
  | some e =>
    obtain ⟨module, a⟩ := e
    obtain ⟨htaken, front, rest, hm, hfree⟩ := List.find?_eq_some_iff_append.mp hclash
    obtain ⟨⟨b, first⟩, hget⟩ := Option.isSome_iff_exists.mp htaken
    have hfirst : (t.get? module).map Prod.snd = some first := by rw [hget]; rfl
    have hadded : t.Apart (m.front hm) := by
      intro k
      cases hk : (m.front hm).get? k with
      | none => exact Or.inr rfl
      | some b => simpa using hfree (k, b) (Table.mem_entries_iff.mpr hk)
    exact Or.inr ⟨m.front hm, module, a, rest, first, hm, hadded, hfirst,
      insertNew_clash hm hadded hfirst⟩

end InsertNew

namespace Extends

variable {r s : Registry} {added : Manifest} {origin : String} (h : r.Extends added origin s)
include h

theorem get?_components (module : String) :
    s.components.get? module =
      ((added.components.get? module).map fun a => (a, origin)).or (r.components.get? module) := by
  rw [h.eq, adding, Table.get?_merge, Table.get?_mapValues]

theorem get?_packages (module : String) :
    s.packages.get? module = ((added.packages.get? module).map fun a => (a, origin)).or
      (r.packages.get? module) := by
  rw [h.eq, adding, Table.get?_merge, Table.get?_mapValues]

theorem size : s.size = r.size + added.listed.length := by
  have hcomponents := (Table.apart_mapValues_iff (fun a => (a, origin)) _ _).mpr
    ((Table.apart_mapValues_iff _ _ _).mp h.apart.1).symm
  have hpackages := (Table.apart_mapValues_iff (fun a => (a, origin)) _ _).mpr
    ((Table.apart_mapValues_iff _ _ _).mp h.apart.2).symm
  simp only [h.eq, Registry.size, adding, Table.size_merge hcomponents.symm,
    Table.size_merge hpackages.symm, Table.size_mapValues, Manifest.length_listed]
  omega

theorem keeps (module : String) :
    (∀ entry, r.components.get? module = some entry → s.components.get? module = some entry)
      ∧ ∀ entry, r.packages.get? module = some entry → s.packages.get? module = some entry := by
  obtain ⟨hcomponents, hpackages⟩ := h.apart
  constructor
  · intro entry hentry
    have hnew := (hcomponents module).resolve_left (by simp [Registry.get?_components, hentry])
    rw [h.get?_components, hnew, hentry]
    rfl
  · intro entry hentry
    have hnew := (hpackages module).resolve_left (by simp [Registry.get?_packages, hentry])
    rw [h.get?_packages, hnew, hentry]
    rfl

theorem offers (files : FileTree) (module : String) :
    (∀ signature, added.components.get? module = some signature → (s.component files module).2 =
      .ok signature)
      ∧ ∀ package, added.packages.get? module = some package →
      (s.functions files module).2 = .ok package := by
  constructor
  · intro signature hsignature
    rw [component, h.get?_components, hsignature]
    rfl
  · intro package hpackage
    rw [functions, h.get?_packages, hpackage]
    rfl

end Extends

/-- A manifest is loaded in full, or up to the first module that is known. -/
theorem loadManifest_cases (r : Registry) (m : Manifest) (origin : String) :
    (∃ s, r.loadManifest m origin = (s, .ok m.listed.length) ∧ r.Extends m origin s) ∨
      ∃ s added module interface rest first, m.listed = added.listed ++ (module, interface) :: rest
        ∧ r.origin? module interface = some first ∧ r.Extends added origin s
        ∧ r.loadManifest m origin = (s, .error (.duplicate module first origin)) := by
  rcases insertNew_cases origin r.components m.components with
    ⟨hcomponents, hc⟩ | ⟨added, module, a, rest, first, hm, hadded, hfirst, hc⟩
  · have hcomponents' := (Table.apart_mapValues_iff Prod.fst _ _).mpr hcomponents
    rcases insertNew_cases origin r.packages m.packages with
      ⟨hpackages, hp⟩ | ⟨added, module, a, rest, first, hm, hadded, hfirst, hp⟩
    · refine Or.inl ⟨r.adding m origin, ?_,
        ⟨hcomponents', (Table.apart_mapValues_iff _ _ _).mpr hpackages⟩, rfl⟩
      rw [loadManifest, hc, hp, m.length_listed]
      rfl
    · refine Or.inr ⟨r.adding ⟨m.components, added⟩ origin, ⟨m.components, added⟩, module, .inr a,
        rest.map (Prod.map id .inr), first, ?_, hfirst,
        ⟨⟨hcomponents', (Table.apart_mapValues_iff _ _ _).mpr hadded⟩, rfl⟩, ?_⟩
      · simp [Manifest.listed, hm]
      · rw [loadManifest, hc, hp]
        rfl
  · refine Or.inr ⟨r.adding ⟨added, .empty⟩ origin, ⟨added, .empty⟩, module, .inl a,
      rest.map (Prod.map id .inl) ++ m.packages.entries.map (Prod.map id .inr), first, ?_, hfirst,
      ⟨⟨(Table.apart_mapValues_iff _ _ _).mpr hadded, fun _ => Or.inr rfl⟩, rfl⟩, ?_⟩
    · simp [Manifest.listed, hm, Table.empty]
    · rw [loadManifest, hc]
      rfl

/-- Loading a text that is no manifest changes nothing. When a module of the manifest is known
already, the interfaces listed before it have been added, and no others. A load that succeeds adds
all of them, and each can be looked up. In no case is an interface changed that was there before. -/
theorem loadText_extends (r : Registry) (text origin : String) :
    (∀ e, (r.loadText text origin).2 = .error e →
      Manifest.read? text = none ∧ e = .badManifest origin ∧ (r.loadText text origin).1 = r ∨
        ∃ m added module interface rest first, Manifest.read? text = some m
          ∧ m.listed = added.listed ++ (module, interface) :: rest
          ∧ r.origin? module interface = some first ∧ e = .duplicate module first origin
          ∧ r.Extends added origin (r.loadText text origin).1)
    ∧ (∀ n, (r.loadText text origin).2 = .ok n →
      (r.loadText text origin).1.size = r.size + n
        ∧ ∃ m, Manifest.read? text = some m ∧ n = m.listed.length ∧
        r.Extends m origin (r.loadText text origin).1
          ∧ ∀ files module,
            (∀ signature, m.components.get? module = some signature →
              ((r.loadText text origin).1.component files module).2 = .ok signature)
            ∧ ∀ package, m.packages.get? module = some package →
              ((r.loadText text origin).1.functions files module).2 = .ok package)
    ∧ ∀ module,
      (∀ entry, r.components.get? module = some entry →
        (r.loadText text origin).1.components.get? module = some entry)
      ∧ ∀ entry, r.packages.get? module = some entry →
        (r.loadText text origin).1.packages.get? module = some entry := by
  rw [loadText]
  cases hread : Manifest.read? text with
  | none =>
    refine ⟨fun e he => Or.inl ⟨rfl, ?_, rfl⟩, fun n hn => ?_, fun _ => ⟨fun _ => id, fun _ => id⟩⟩
    · cases he
      rfl
    · cases hn
  | some m =>
    dsimp only
    rcases r.loadManifest_cases m origin with
      ⟨s, hload, hextends⟩ | ⟨s, added, module, interface, rest, first, hm, hfirst, hextends, hload⟩
    · rw [hload]
      refine ⟨fun e he => ?_, fun n hn => ?_, hextends.keeps⟩
      · cases he
      · cases hn
        exact ⟨hextends.size, m, rfl, rfl, hextends, hextends.offers⟩
    · rw [hload]
      refine ⟨fun e he => Or.inr ?_, fun n hn => ?_, hextends.keeps⟩
      · cases he
        exact ⟨m, added, module, interface, rest, first, rfl, hm, hfirst, rfl, hextends⟩
      · cases hn

def oneModule : Registry := empty.insertComponent "m" default

def clashingText : String := (oneModule.insertComponent "a" default).canonicalText

theorem loadText_clashing :
    oneModule.loadText clashingText "m.json" =
      (oneModule.adding (empty.insertComponent "a" default).manifest "m.json",
        .error (.duplicate "m" "<memory>" "m.json")) := by
  rw [loadText, clashingText, canonicalText, Manifest.read?_compact]
  rfl

theorem clashing_partly_loaded :
    (oneModule.loadText clashingText "m.json").2 = .error (.duplicate "m" "<memory>" "m.json")
      ∧ (∃ added, oneModule.Extends added "m.json" (oneModule.loadText clashingText "m.json").1)
      ∧ (oneModule.loadText clashingText "m.json").1.components.get? "m" =
        some (default, "<memory>") := by
  have hresult := congrArg Prod.snd loadText_clashing
  obtain ⟨herror, -, hkept⟩ := loadText_extends oneModule clashingText "m.json"
  refine ⟨hresult, ?_, (hkept "m").1 _ rfl⟩
  rcases herror _ hresult with ⟨-, hbad, -⟩ | ⟨_, added, _, _, _, _, -, -, -, -, hextends⟩
  · cases hbad
  · exact ⟨added, hextends⟩

/-- After an error the registry is not the one before. -/
theorem clashing_not_undone :
    (oneModule.loadText clashingText "m.json").2 = .error (.duplicate "m" "<memory>" "m.json")
      ∧ (oneModule.loadText clashingText "m.json").1 ≠ oneModule := by
  rw [loadText_clashing]
  refine ⟨rfl, fun h => ?_⟩
  have hsize : 2 = 1 := congrArg size h
  cases hsize

end Registry

end PipelineLang
