import Mathlib.Data.List.Sort
import PipelineLang.Collection.Table
import PipelineLang.Signal

/-! Sets of names are determined by their members, and tables by what they give for each key. -/

namespace PipelineLang

namespace NameSet

@[ext] theorem ext {s t : NameSet} (h : ∀ z, z ∈ s ↔ z ∈ t) : s = t := by
  obtain ⟨xs, hx⟩ := s
  obtain ⟨ys, hy⟩ := t
  simp only [mk.injEq]
  exact hx.eq_of_mem_iff hy h

@[simp] theorem union_self (s : NameSet) : s.union s = s := by
  ext z
  simp

@[simp] theorem contains_iff {s : NameSet} {x : String} : s.contains x = true ↔ x ∈ s :=
  List.contains_iff_mem

@[simp] theorem mem_ofIdents {ids : List Ident} {z : String} :
    z ∈ ofIdents ids ↔ ∃ id ∈ ids, id.name = z := by
  simp [ofIdents]

theorem eq_ofIdents_iff {s : NameSet} {ids : List Ident} :
    s = ofIdents ids ↔ ∀ x, x ∈ s ↔ ∃ id ∈ ids, id.name = x := by
  constructor
  · rintro rfl x
    exact mem_ofIdents
  · intro h
    ext x
    rw [h, mem_ofIdents]

end NameSet

namespace Table

variable {κ : Type} [Ord κ] {α β : Type}

theorem get?_mapValues (f : α → β) (t : Table κ α) (k : κ) :
    (t.mapValues f).get? k = (t.get? k).map f := by
  simp only [get?, mapValues, List.find?_map, Option.map_map, Function.comp_def]

@[simp] theorem size_mapValues (f : α → β) (t : Table κ α) : (t.mapValues f).size = t.size := by
  simp [size, mapValues]

variable [Std.LawfulEqOrd κ]

theorem find?_eq_some_iff {l : List (κ × α)} (h : (l.map Prod.fst).Nodup) {k : κ} {v : α} :
    (l.find? fun e => compare k e.1 == .eq).map Prod.snd = some v ↔ (k, v) ∈ l := by
  induction l with
  | nil => simp
  | cons e rest ih =>
    obtain ⟨hhead, htail⟩ := List.nodup_cons.mp h
    rw [List.find?_cons]
    by_cases hk : k = e.1
    · subst hk
      have hrest : (e.1, v) ∉ rest := fun hmem => hhead (List.mem_map.mpr ⟨(e.1, v), hmem, rfl⟩)
      simp [hrest, Prod.ext_iff, eq_comm]
    · have hne : (compare k e.1 == .eq) = false := by simpa using hk
      have he : (k, v) ≠ e := fun he => hk (by rw [← he])
      simp [hne, he, ih htail]

theorem nodup_keys (t : Table κ α) : (t.entries.map Prod.fst).Nodup :=
  t.sorted.imp fun {a b} hlt heq => by simp [heq] at hlt

theorem mem_entries_iff {t : Table κ α} {k : κ} {v : α} : (k, v) ∈ t.entries ↔ t.get? k = some v :=
  (find?_eq_some_iff t.nodup_keys).symm

theorem mem_keys_iff {t : Table κ α} {k : κ} : k ∈ t.keys ↔ (t.get? k).isSome = true := by
  rw [keys, List.mem_map, Option.isSome_iff_exists]
  constructor
  · rintro ⟨⟨_, v⟩, hmem, rfl⟩
    exact ⟨v, mem_entries_iff.mp hmem⟩
  · rintro ⟨v, hv⟩
    exact ⟨(k, v), mem_entries_iff.mpr hv, rfl⟩

variable [Std.TransOrd κ]

theorem ext_get? {s t : Table κ α} (h : ∀ k, s.get? k = t.get? k) : s = t := by
  have hirrefl : Std.Irrefl fun a b : κ × α => compare a.1 b.1 = .lt := ⟨fun a => by simp⟩
  have hanti : Std.Antisymm fun a b : κ × α => compare a.1 b.1 = .lt :=
    ⟨fun a b hab hba => by simp [Std.OrientedCmp.gt_of_lt hab] at hba⟩
  obtain ⟨xs, hx⟩ := s
  obtain ⟨ys, hy⟩ := t
  have hmem : ∀ e, e ∈ xs ↔ e ∈ ys := by
    intro e
    have hs := mem_entries_iff (t := ⟨xs, hx⟩) (k := e.1) (v := e.2)
    have ht := mem_entries_iff (t := ⟨ys, hy⟩) (k := e.1) (v := e.2)
    rw [h] at hs
    exact hs.trans ht.symm
  simp only [mk.injEq]
  exact (List.pairwise_map.mp hx).eq_of_mem_iff (List.pairwise_map.mp hy) hmem

theorem get?_foldl_insert [DecidableEq κ] {l : List (κ × α)} (h : (l.map Prod.fst).Nodup)
    (t : Table κ α) (k : κ) :
    (l.foldl (fun t e => t.insert e.1 e.2) t).get? k =
      ((l.find? fun e => compare k e.1 == .eq).map Prod.snd).or (t.get? k) := by
  induction l generalizing t with
  | nil => rfl
  | cons e rest ih =>
    obtain ⟨hhead, htail⟩ := List.nodup_cons.mp h
    rw [List.foldl_cons, ih htail, get?_insert, List.find?_cons]
    by_cases hk : k = e.1
    · subst hk
      have hrest : (rest.find? fun d => compare e.1 d.1 == .eq) = none := by
        rw [List.find?_eq_none]
        intro d hd heq
        have hd' : e.1 = d.1 := by simpa using heq
        exact hhead (hd' ▸ List.mem_map_of_mem hd)
      simp [hrest]
    · have hne : (compare k e.1 == .eq) = false := by simpa using hk
      simp [hne, hk]

theorem get?_ofList [DecidableEq κ] {l : List (κ × α)} (h : (l.map Prod.fst).Nodup) (k : κ) :
    (ofList l).get? k = (l.find? fun e => compare k e.1 == .eq).map Prod.snd := by
  rw [ofList, get?_foldl_insert h, get?_empty, Option.or_none]

theorem ofList_entries [DecidableEq κ] (t : Table κ α) : ofList t.entries = t := by
  apply ext_get?
  intro k
  rw [get?_ofList t.nodup_keys, get?]

end Table

end PipelineLang
