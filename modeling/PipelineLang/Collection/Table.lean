/-! Finite tables whose entries stand in increasing order of their keys. -/

namespace PipelineLang

/-- A finite map; each key has one entry, and entries are listed by key. -/
structure Table (κ : Type) [Ord κ] (α : Type) where
  entries : List (κ × α)
  sorted : (entries.map Prod.fst).Pairwise (fun a b => compare a b = .lt)
deriving DecidableEq

namespace Table

variable {κ : Type} [Ord κ] {α β : Type}

def empty : Table κ α := ⟨[], .nil⟩

instance : Inhabited (Table κ α) := ⟨empty⟩

def get? (t : Table κ α) (k : κ) : Option α :=
  (t.entries.find? fun e => compare k e.1 == .eq).map Prod.snd

@[simp] theorem get?_empty (k : κ) : (empty : Table κ α).get? k = none := rfl

def contains (t : Table κ α) (k : κ) : Bool := (t.get? k).isSome

def keys (t : Table κ α) : List κ := t.entries.map Prod.fst

def size (t : Table κ α) : Nat := t.entries.length

/-- The table with the same keys and every value changed by `f`. -/
def mapValues (f : α → β) (t : Table κ α) : Table κ β where
  entries := t.entries.map fun e => (e.1, f e.2)
  sorted := by simpa [Function.comp_def] using t.sorted

/-- Puts `k` at its place among the entries; an entry for `k` is replaced. -/
def insertEntry (k : κ) (v : α) : List (κ × α) → List (κ × α)
  | [] => [(k, v)]
  | e :: rest =>
    match compare k e.1 with
    | .lt => (k, v) :: e :: rest
    | .eq => (k, v) :: rest
    | .gt => e :: insertEntry k v rest

theorem mem_keys_insertEntry {k x : κ} {v : α} {l : List (κ × α)}
    (h : x ∈ (insertEntry k v l).map Prod.fst) : x = k ∨ x ∈ l.map Prod.fst := by
  induction l with
  | nil => simpa [insertEntry] using h
  | cons e rest ih =>
    simp only [insertEntry] at h
    split at h
    · simpa using h
    · simp only [List.map_cons, List.mem_cons] at h ⊢
      exact h.imp_right Or.inr
    · simp only [List.map_cons, List.mem_cons] at h ⊢
      rcases h with h | h
      · exact Or.inr (Or.inl h)
      · exact (ih h).imp_right Or.inr

theorem sorted_insertEntry [Std.TransOrd κ] [Std.LawfulEqOrd κ] (k : κ) (v : α)
    {l : List (κ × α)} (h : (l.map Prod.fst).Pairwise (fun a b => compare a b = .lt)) :
    ((insertEntry k v l).map Prod.fst).Pairwise (fun a b => compare a b = .lt) := by
  induction l with
  | nil => simp [insertEntry]
  | cons e rest ih =>
    obtain ⟨hhead, htail⟩ := List.pairwise_cons.mp h
    simp only [insertEntry]
    split
    · rename_i hlt
      refine List.pairwise_cons.mpr ⟨fun x hx => ?_, h⟩
      rcases List.mem_cons.mp hx with rfl | hx
      · exact hlt
      · exact Std.TransCmp.lt_trans hlt (hhead x hx)
    · rename_i heq
      have hk := Std.LawfulEqCmp.eq_of_compare heq
      subst hk
      exact h
    · rename_i hgt
      refine List.pairwise_cons.mpr ⟨fun x hx => ?_, ih htail⟩
      rcases mem_keys_insertEntry hx with rfl | hx
      · exact Std.OrientedCmp.gt_iff_lt.mp hgt
      · exact hhead x hx

theorem find?_insertEntry [Std.LawfulEqOrd κ] [DecidableEq κ] (k x : κ) (v : α) (l : List (κ × α)) :
    ((insertEntry k v l).find? fun e => compare x e.1 == .eq).map Prod.snd =
      if x = k then some v
      else (l.find? fun e => compare x e.1 == .eq).map Prod.snd := by
  induction l with
  | nil => by_cases h : x = k <;> simp [insertEntry, h]
  | cons e rest ih =>
    simp only [insertEntry]
    split
    · by_cases h : x = k <;> simp [List.find?_cons, h]
    · rename_i heq
      have hk := Std.LawfulEqCmp.eq_of_compare heq
      by_cases h : x = k <;> simp [h, ← hk]
    · rename_i hgt
      by_cases h : x = k
      · subst h
        simp [hgt, ih]
      · simp only [List.find?_cons]
        split
        · simp [h]
        · exact ih

variable [Std.TransOrd κ] [Std.LawfulEqOrd κ]

def insert (t : Table κ α) (k : κ) (v : α) : Table κ α :=
  ⟨insertEntry k v t.entries, sorted_insertEntry k v t.sorted⟩

/-- Of several entries for one key the last is kept. -/
def ofList (l : List (κ × α)) : Table κ α :=
  l.foldl (fun t e => t.insert e.1 e.2) empty

@[simp] theorem get?_insert [DecidableEq κ] (t : Table κ α) (k x : κ) (v : α) :
    (t.insert k v).get? x = if x = k then some v else t.get? x :=
  find?_insertEntry k x v t.entries

end Table

end PipelineLang
