/-! Finite sets of names, listed in order of code points. -/

namespace PipelineLang

/-- A set of names; two sets with the same members are equal. -/
structure NameSet where
  names : List String
  sorted : names.Pairwise (· < ·)
deriving DecidableEq

namespace NameSet

def empty : NameSet := ⟨[], .nil⟩

instance : Inhabited NameSet := ⟨empty⟩

instance : Membership String NameSet where
  mem s x := x ∈ s.names

instance (x : String) (s : NameSet) : Decidable (x ∈ s) :=
  inferInstanceAs (Decidable (x ∈ s.names))

def contains (s : NameSet) (x : String) : Bool := s.names.contains x

def insertName (x : String) : List String → List String
  | [] => [x]
  | y :: ys => if x < y then x :: y :: ys else if x = y then y :: ys else y :: insertName x ys

theorem mem_insertName {x z : String} {ys : List String} :
    z ∈ insertName x ys ↔ z = x ∨ z ∈ ys := by
  induction ys with
  | nil => simp [insertName]
  | cons y ys ih =>
    simp only [insertName]
    split
    · simp
    · split
      · rename_i h
        simp [h]
      · simp only [List.mem_cons, ih]
        exact or_left_comm

theorem sorted_insertName (x : String) {ys : List String} (h : ys.Pairwise (· < ·)) :
    (insertName x ys).Pairwise (· < ·) := by
  induction ys with
  | nil => simp [insertName]
  | cons y ys ih =>
    obtain ⟨hhead, htail⟩ := List.pairwise_cons.mp h
    simp only [insertName]
    split
    · rename_i hlt
      refine List.pairwise_cons.mpr ⟨fun z hz => ?_, h⟩
      rcases List.mem_cons.mp hz with rfl | hz
      · exact hlt
      · exact String.lt_trans hlt (hhead z hz)
    · split
      · exact h
      · rename_i hlt hne
        refine List.pairwise_cons.mpr ⟨fun z hz => ?_, ih htail⟩
        rcases mem_insertName.mp hz with rfl | hz
        · exact Classical.byContradiction fun hyx =>
            hne (String.le_antisymm (String.not_lt.mp hyx) (String.not_lt.mp hlt))
        · exact hhead z hz

def insert (s : NameSet) (x : String) : NameSet :=
  ⟨insertName x s.names, sorted_insertName x s.sorted⟩

def ofList (xs : List String) : NameSet := xs.foldl insert empty

def union (s t : NameSet) : NameSet := t.names.foldl insert s

@[simp] theorem mem_insert {s : NameSet} {x z : String} : z ∈ s.insert x ↔ z = x ∨ z ∈ s :=
  mem_insertName

theorem mem_foldl_insert {s : NameSet} {xs : List String} {z : String} :
    z ∈ xs.foldl insert s ↔ z ∈ xs ∨ z ∈ s := by
  induction xs generalizing s with
  | nil => simp
  | cons x xs ih => simp [ih, or_assoc, or_left_comm]

@[simp] theorem not_mem_empty (z : String) : z ∉ empty := List.not_mem_nil

@[simp] theorem mem_ofList {xs : List String} {z : String} : z ∈ ofList xs ↔ z ∈ xs := by
  simp [ofList, mem_foldl_insert]

@[simp] theorem mem_union {s t : NameSet} {z : String} : z ∈ s.union t ↔ z ∈ s ∨ z ∈ t := by
  simp only [union, mem_foldl_insert]
  exact or_comm

end NameSet

end PipelineLang
