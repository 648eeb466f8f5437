import PipelineLang.Files.Tree
import PipelineLang.Proofs.Collection

/-! What a write does to a tree of files: there is a file in one more place, and every path that
leads elsewhere finds what it found before. -/

namespace PipelineLang

namespace Path

theorem not_mem_of_mem_splitOn {separator : Char} {text part : List Char}
    (h : part ∈ text.splitOn separator) :
    separator ∉ part := by
  induction text generalizing part with
  | nil =>
    rw [List.splitOn_nil, List.mem_singleton] at h
    simp [h]
  | cons c cs ih =>
    rw [List.splitOn_cons_eq_if_modifyHead] at h
    by_cases hc : c = separator
    · simp only [hc, beq_self_eq_true, if_true, List.mem_cons] at h
      rcases h with h | h
      · simp [h]
      · exact ih h
    · simp only [beq_iff_eq, hc, if_false] at h
      -- the first part grows by a character that does not separate
      cases hparts : cs.splitOn separator with
      | nil => exact absurd hparts (List.splitOn_ne_nil _ _)
      | cons first rest =>
        rw [hparts] at h ih
        rcases List.mem_cons.mp h with h | h
        · rw [h, List.mem_cons, not_or]
          exact ⟨Ne.symm hc, ih List.mem_cons_self⟩
        · exact ih (List.mem_cons_of_mem _ h)

end Path

namespace FileTree

def Plain (names : List String) : Prop := ∀ name ∈ names, '/' ∉ name.toList

theorem plain_parts (path : String) : Plain (Path.parts '/' path) := by
  intro name hname
  obtain ⟨part, hpart, rfl⟩ := List.mem_map.mp hname
  rw [String.toList_ofList]
  exact Path.not_mem_of_mem_splitOn hpart

theorem plain_origin (path : String) : Plain (origin path) := by
  unfold origin
  split <;> simp [Plain]

theorem Plain.follow {names : List String} {part : String} (h : Plain names)
    (hpart : '/' ∉ part.toList) :
    Plain (follow names part) := by
  have hmore : Plain (names ++ [part]) := by
    intro name hname
    rcases List.mem_append.mp hname with hname | hname
    · exact h name hname
    · rwa [List.mem_singleton.mp hname]
  unfold FileTree.follow
  repeat' split
  all_goals
    first | exact h | exact hmore | exact fun name hname => h name (List.dropLast_subset _ hname)

section PlainPath

variable {names others : List String}

theorem parts_plainPath (h : Plain names) (hne : names ≠ []) :
    Path.parts '/' (plainPath names) = names := by
  have hsplit : List.splitOn '/' (List.intercalate ['/'] (names.map String.toList)) =
      names.map String.toList := by
    apply List.splitOn_intercalate
    · exact List.forall_mem_map.mpr h
    · simpa using hne
  have hchars : (plainPath names).toList = List.intercalate ['/'] (names.map String.toList) := by
    rw [plainPath, String.toList_intercalate]
    rfl
  rw [Path.parts, hchars, hsplit, List.map_map]
  simp

theorem plainPath_inj (h : Plain names) (hne : names ≠ []) (h' : Plain others)
    (hne' : others ≠ []) :
    plainPath names = plainPath others ↔ names = others := by
  constructor
  · intro heq
    rw [← parts_plainPath h hne, heq, parts_plainPath h' hne']
  · exact congrArg plainPath

theorem startsWith_plainPath_iff (h : Plain names) (hne : names ≠ []) (h' : Plain others)
    (hne' : others ≠ []) :
    (plainPath others).startsWith (plainPath names ++ "/") = true ↔
      ∃ more, more ≠ [] ∧ others = names ++ more := by
  rw [String.startsWith_string_iff]
  constructor
  · rintro ⟨rest, hrest⟩
    have hchars : (plainPath others).toList = (plainPath names).toList ++ '/' :: rest := by
      rw [← hrest]
      simp
    have hparts : Path.parts '/' (plainPath others) =
        Path.parts '/' (plainPath names) ++ (rest.splitOn '/').map String.ofList := by
      simp only [Path.parts]
      rw [hchars, List.splitOn_append_cons_self, List.map_append]
    rw [parts_plainPath h hne, parts_plainPath h' hne'] at hparts
    exact ⟨_, by simp, hparts⟩
  · rintro ⟨more, hmore, rfl⟩
    have hjoined : plainPath (names ++ more) = plainPath names ++ "/" ++ plainPath more :=
      String.intercalate_append_of_ne_nil hne hmore
    rw [hjoined, String.toList_append (s := plainPath names ++ "/")]
    exact List.prefix_append _ _

end PlainPath

/-- The current directory, those around it and the root have such names only. -/
def outward (names : List String) : Bool := names.all fun name => name = "" || name = ".."

def covers (tree : FileTree) (names : List String) : Bool :=
  tree.entries.keys.any fun key => key.startsWith (plainPath names ++ "/")

section Entries

variable {tree : FileTree} {names more : List String}

theorem ne_nil_of_inward (h : outward names = false) : names ≠ [] := by
  rintro rfl
  cases h

theorem inward_append (h : outward names = false) : outward (names ++ more) = false := by
  unfold outward at h ⊢
  rw [List.all_append, h, Bool.false_and]

theorem entry?_of_outward (h : outward names = true) : tree.entry? names = some .directory := by
  unfold outward at h
  unfold entry?
  rw [if_pos h]

theorem entry?_of_get? {entry : FileEntry} (h : outward names = false)
    (hget : tree.entries.get? (plainPath names) = some entry) : tree.entry? names = some entry := by
  unfold outward at h
  unfold entry?
  rw [if_neg (by simp [h]), hget]

theorem entry?_of_get?_none (h : outward names = false)
    (hget : tree.entries.get? (plainPath names) = none) :
    tree.entry? names = if tree.covers names then some .directory else none := by
  unfold outward at h
  unfold entry?
  rw [if_neg (by simp [h]), hget]
  rfl

theorem covers_of_below (hplain : Plain (names ++ more)) (h : outward names = false)
    (hmore : more ≠ []) (hentry : tree.entry? (names ++ more) ≠ none) :
    tree.covers names = true := by
  have hne := ne_nil_of_inward h
  have hnames : Plain names := fun name hname => hplain name (List.mem_append_left _ hname)
  have hbelow : (plainPath (names ++ more)).startsWith (plainPath names ++ "/") = true := by
    rw [startsWith_plainPath_iff hnames hne hplain (List.append_ne_nil_of_left_ne_nil hne _)]
    exact ⟨more, hmore, rfl⟩
  unfold covers
  rw [List.any_eq_true]
  cases hget : tree.entries.get? (plainPath (names ++ more)) with
  | some entry =>
    have hkey : plainPath (names ++ more) ∈ tree.entries.keys := by
      rw [Table.mem_keys_iff, hget]
      rfl
    exact ⟨_, hkey, hbelow⟩
  | none =>
    rw [entry?_of_get?_none (inward_append h) hget] at hentry
    have hcovers : tree.covers (names ++ more) = true := by
      by_contra hnot
      simp [hnot] at hentry
    obtain ⟨key, hkey, hstarts⟩ := List.any_eq_true.mp hcovers
    refine ⟨key, hkey, ?_⟩
    rw [String.startsWith_string_iff] at hbelow hstarts ⊢
    have hlonger : (plainPath (names ++ more)).toList <+:
        (plainPath (names ++ more) ++ "/").toList := by
      rw [String.toList_append]
      exact List.prefix_append _ _
    exact (hbelow.trans hlonger).trans hstarts

end Entries

/-- A place where a file can be written: no directory, but in a directory. -/
structure Open (tree : FileTree) (names : List String) : Prop where
  plain : Plain names
  notDirectory : tree.entry? names ≠ some .directory
  inDirectory : tree.entry? names = none → tree.entry? names.dropLast = some .directory

def put (tree : FileTree) (names : List String) (bytes : ByteArray) : FileTree :=
  ⟨tree.entries.insert (plainPath names) (.file bytes)⟩

section Put

variable {tree : FileTree} {place names : List String} {bytes : ByteArray}

theorem Open.inward (h : tree.Open place) : outward place = false := by
  by_contra hout
  apply h.notDirectory
  exact entry?_of_outward (by simpa using hout)

theorem Open.covers_put (h : tree.Open place) (hplain : Plain names) (hin : outward names = false)
    (hget : tree.entries.get? (plainPath names) = none) :
    (tree.put place bytes).covers names = tree.covers names := by
  have hkeys : ∀ key, key ∈ (tree.put place bytes).entries.keys ↔
      key = plainPath place ∨ key ∈ tree.entries.keys := by
    intro key
    rw [Table.mem_keys_iff, Table.mem_keys_iff, put, Table.get?_insert]
    by_cases hkey : key = plainPath place <;> simp [hkey]
  have hplace : (plainPath place).startsWith (plainPath names ++ "/") = true →
      tree.covers names = true := by
    intro hstarts
    rw [startsWith_plainPath_iff hplain (ne_nil_of_inward hin) h.plain (ne_nil_of_inward h.inward)]
      at hstarts
    obtain ⟨more, hmore, rfl⟩ := hstarts
    by_cases hentry : tree.entry? (names ++ more) = none
    · have hdir := h.inDirectory hentry
      rw [List.dropLast_append_of_ne_nil hmore] at hdir
      by_cases hlast : more.dropLast = []
      · rw [hlast, List.append_nil, entry?_of_get?_none hin hget] at hdir
        by_contra hnot
        simp [hnot] at hdir
      · apply covers_of_below _ hin hlast (by simp [hdir])
        intro name hname
        rw [← List.dropLast_append_of_ne_nil hmore] at hname
        exact h.plain name (List.dropLast_subset _ hname)
    · exact covers_of_below h.plain hin hmore hentry
  rw [Bool.eq_iff_iff]
  constructor
  · intro hcovers
    obtain ⟨key, hkey, hstarts⟩ := List.any_eq_true.mp hcovers
    rcases (hkeys key).mp hkey with rfl | hkey
    · exact hplace hstarts
    · exact List.any_eq_true.mpr ⟨key, hkey, hstarts⟩
  · intro hcovers
    obtain ⟨key, hkey, hstarts⟩ := List.any_eq_true.mp hcovers
    exact List.any_eq_true.mpr ⟨key, (hkeys key).mpr (Or.inr hkey), hstarts⟩

theorem Open.entry?_put (h : tree.Open place) :
    entry? (tree.put place bytes) place = some (.file bytes) := by
  apply entry?_of_get? h.inward
  simp [put]

theorem Open.entry?_put_of_ne (h : tree.Open place) (hplain : Plain names) (hne : names ≠ place) :
    entry? (tree.put place bytes) names = tree.entry? names := by
  cases hout : outward names with
  | true => rw [entry?_of_outward hout, entry?_of_outward hout]
  | false =>
    have hpath : plainPath names ≠ plainPath place := by
      rwa [Ne, plainPath_inj hplain (ne_nil_of_inward hout) h.plain (ne_nil_of_inward h.inward)]
    have hget : (tree.put place bytes).entries.get? (plainPath names) =
        tree.entries.get? (plainPath names) := by
      simp [put, hpath]
    cases hold : tree.entries.get? (plainPath names) with
    | some entry => rw [entry?_of_get? hout (hget.trans hold), entry?_of_get? hout hold]
    | none =>
      rw [entry?_of_get?_none hout (hget.trans hold), entry?_of_get?_none hout hold,
        h.covers_put hplain hout hold]

theorem Open.directory_put_iff (h : tree.Open place) (hplain : Plain names) :
    entry? (tree.put place bytes) names = some .directory ↔
    tree.entry? names = some .directory := by
  by_cases hne : names = place
  · subst hne
    rw [h.entry?_put]
    simp [h.notDirectory]
  · rw [h.entry?_put_of_ne hplain hne]

end Put

section Walk

variable {tree : FileTree}

theorem walk_cons_iff {names ends : List String} {part : String} {parts : List String} :
    tree.walk names (part :: parts) = .ok ends ↔ tree.entry? names = some .directory ∧
      part.utf8ByteSize ≤ nameLimit ∧ tree.walk (follow names part) parts = .ok ends := by
  rw [walk]
  cases tree.entry? names with
  | none => simp
  | some entry =>
    cases entry with
    | file bytes => simp
    | directory =>
      by_cases hlong : nameLimit < part.utf8ByteSize
      · simp [hlong]
      · simp [hlong, Nat.le_of_not_lt hlong]

theorem walk_append_iff {names ends : List String} {parts more : List String} :
    tree.walk names (parts ++ more) = .ok ends ↔
      ∃ middle, tree.walk names parts = .ok middle ∧ tree.walk middle more = .ok ends := by
  induction parts generalizing names with
  | nil => simp [walk]
  | cons part parts ih =>
    rw [List.cons_append, walk_cons_iff, ih]
    constructor
    · rintro ⟨hdir, hshort, middle, hwalk, hmore⟩
      exact ⟨middle, walk_cons_iff.mpr ⟨hdir, hshort, hwalk⟩, hmore⟩
    · rintro ⟨middle, hwalk, hmore⟩
      obtain ⟨hdir, hshort, hwalk⟩ := walk_cons_iff.mp hwalk
      exact ⟨hdir, hshort, middle, hwalk, hmore⟩

theorem plain_of_walk {names ends parts : List String} (h : tree.walk names parts = .ok ends)
    (hnames : Plain names) (hparts : Plain parts) : Plain ends := by
  induction parts generalizing names with
  | nil =>
    cases h
    exact hnames
  | cons part parts ih =>
    obtain ⟨-, -, hwalk⟩ := walk_cons_iff.mp h
    have hpart := hparts part List.mem_cons_self
    exact ih hwalk (hnames.follow hpart) fun name hname => hparts name
      (List.mem_cons_of_mem _ hname)

theorem Open.walk_put_iff {place names ends parts : List String} {bytes : ByteArray}
    (h : tree.Open place) (hnames : Plain names) (hparts : Plain parts) :
    (tree.put place bytes).walk names parts = .ok ends ↔ tree.walk names parts = .ok ends := by
  induction parts generalizing names with
  | nil => rfl
  | cons part parts ih =>
    have hpart := hparts part List.mem_cons_self
    have hrest : Plain parts := fun name hname => hparts name (List.mem_cons_of_mem _ hname)
    rw [walk_cons_iff, walk_cons_iff, h.directory_put_iff hnames, ih (hnames.follow hpart) hrest]

end Walk

/-- What a path leads to, if it leads anywhere. -/
def at? (tree : FileTree) (path : String) : Option FileEntry := (tree.find path).toOption

/-- Two paths lead to one place, whether or not there is anything. -/
def SamePlace (tree : FileTree) (path other : String) : Prop :=
  ∃ names, tree.names path = .ok names ∧ tree.names other = .ok names

theorem SamePlace.symm {tree : FileTree} {path other : String} (h : tree.SamePlace path other) :
    tree.SamePlace other path := by
  obtain ⟨names, hpath, hother⟩ := h
  exact ⟨names, hother, hpath⟩

section Paths

variable {tree : FileTree} {path : String}

theorem names_iff {ends : List String} :
    tree.names path = .ok ends ↔ '\x00' ∉ path.toList ∧ path ≠ "" ∧
    path.utf8ByteSize ≤ pathLimit ∧ tree.walk (origin path) (Path.parts '/' path) = .ok ends := by
  unfold names
  by_cases hzero : '\x00' ∈ path.toList
  · simp [hzero]
  · by_cases hempty : path = ""
    · simp [hempty]
    · by_cases hlong : pathLimit < path.utf8ByteSize
      · simp [hzero, hempty, hlong]
      · simp [hzero, hempty, hlong, Nat.le_of_not_lt hlong]

theorem plain_of_names {ends : List String} (h : tree.names path = .ok ends) : Plain ends := by
  obtain ⟨-, -, -, hwalk⟩ := names_iff.mp h
  exact plain_of_walk hwalk (plain_origin path) (plain_parts path)

theorem at?_of_names {ends : List String} (h : tree.names path = .ok ends) :
    tree.at? path = tree.entry? ends := by
  simp only [at?, find, h, bind, Except.bind]
  cases tree.entry? ends <;> rfl

theorem at?_of_error {e : FileError} (h : tree.names path = .error e) : tree.at? path = none := by
  unfold at? find
  rw [h]
  rfl

theorem at?_congr {tree' : FileTree}
    (hnames : ∀ ends, tree'.names path = .ok ends ↔ tree.names path = .ok ends)
    (hentry : ∀ ends, tree.names path = .ok ends → tree'.entry? ends = tree.entry? ends) :
    tree'.at? path = tree.at? path := by
  cases hold : tree.names path with
  | ok ends => rw [at?_of_names hold, at?_of_names ((hnames ends).mpr hold), hentry ends hold]
  | error e =>
    rw [at?_of_error hold]
    cases hnew : tree'.names path with
    | ok ends =>
      rw [(hnames ends).mp hnew] at hold
      cases hold
    | error e' => exact at?_of_error hnew

end Paths

section Write

variable {tree tree' : FileTree} {path : String} {bytes : ByteArray}

theorem exists_of_write (h : tree.write path bytes = .ok tree') :
    ∃ place, tree.names path = .ok place ∧ tree.Open place ∧ tree' = tree.put place bytes := by
  unfold write at h
  cases hplace : tree.names path with
  | error e =>
    rw [hplace] at h
    cases h
  | ok place =>
    simp only [hplace, bind, Except.bind] at h
    have hplain := plain_of_names hplace
    refine ⟨place, rfl, ?_⟩
    cases hentry : tree.entry? place with
    | none =>
      cases hdir : tree.entry? place.dropLast with
      | none => simp [hentry, hdir] at h
      | some entry =>
        cases entry with
        | file _ => simp [hentry, hdir] at h
        | directory =>
          simp only [hentry, hdir, Except.ok.injEq] at h
          exact ⟨⟨hplain, by simp [hentry], fun _ => hdir⟩, h.symm⟩
    | some entry =>
      cases entry with
      | directory => simp [hentry] at h
      | file _ =>
        simp only [hentry, Except.ok.injEq] at h
        exact ⟨⟨hplain, by simp [hentry], by simp [hentry]⟩, h.symm⟩

theorem names_write_iff (h : tree.write path bytes = .ok tree') (other : String)
    (ends : List String) :
    tree'.names other = .ok ends ↔ tree.names other = .ok ends := by
  obtain ⟨place, -, hopen, rfl⟩ := exists_of_write h
  rw [names_iff, names_iff, hopen.walk_put_iff (plain_origin other) (plain_parts other)]

theorem at?_write (h : tree.write path bytes = .ok tree') {other : String}
    (hsame : tree.SamePlace other path) :
    tree'.at? other = some (.file bytes) := by
  have hnames := names_write_iff h other
  obtain ⟨place, hplace, hopen, rfl⟩ := exists_of_write h
  obtain ⟨names, hother, hpath⟩ := hsame
  rw [hplace] at hpath
  cases hpath
  rw [at?_of_names ((hnames place).mpr hother), hopen.entry?_put]

theorem at?_write_of_not_same (h : tree.write path bytes = .ok tree') {other : String}
    (hsame : ¬ tree.SamePlace other path) : tree'.at? other = tree.at? other := by
  apply at?_congr
  · exact names_write_iff h other
  · intro ends hends
    obtain ⟨place, hplace, hopen, rfl⟩ := exists_of_write h
    apply hopen.entry?_put_of_ne (plain_of_names hends)
    intro heq
    exact hsame ⟨place, heq ▸ hends, hplace⟩

theorem exists_write {names : List String} (hnames : tree.names path = .ok names)
    (hnone : tree.entry? names = none) (hdir : tree.entry? names.dropLast = some .directory)
    (bytes : ByteArray) :
    ∃ tree', tree.write path bytes = .ok tree' := by
  unfold write
  simp only [hnames, bind, Except.bind, hnone, hdir]
  exact ⟨_, rfl⟩

end Write

/-- A name that something in a directory can have. -/
structure EntryName (name : String) : Prop where
  notEmpty : name ≠ ""
  notHere : name ≠ "."
  notAbove : name ≠ ".."
  noSlash : '/' ∉ name.toList

theorem EntryName.follow {name : String} (h : EntryName name) (names : List String) :
    follow names name = names ++ [name] := by
  simp [FileTree.follow, h.notEmpty, h.notHere, h.notAbove]

section Join

theorem exists_toList_join (dir : String) :
    ∃ front : List Char, (front = [] ∨ ∃ cs, front = cs ++ ['/']) ∧
    ∀ name : String, '/' ∉ name.toList → (Path.join dir name).toList = front ++ name.toList := by
  have hrelative : ∀ name : String, '/' ∉ name.toList → name.startsWith "/" = false := by
    intro name hname
    rw [Bool.eq_false_iff, Ne, String.startsWith_string_iff]
    exact fun hfirst => hname (hfirst.subset (by simp))
  by_cases hempty : dir = ""
  · refine ⟨[], Or.inl rfl, fun name hname => ?_⟩
    simp [Path.join, hrelative name hname, hempty]
  · by_cases hends : dir.endsWith "/" = true
    · have hlast : "/".toList <:+ dir.toList := by
        rwa [String.endsWith_eq_endsWith_toSlice, String.Slice.endsWith_string_iff,
          String.copy_toSlice] at hends
      obtain ⟨cs, hcs⟩ := hlast
      refine ⟨dir.toList, Or.inr ⟨cs, hcs.symm⟩, fun name hname => ?_⟩
      simp [Path.join, hrelative name hname, hends]
    · refine ⟨dir.toList ++ ['/'], Or.inr ⟨dir.toList, rfl⟩, fun name hname => ?_⟩
      simp [Path.join, hrelative name hname, hends, hempty]

variable {dir : String}

theorem exists_parts_join (dir : String) : ∃ start parts, ∀ name : String, '/' ∉ name.toList →
    origin (Path.join dir name) = start ∧
    Path.parts '/' (Path.join dir name) = parts ++ [name] := by
  obtain ⟨front, hfront, hjoin⟩ := exists_toList_join dir
  have hname : ∀ name : String, '/' ∉ name.toList →
      (name.toList.splitOn '/').map String.ofList = [name] := by
    intro name hname
    simp [List.splitOn_eq_singleton hname]
  rcases hfront with rfl | ⟨cs, rfl⟩
  · refine ⟨[], [], fun name hslash => ⟨?_, ?_⟩⟩
    · unfold origin
      rw [if_neg]
      rw [String.startsWith_string_iff, hjoin name hslash]
      exact fun hfirst => hslash (hfirst.subset (by simp))
    · rw [Path.parts, hjoin name hslash, List.nil_append, hname name hslash, List.nil_append]
  · refine ⟨if ['/'] <+: cs ++ ['/'] then [""] else [], (cs.splitOn '/').map String.ofList,
      fun name hslash => ⟨?_, ?_⟩⟩
    · unfold origin
      apply if_congr _ rfl rfl
      rw [String.startsWith_string_iff, hjoin name hslash]
      cases cs <;> simp
    · rw [Path.parts, hjoin name hslash, List.append_assoc, List.singleton_append,
        List.splitOn_append_cons_self, List.map_append, hname name hslash]

/-- Where one name in a directory can be reached, so can another, unless it is too long. -/
theorem exists_of_names_join {tree : FileTree} {name : String} {ends : List String}
    (hname : EntryName name) (h : tree.names (Path.join dir name) = .ok ends) :
    ∃ inside, ends = inside ++ [name] ∧ tree.entry? inside = some .directory ∧
      ∀ other, EntryName other → '\x00' ∉ other.toList → other.utf8ByteSize ≤ nameLimit →
        (Path.join dir other).utf8ByteSize ≤ pathLimit →
        tree.names (Path.join dir other) = .ok (inside ++ [other]) := by
  obtain ⟨front, -, hjoin⟩ := exists_toList_join dir
  obtain ⟨start, parts, hparts⟩ := exists_parts_join dir
  obtain ⟨hzero, -, -, hwalk⟩ := names_iff.mp h
  rw [(hparts name hname.noSlash).1, (hparts name hname.noSlash).2, walk_append_iff] at hwalk
  obtain ⟨inside, hinside, hlast⟩ := hwalk
  obtain ⟨hdir, -, hends⟩ := walk_cons_iff.mp hlast
  rw [hname.follow] at hends
  cases hends
  refine ⟨inside, rfl, hdir, fun other hother hzero' hshort hfits => ?_⟩
  rw [names_iff, (hparts other hother.noSlash).1, (hparts other hother.noSlash).2, walk_append_iff]
  refine ⟨?_, ?_, hfits, inside, hinside, ?_⟩
  · rw [hjoin name hname.noSlash, List.mem_append, not_or] at hzero
    rw [hjoin other hother.noSlash, List.mem_append, not_or]
    exact ⟨hzero.1, hzero'⟩
  · intro hempty
    have hchars := hjoin other hother.noSlash
    rw [hempty] at hchars
    have hnil : other.toList = [] := (List.append_eq_nil_iff.mp hchars.symm).2
    exact hother.notEmpty (String.toList_eq_nil_iff.mp hnil)
  · rw [walk_cons_iff, hother.follow]
    exact ⟨hdir, hshort, rfl⟩

end Join

end FileTree

end PipelineLang
