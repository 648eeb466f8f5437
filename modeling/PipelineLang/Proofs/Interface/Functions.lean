import PipelineLang.Proofs.Interface.Scan

/-! The functions of a text that is put together from two. The functions of the first part are
found, and then those of the second, if every function of the first has its parentheses closed
there. Names and parameters do not depend on the numbers of lines. -/

namespace PipelineLang

def FunctionText.head (f : FunctionText) : String × List Char := (f.name, f.params)

namespace SourceText

section Parts

variable {cs rest xs ys : List Char}

def EndsLine (cs : List Char) : Prop := cs = [] ∨ cs.getLast? = some '\n'

instance (cs : List Char) : Decidable (EndsLine cs) :=
  inferInstanceAs (Decidable (cs = [] ∨ cs.getLast? = some '\n'))

theorem EndsLine.of_append {c : Char} (h : EndsLine (xs ++ c :: ys)) : EndsLine ys := by
  rcases h with h | h
  · simp at h
  · by_cases hys : ys = []
    · exact .inl hys
    · have hlast : (xs ++ c :: ys).getLast? = ys.getLast? := by
        rw [List.getLast?_append, List.getLast?_cons_of_ne_nil hys,
          List.getLast?_eq_some_getLast hys]
        rfl
      exact .inr (hlast ▸ h)

theorem EndsLine.exists_line (h : EndsLine cs) (hne : cs ≠ []) :
    ∃ l rest, cs = l ++ '\n' :: rest ∧ '\n' ∉ l := by
  rcases h with h | h
  · exact absurd h hne
  · exact List.eq_append_cons_of_mem (List.mem_of_getLast? h)

/-- What stands behind `def ` and the word that follows it. -/
def behindName (cs : List Char) : List Char := (cs.drop 4).dropWhile Munch.isWordPart

/-- If the text begins with a function, its parentheses are closed. -/
def headCloses (cs : List Char) : Bool :=
  !("def ".toList.isPrefixOf cs && (behindName cs).head? = some '(') || (head? cs).isSome

/-- The parentheses of every function that begins a line are closed; `begins` tells whether one
begins here. -/
def headsClose (begins : Bool) : List Char → Bool
  | [] => true
  | c :: cs => (!begins || headCloses (c :: cs)) && headsClose (c = '\n') cs

theorem headsClose_of_append {begins : Bool} (h : headsClose begins (xs ++ '\n' :: ys) = true) :
    headsClose true ys = true := by
  induction xs generalizing begins with
  | nil =>
    rw [List.nil_append, headsClose, Bool.and_eq_true] at h
    exact h.2
  | cons c xs ih =>
    rw [List.cons_append, headsClose, Bool.and_eq_true] at h
    exact ih h.2

/-- Whole lines, in which every function that begins has its parentheses closed. -/
structure Settled (cs : List Char) : Prop where
  endsLine : EndsLine cs
  closes : headsClose true cs = true

theorem Settled.of_append (h : Settled (xs ++ '\n' :: ys)) : Settled ys :=
  ⟨h.endsLine.of_append, headsClose_of_append h.closes⟩

theorem Settled.headCloses (h : Settled cs) (hne : cs ≠ []) : headCloses cs = true := by
  obtain ⟨c, cs, rfl⟩ := List.exists_cons_of_ne_nil hne
  have hcloses := h.closes
  rw [headsClose, Bool.and_eq_true] at hcloses
  simpa using hcloses.1

theorem takeWhile_append_cons {p : Char → Bool} {c : Char} (hc : p c = false) (xs ys : List Char) :
    (xs ++ c :: ys).takeWhile p = xs.takeWhile p ∧ (xs ++ c :: ys).dropWhile p =
      xs.dropWhile p ++ c :: ys := by
  induction xs with
  | nil => simp [hc]
  | cons x xs ih => by_cases hx : p x = true <;> simp [hx, ih]

theorem drop_takeWhile (p : Char → Bool) (xs : List Char) :
    xs.drop (xs.takeWhile p).length = xs.dropWhile p :=
  (congrArg (List.drop _) List.takeWhile_append_dropWhile.symm).trans List.drop_left

theorem bracketed_eq_none {opening closing : Char} (h : cs.head? ≠ some opening) :
    bracketed opening closing cs = none := by
  cases cs with
  | nil => rfl
  | cons c cs =>
    have hc : c ≠ opening := by simpa using h
    rw [bracketed, if_neg hc]

section Line

variable {l : List Char} (h : "def ".toList.isPrefixOf l = true)
include h

theorem takeWhile_line (rest : List Char) :
    ((l ++ '\n' :: rest).drop 4).takeWhile Munch.isWordPart =
      (l.drop 4).takeWhile Munch.isWordPart ∧
    behindName (l ++ '\n' :: rest) = behindName l ++ '\n' :: rest := by
  obtain ⟨name, rfl⟩ := List.isPrefixOf_iff_prefix.mp h
  have hdrop (tail : List Char) : ("def ".toList ++ tail).drop 4 = tail := rfl
  rw [behindName, behindName, List.append_assoc, hdrop, hdrop]
  exact takeWhile_append_cons (by decide) name rest

theorem head?_line (rest : List Char) :
    head? (l ++ '\n' :: rest) = (bracketed '(' ')' (behindName l ++ '\n' :: rest)).map fun found =>
      ((l.drop 4).takeWhile Munch.isWordPart, found.1, found.2) := by
  obtain ⟨htake, hdrop⟩ := takeWhile_line h rest
  rw [behindName] at hdrop
  rw [head?_eq, isPrefixOf_def_line, if_pos h, drop_takeWhile, htake, hdrop]

theorem headCloses_line (rest : List Char) (hcloses : headCloses (l ++ '\n' :: rest) = true)
    (hopening : (behindName l ++ '\n' :: rest).head? = some '(') :
    ∃ params after, bracketed '(' ')' (behindName l ++ '\n' :: rest) = some (params, after) := by
  rw [headCloses, isPrefixOf_def_line, h, (takeWhile_line h rest).2, hopening, head?_line h rest]
    at hcloses
  have hsome : (bracketed '(' ')' (behindName l ++ '\n' :: rest)).isSome = true := by
    simpa using hcloses
  obtain ⟨⟨params, after⟩, hfound⟩ := Option.isSome_iff_exists.mp hsome
  exact ⟨params, after, hfound⟩

end Line

theorem head?_append (h : Settled cs) (hne : cs ≠ []) (rest : List Char) :
    head? (cs ++ rest) = (head? cs).map fun found => (found.1, found.2.1, found.2.2 ++ rest) := by
  have hcloses := h.headCloses hne
  obtain ⟨l, r, rfl, -⟩ := h.endsLine.exists_line hne
  rw [List.append_assoc, List.cons_append]
  by_cases hdef : "def ".toList.isPrefixOf l = true
  · rw [head?_line hdef, head?_line hdef]
    by_cases hopening : (behindName l ++ '\n' :: r).head? = some '('
    · obtain ⟨params, after, hfound⟩ := headCloses_line hdef r hcloses hopening
      have hmore := bracketed_append (by decide) hfound rest
      rw [List.append_assoc, List.cons_append] at hmore
      rw [hfound, hmore]
      rfl
    · have hopening' : (behindName l ++ '\n' :: (r ++ rest)).head? ≠ some '(' := by
        simpa [List.head?_append] using hopening
      rw [bracketed_eq_none hopening, bracketed_eq_none hopening']
      rfl
  · rw [head?_eq, isPrefixOf_def_line, if_neg hdef, head?_eq, isPrefixOf_def_line, if_neg hdef]
    rfl

theorem line_append_of_endsLine (h : EndsLine cs) (hne : cs ≠ []) (rest : List Char) :
    line (cs ++ rest) = line cs ∧ nextLine (cs ++ rest) = nextLine cs ++ rest := by
  obtain ⟨l, r, rfl, hl⟩ := h.exists_line hne
  rw [List.append_assoc, List.cons_append, line_append hl, line_append hl, nextLine_append hl,
    nextLine_append hl]
  exact ⟨rfl, rfl⟩

theorem Settled.nextLine (h : Settled cs) (hne : cs ≠ []) : Settled (nextLine cs) := by
  obtain ⟨l, r, rfl, hl⟩ := h.endsLine.exists_line hne
  rw [nextLine_append hl]
  exact h.of_append

theorem isIndented_append (hne : cs ≠ []) (rest : List Char) :
    isIndented (cs ++ rest) = isIndented cs := by
  obtain ⟨c, cs, rfl⟩ := List.exists_cons_of_ne_nil hne
  rfl

/-- The text begins with a character at which a body ends. -/
def StartsTop (cs : List Char) : Prop := ∃ c tail, cs = c :: tail ∧ isWhiteSpace c = false

theorem bodyLines_append (h : Settled cs) (hrest : StartsTop rest) (n : Nat) :
    bodyLines n (cs ++ rest) =
      ((bodyLines n cs).1, (bodyLines n cs).2.1, (bodyLines n cs).2.2 ++ rest) ∧
    Settled (bodyLines n cs).2.2 := by
  fun_induction bodyLines n cs with
  | case1 n cs hempty =>
    rw [List.isEmpty_iff] at hempty
    obtain ⟨c, tail, rfl, hc⟩ := hrest
    rw [hempty, List.nil_append, bodyLines_end hc, hempty] at *
    exact ⟨rfl, h⟩
  | case2 n cs hempty hblank ih =>
    have hne : cs ≠ [] := by simpa using hempty
    obtain ⟨hline, hnext⟩ := line_append_of_endsLine h.endsLine hne rest
    obtain ⟨hbody, hsettled⟩ := ih (h.nextLine hne)
    refine ⟨?_, hsettled⟩
    rw [bodyLines, if_neg (by simp [hne]), hline, if_pos hblank, hnext, hbody]
  | case3 n cs hempty hblank hindented below ih =>
    have hne : cs ≠ [] := by simpa using hempty
    obtain ⟨hline, hnext⟩ := line_append_of_endsLine h.endsLine hne rest
    obtain ⟨hbody, hsettled⟩ := ih (h.nextLine hne)
    refine ⟨?_, hsettled⟩
    rw [bodyLines, if_neg (by simp [hne]), hline, if_neg hblank, isIndented_append hne,
      if_pos hindented, hnext, hbody]
  | case4 n cs hempty hblank hindented =>
    have hne : cs ≠ [] := by simpa using hempty
    obtain ⟨hline, -⟩ := line_append_of_endsLine h.endsLine hne rest
    refine ⟨?_, h⟩
    rw [bodyLines, if_neg (by simp [hne]), hline, if_neg hblank, isIndented_append hne,
      if_neg hindented]

theorem head?_cases {name params after : List Char} (h : head? cs = some (name, params, after)) :
    (∀ c ∈ name, Munch.isWordPart c = true) ∧ cs =
      "def ".toList ++ (name ++ '(' :: (params ++ ')' :: after)) := by
  rw [head?_eq] at h
  by_cases hdef : "def ".toList.isPrefixOf cs = true
  · rw [if_pos hdef, drop_takeWhile] at h
    obtain ⟨⟨params', after'⟩, hfound, heq⟩ := Option.map_eq_some_iff.mp h
    simp only [Prod.mk.injEq] at heq
    obtain ⟨rfl, rfl, rfl⟩ := heq
    obtain ⟨word, rfl⟩ := List.isPrefixOf_iff_prefix.mp hdef
    refine ⟨List.all_eq_true.mp List.all_takeWhile, congrArg ("def ".toList ++ ·) ?_⟩
    rw [← bracketed_eq hfound]
    exact List.takeWhile_append_dropWhile.symm
  · rw [if_neg hdef] at h
    cases h

theorem Settled.behind (h : Settled cs) {name params after : List Char}
    (hhead : head? cs = some (name, params, after)) :
    EndsLine after ∧ after ≠ [] ∧ Settled (SourceText.nextLine after) := by
  obtain ⟨front, rfl⟩ : ∃ front, cs = front ++ ')' :: after :=
    ⟨"def ".toList ++ (name ++ '(' :: params), (head?_cases hhead).2.trans (by simp)⟩
  have hends : EndsLine after := h.endsLine.of_append
  have hne : after ≠ [] := by
    rintro rfl
    rcases h.endsLine with hnil | hlast
    · simp at hnil
    · simp at hlast
  obtain ⟨l, r, rfl, hl⟩ := hends.exists_line hne
  refine ⟨hends, hne, ?_⟩
  rw [nextLine_append hl]
  rw [← List.cons_append, ← List.append_assoc] at h
  exact h.of_append

theorem wordChars_of_mem_functions {n : Nat} {f : FunctionText} (h : f ∈ functions n cs) :
    WordChars f.name := by
  fun_induction functions n cs with
  | case1 => cases h
  | case2 n cs hempty hhead ih => exact ih h
  | case3 n cs hempty name params after hhead last below ih =>
    rcases List.mem_cons.mp h with rfl | h
    · intro c hc
      rw [String.toList_ofList] at hc
      exact (head?_cases hhead).1 c hc
    · exact ih h

theorem functions_append (h : Settled cs) (hrest : StartsTop rest) (n : Nat) :
    ∃ m, functions n (cs ++ rest) = functions n cs ++ functions m rest := by
  fun_induction functions n cs with
  | case1 n cs hempty =>
    rw [List.isEmpty_iff] at hempty
    exact ⟨n, by rw [hempty]; rfl⟩
  | case2 n cs hempty hhead ih =>
    have hne : cs ≠ [] := by simpa using hempty
    have happend := head?_append h hne rest
    rw [hhead] at happend
    obtain ⟨m, hm⟩ := ih (h.nextLine hne)
    refine ⟨m, ?_⟩
    rw [functions_of_none happend, (line_append_of_endsLine h.endsLine hne rest).2, hm]
  | case3 n cs hempty name params after hhead last below ih =>
    have hne : cs ≠ [] := by simpa using hempty
    have happend := head?_append h hne rest
    rw [hhead] at happend
    obtain ⟨hends, hafter, hsettled⟩ := h.behind hhead
    obtain ⟨hline, hnext⟩ := line_append_of_endsLine hends hafter rest
    obtain ⟨hbody, hsettled'⟩ := bodyLines_append hsettled hrest (last + 1)
    obtain ⟨m, hm⟩ := ih hsettled'
    refine ⟨m, ?_⟩
    rw [functions_of_some happend, hline, hnext, hbody, List.cons_append, ← hm]

theorem bodyLines_number (n m : Nat) (cs : List Char) :
    (bodyLines n cs).2.2 = (bodyLines m cs).2.2 := by
  fun_induction bodyLines n cs generalizing m with
  | case1 n cs hempty => rw [bodyLines, if_pos hempty]
  | case2 n cs hempty hblank ih => rw [ih (m + 1), bodyLines.eq_def m, if_neg hempty, if_pos hblank]
  | case3 n cs hempty hblank hindented below ih =>
    rw [bodyLines.eq_def m, if_neg hempty, if_neg hblank, if_pos hindented]
    exact ih (m + 1)
  | case4 n cs hempty hblank hindented =>
    rw [bodyLines, if_neg hempty, if_neg hblank, if_neg hindented]

theorem map_head_functions (n m : Nat) (cs : List Char) :
    (functions n cs).map FunctionText.head = (functions m cs).map FunctionText.head := by
  fun_induction functions n cs generalizing m with
  | case1 n cs hempty =>
    rw [List.isEmpty_iff] at hempty
    rw [hempty, functions_nil]
  | case2 n cs hempty hhead ih => rw [functions_of_none hhead, ih]
  | case3 n cs hempty name params after hhead last below ih =>
    rw [functions_of_some hhead, List.map_cons, List.map_cons]
    have hrest := bodyLines_number (last + 1) (m + params.count '\n' + 1) (nextLine after)
    rw [← hrest]
    exact congrArg _ (ih _)

theorem functions_of_not_def (h : ¬"def ".toList.isPrefixOf cs = true) (n : Nat) :
    functions n cs = functions (n + 1) (nextLine cs) := by
  refine functions_of_none ?_ n
  rw [head?_eq, if_neg h]

theorem map_head_functions_bodyLines (n k m : Nat) (cs : List Char) :
    (functions n (bodyLines k cs).2.2).map FunctionText.head =
      (functions m cs).map FunctionText.head := by
  fun_induction bodyLines k cs generalizing m with
  | case1 k cs hempty => exact map_head_functions n m cs
  | case2 k cs hempty hblank ih =>
    have hdef : ¬"def ".toList.isPrefixOf cs = true := by
      intro hdef
      obtain ⟨word, rfl⟩ := List.isPrefixOf_iff_prefix.mp hdef
      have hline : line ("def ".toList ++ word) = 'd' :: ("ef ".toList ++ line word) := rfl
      rw [hline, trim_cons (by decide)] at hblank
      cases hblank
    rw [functions_of_not_def hdef]
    exact ih (m + 1)
  | case3 k cs hempty hblank hindented below ih =>
    have hdef : ¬"def ".toList.isPrefixOf cs = true := by
      intro hdef
      obtain ⟨word, rfl⟩ := List.isPrefixOf_iff_prefix.mp hdef
      cases hindented
    rw [functions_of_not_def hdef]
    exact ih (m + 1)
  | case4 k cs hempty hblank hindented => exact map_head_functions n m cs

end Parts

end SourceText

end PipelineLang
