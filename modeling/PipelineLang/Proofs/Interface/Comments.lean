import Mathlib.Data.List.Forall2
import Mathlib.Data.List.TakeWhile
import PipelineLang.Proofs.Files.Tree
import PipelineLang.Proofs.Interface.Functions
import PipelineLang.Proofs.Text.Lines

/-! Stripping comments line by line: what is left of each line is its beginning, and nothing is left
of a comment. So the numbers of the lines in the bodies of functions are those of the lines of the
source. -/

namespace PipelineLang

namespace SourceText

namespace Mode

/-- The mode in which what is left is read again: nothing is left of a comment. -/
def settled : Mode → Mode
  | comment => code
  | mode => mode

theorem keep_cases (mode : Mode) (c : Char) :
    mode.keep c = [] ∧ c ≠ '\n' ∧ mode.step c = comment ∨ mode.keep c = [c] := by
  cases mode <;> grind [keep, step]

theorem strip_keep (mode : Mode) (c : Char) (cs : List Char) :
    mode.settled.strip (mode.keep c ++ cs) = mode.keep c ++ (mode.step c).settled.strip cs := by
  cases mode <;> grind [keep, step, settled, strip_cons]

theorem strip_strip (mode : Mode) (cs : List Char) :
    mode.settled.strip (mode.strip cs) = mode.strip cs := by
  induction cs generalizing mode with
  | nil => rw [strip_nil, strip_nil]
  | cons c cs ih => rw [strip_cons, strip_keep, ih]

theorem foldl_keep (mode : Mode) (c : Char) :
    (mode.keep c).foldl step mode.settled = (mode.step c).settled := by
  cases mode <;> grind [keep, step, settled]

def InQuotes : Mode → Prop
  | quoted _ | escaped _ => True
  | code | comment => False

theorem inQuotes_of_strip {mode : Mode} {cs before behind : List Char}
    (h : mode.strip cs = before ++ '#' :: behind) : (before.foldl step mode.settled).InQuotes := by
  induction cs generalizing mode before with
  | nil => simp [strip_nil] at h
  | cons c cs ih =>
    have hstep := foldl_keep mode c
    rw [strip_cons] at h
    rcases keep_cases mode c with ⟨hkeep, -⟩ | hkeep
    · rw [hkeep] at h hstep
      rw [show mode.settled = (mode.step c).settled from hstep]
      exact ih h
    · rw [hkeep, List.singleton_append] at h
      rw [hkeep] at hstep
      cases before with
      | nil =>
        obtain rfl : c = '#' := (List.cons.inj h).1
        cases mode <;> simp [keep, settled, InQuotes] at hkeep ⊢
      | cons b before =>
        rw [List.cons_append] at h
        obtain ⟨rfl, hrest⟩ := List.cons.inj h
        rw [List.foldl_cons, show step mode.settled c = (mode.step c).settled from hstep]
        exact ih hrest

theorem lines_strip (mode : Mode) (cs : List Char) :
    List.Forall₂ (· <+: ·) ((mode.strip cs).splitOn '\n') (cs.splitOn '\n') ∧
      (mode = comment → ((mode.strip cs).splitOn '\n').head? = some []) := by
  induction cs generalizing mode with
  | nil => simp [strip_nil]
  | cons c cs ih =>
    obtain ⟨hlines, hcomment⟩ := ih (mode.step c)
    rw [strip_cons, List.splitOn_cons_eq_if_modifyHead]
    by_cases hc : c = '\n'
    · subst hc
      rw [keep_lineFeed, List.singleton_append, List.splitOn_cons_eq_if_modifyHead]
      exact ⟨.cons (List.prefix_refl _) hlines, fun _ => rfl⟩
    · rw [if_neg (by simpa using hc)]
      rcases keep_cases mode c with ⟨hkeep, -, hstep⟩ | hkeep
      · have hhead := hcomment hstep
        rw [hkeep, List.nil_append]
        refine ⟨?_, fun _ => hhead⟩
        generalize ((mode.step c).strip cs).splitOn '\n' = left, cs.splitOn '\n' =
          whole at hlines hhead ⊢
        cases hlines with
        | nil => exact .nil
        | cons _ hlines =>
          obtain rfl := Option.some.inj hhead
          exact .cons List.nil_prefix hlines
      · rw [hkeep, List.singleton_append, List.splitOn_cons_eq_if_modifyHead,
          if_neg (by simpa using hc)]
        refine ⟨?_, fun hmode => ?_⟩
        · generalize ((mode.step c).strip cs).splitOn '\n' = left, cs.splitOn '\n' =
            whole at hlines ⊢
          cases hlines with
          | nil => exact .nil
          | cons hline hlines => exact .cons (List.cons_prefix_cons.mpr ⟨rfl, hline⟩) hlines
        · subst hmode
          simp [keep, hc] at hkeep

end Mode

theorem line_of_notMem {cs : List Char} (h : '\n' ∉ cs) : line cs = cs ∧ nextLine cs = [] := by
  have hne : ∀ c ∈ cs, (c != '\n') = true := fun c hc => by simpa using ne_of_mem_of_not_mem hc h
  rw [line, nextLine, List.takeWhile_eq_self_iff.mpr hne, List.dropWhile_eq_nil_iff.mpr hne]
  exact ⟨rfl, rfl⟩

theorem splitOn_eq (cs : List Char) :
    cs.splitOn '\n' = line cs :: if '\n' ∈ cs then (nextLine cs).splitOn '\n' else [] := by
  by_cases hcs : '\n' ∈ cs
  · obtain ⟨l, rest, rfl, hl⟩ := List.eq_append_cons_of_mem hcs
    rw [List.splitOn_append_cons_self_of_not_mem hl, line_append hl, nextLine_append hl, if_pos hcs]
  · rw [List.splitOn_eq_singleton hcs, (line_of_notMem hcs).1, if_neg hcs]

def textFrom (lines : List (List Char)) (i : Nat) : List Char := ['\n'].intercalate (lines.drop i)

/-- The text stands in a line behind the beginning `l` of it, and in front of the lines that
follow. -/
def Stands (lines : List (List Char)) (i : Nat) (l cs : List Char) : Prop :=
  lines.drop i = (cs.splitOn '\n').modifyHead (l ++ ·)

section Stands

variable {lines : List (List Char)} {i : Nat} {l cs : List Char}

theorem Stands.append {before : List Char} (h : Stands lines i l (before ++ cs)) :
    ∃ l, Stands lines (i + before.count '\n') l cs := by
  induction before generalizing i l with
  | nil => exact ⟨l, h⟩
  | cons c before ih =>
    rw [Stands, List.cons_append, List.splitOn_cons_eq_if_modifyHead] at h
    by_cases hc : c = '\n'
    · subst hc
      have hnext : Stands lines (i + 1) [] (before ++ cs) := by
        rw [Stands, ← List.drop_drop, h]
        cases (before ++ cs).splitOn '\n' <;> rfl
      rw [List.count_cons_self, Nat.add_comm _ 1, ← Nat.add_assoc]
      exact ih hnext
    · have hsame : Stands lines i (l ++ [c]) (before ++ cs) := by
        rw [Stands, h, if_neg (by simpa using hc)]
        cases (before ++ cs).splitOn '\n' <;> simp
      rw [List.count_cons_of_ne hc]
      exact ih hsame

theorem Stands.getElem? (h : Stands lines i l cs) : lines[i]? = some (l ++ line cs) := by
  rw [Stands, splitOn_eq, List.modifyHead_cons] at h
  rw [← List.head?_drop, h, List.head?_cons]

theorem Stands.textFrom_eq (h : Stands lines i l cs) : textFrom lines i = l ++ cs := by
  have hcs : List.intercalate ['\n'] (cs.splitOn '\n') = cs := List.intercalate_splitOn '\n'
  rw [Stands, splitOn_eq, List.modifyHead_cons] at h
  rw [splitOn_eq] at hcs
  rw [textFrom, h]
  conv_rhs => rw [← hcs]
  generalize (if '\n' ∈ cs then (nextLine cs).splitOn '\n' else []) = more
  cases more <;> simp [List.intercalate_cons_cons]

theorem Stands.textFrom_succ (h : Stands lines i l cs) : textFrom lines (i + 1) = nextLine cs := by
  rw [Stands, splitOn_eq, List.modifyHead_cons] at h
  rw [textFrom, ← List.drop_drop, h, List.drop_one, List.tail_cons]
  by_cases hcs : '\n' ∈ cs
  · rw [if_pos hcs, List.intercalate_splitOn]
  · rw [if_neg hcs, (line_of_notMem hcs).2]
    rfl

theorem stands_textFrom (hlines : ∀ l ∈ lines, '\n' ∉ l) (hi : i < lines.length) :
    Stands lines i [] (textFrom lines i) := by
  have hne : lines.drop i ≠ [] := by simpa using hi
  rw [Stands, textFrom, List.splitOn_intercalate '\n'
    (fun l hl => hlines l (List.mem_of_mem_drop hl)) hne]
  cases lines.drop i <;> rfl

theorem lt_length_of_textFrom (h : textFrom lines i ≠ []) : i < lines.length := by
  by_contra hle
  rw [textFrom, List.drop_eq_nil_of_le (by omega)] at h
  exact h rfl

theorem count_head {name : List Char} (hname : ∀ c ∈ name, Munch.isWordPart c = true)
    (params : List Char) :
    ("def ".toList ++ (name ++ '(' :: params)).count '\n' = params.count '\n' := by
  have hnone : name.count '\n' = 0 :=
    List.count_eq_zero.mpr fun hmem => absurd (hname _ hmem) (by decide)
  simp [List.count_append, hnone]

theorem Stands.behind_head {name params after : List Char} (h : Stands lines i l cs)
    (hhead : head? cs = some (name, params, after)) :
    ∃ l, Stands lines (i + params.count '\n') l after := by
  obtain ⟨hname, hparts⟩ := head?_cases hhead
  have hsplit : cs = ("def ".toList ++ (name ++ '(' :: (params ++ [')']))) ++ after :=
    hparts.trans (by simp)
  rw [hsplit] at h
  have hafter := h.append
  rwa [count_head hname, List.count_append, List.count_singleton] at hafter

end Stands

/-- What is recorded of a line: all of it, or what stands behind a colon in it, without the blanks
around it. -/
def Records (l text : List Char) : Prop :=
  text ≠ [] ∧ (text = trim l ∨ ∃ before behind, l = before ++ ':' :: behind ∧ text = trim behind)

/-- The text is recorded of the line with its number, if the first line has the number one. -/
def RecordedIn (lines : List (List Char)) (x : Nat × List Char) : Prop :=
  ∃ i l, x.1 = i + 1 ∧ lines[i]? = some l ∧ Records l x.2

theorem recorded_inlineBody {lines : List (List Char)} {i : Nat} {l cs : List Char}
    (h : Stands lines i l cs) :
    ∀ x ∈ inlineBody (i + 1) (line cs), RecordedIn lines x := by
  unfold inlineBody
  split
  · rename_i behind htail
    split
    · exact List.forall_mem_nil _
    · rename_i hne
      have hblanks : line cs = (line cs).takeWhile isWhiteSpace ++ ':' :: behind := by
        rw [← htail, trimStart, List.takeWhile_append_dropWhile]
      have hline := h.getElem?
      rw [hblanks, ← List.append_assoc] at hline
      exact List.forall_mem_singleton.mpr ⟨i, _, rfl,
        hline, by simpa using hne, .inr ⟨_, behind, rfl, rfl⟩⟩
  · exact List.forall_mem_nil _

section Recorded

variable {lines : List (List Char)} (hlines : ∀ l ∈ lines, '\n' ∉ l)
include hlines

theorem stands_of_eq_textFrom {i : Nat} {cs : List Char} (hcs : cs = textFrom lines i)
    (hne : ¬cs.isEmpty = true) :
    Stands lines i [] cs := by
  subst hcs
  exact stands_textFrom hlines (lt_length_of_textFrom (by simpa using hne))

theorem recorded_bodyLines {number i : Nat} {cs : List Char} (hnumber : number = i + 1)
    (hcs : cs = textFrom lines i) :
    (∀ x ∈ (bodyLines number cs).1, RecordedIn lines x) ∧
      ∃ j, (bodyLines number cs).2 = (j + 1, textFrom lines j) := by
  fun_induction bodyLines number cs generalizing i with
  | case1 number cs hne => exact ⟨List.forall_mem_nil _, i, by rw [hnumber, hcs]⟩
  | case2 number cs hne hblank ih =>
    have hstands := stands_of_eq_textFrom hlines hcs hne
    exact ih (by rw [hnumber]) hstands.textFrom_succ.symm
  | case3 number cs hne hblank hindented below =>
    rename_i ih
    have hstands := stands_of_eq_textFrom hlines hcs hne
    have hhere : RecordedIn lines (number, trim (line cs)) :=
      ⟨i, line cs, hnumber, hstands.getElem?, by simpa using hblank, .inl rfl⟩
    obtain ⟨hbelow, hrest⟩ := ih (by rw [hnumber]) hstands.textFrom_succ.symm
    exact ⟨List.forall_mem_cons.mpr ⟨hhere, hbelow⟩, hrest⟩
  | case4 number cs hne hblank hindented => exact ⟨List.forall_mem_nil _, i, by rw [hnumber, hcs]⟩

theorem recorded_functions {number i : Nat} {cs : List Char} (hnumber : number = i + 1)
    (hcs : cs = textFrom lines i) :
    ∀ f ∈ functions number cs, ∀ x ∈ f.body, RecordedIn lines x := by
  fun_induction functions number cs generalizing i with
  | case1 => exact List.forall_mem_nil _
  | case2 number cs hne hhead ih =>
    have hstands := stands_of_eq_textFrom hlines hcs hne
    exact ih (by rw [hnumber]) hstands.textFrom_succ.symm
  | case3 number cs hne name params after hhead last below =>
    rename_i ih
    obtain ⟨l, hafter⟩ := (stands_of_eq_textFrom hlines hcs hne).behind_head hhead
    have hlast : last = i + params.count '\n' + 1 := by omega
    obtain ⟨hbody, j, hrest⟩ :=
      recorded_bodyLines hlines (congrArg (· + 1) hlast) hafter.textFrom_succ.symm
    have hinline := recorded_inlineBody hafter
    rw [← hlast] at hinline
    refine List.forall_mem_cons.mpr ⟨List.forall_mem_append.mpr ⟨hinline, hbody⟩, ?_⟩
    exact ih (congrArg Prod.fst hrest) (congrArg Prod.snd hrest)

end Recorded

/-- Stripping keeps the lines and a beginning of each. Nothing is left to strip, since a `#` that is
left stands between quotes. What is recorded in the body of a function has the number of the line
where it stands, in the stripped text and in the source. -/
theorem stripComments_by_lines (source : String) :
    (stripComments none source.toList).count '\n' = source.toList.count '\n' ∧
    List.Forall₂ (· <+: ·) ((stripComments none source.toList).splitOn '\n')
      (source.toList.splitOn '\n') ∧
    stripComments none (stripComments none source.toList) = stripComments none source.toList ∧
    (∀ before behind, stripComments none source.toList = before ++ '#' :: behind →
      (before.foldl Mode.step .code).InQuotes) ∧
    ∀ f ∈ functionsOf source, ∀ x ∈ f.body, ∃ i left whole, x.1 = i + 1 ∧
      ((stripComments none source.toList).splitOn '\n')[i]? = some left ∧
      (source.toList.splitOn '\n')[i]? = some whole ∧ left <+: whole ∧ Records left x.2 := by
  have hlines := (Mode.lines_strip .code source.toList).1
  refine ⟨?_, hlines, Mode.strip_strip .code source.toList, fun before behind h => ?_, ?_⟩
  · have hlength := hlines.length_eq
    rw [length_splitOn, length_splitOn] at hlength
    exact Nat.succ.inj hlength
  · exact Mode.inQuotes_of_strip
      (show Mode.code.strip source.toList = before ++ '#' :: behind from h)
  · intro f hf x hx
    have hfrom : stripComments none source.toList =
        textFrom ((stripComments none source.toList).splitOn '\n') 0 :=
      (List.intercalate_splitOn '\n').symm
    obtain ⟨i, left, hnumber, hleft, hrecords⟩ :=
      recorded_functions (fun l hl => Path.not_mem_of_mem_splitOn hl) rfl hfrom f hf x hx
    have hi := (List.getElem?_eq_some_iff.mp hleft).1
    have hwhole := List.getElem?_eq_getElem (l := source.toList.splitOn '\n')
      (hlines.length_eq ▸ hi)
    refine ⟨i, left, _, hnumber, hleft, hwhole, ?_, hrecords⟩
    have hprefix := hlines.get hi (hlines.length_eq ▸ hi)
    obtain ⟨-, rfl⟩ := List.getElem?_eq_some_iff.mp hleft
    exact hprefix

end SourceText

end PipelineLang
