import Mathlib.Data.List.Chain
import PipelineLang.Proofs.Target.Layout

/-! Indented text. Lines stand in blocks, each two blanks deeper than the line that opens it, and
what is said of neighbouring lines follows from that. -/

namespace PipelineLang

variable {l : TextLine}

namespace Target

/-- A line of a text, without the line feed that ends it. -/
abbrev TextLine : Type := List Char

namespace TextLine

def indent (l : TextLine) : Nat := (l.takeWhile (· == ' ')).length

def isBlank (l : TextLine) : Bool := l.all (· == ' ')

def opens (l : TextLine) : Bool :=
  "def ".toList.isPrefixOf (l.dropWhile (· == ' ')) && l.getLast? == some ':'

theorem opens_eq_false_of_isBlank (h : l.isBlank = true) : l.opens = false := by
  have hrest : (l ++ []).dropWhile (· == ' ') = [] :=
    List.dropWhile_append_of_pos (List.all_eq_true.mp h)
  rw [List.append_nil] at hrest
  simp [opens, hrest]

section Indented

variable {c : Char} (hc : c ≠ ' ') (depth : Nat) (cs : List Char)
include hc

theorem indent_replicate : indent (List.replicate depth ' ' ++ c :: cs) = depth := by
  rw [indent, List.takeWhile_append_of_pos (by simp),
    List.takeWhile_cons_of_neg (by simpa using hc)]
  simp

theorem isBlank_replicate : isBlank (List.replicate depth ' ' ++ c :: cs) = false := by
  simp [isBlank, hc]

theorem opens_replicate : opens (List.replicate depth ' ' ++ c :: cs) = opens (c :: cs) := by
  have hdrop : (c :: cs).dropWhile (· == ' ') = c :: cs :=
    List.dropWhile_cons_of_neg (by simpa using hc)
  rw [opens, opens, List.dropWhile_append_of_pos (by simp), hdrop,
    List.getLast?_append_of_ne_nil _ (by simp)]

end Indented

end TextLine

/-- What may stand between a head and its block: nothing, or a blank line if the head is loose. -/
def IsGap (loose : TextLine → Prop) (head : TextLine) (gap : List TextLine) : Prop :=
  gap = [] ∨ loose head ∧ gap = [[]]

/-- Lines at a depth, each with the block that it opens. -/
inductive Suite (loose : TextLine → Prop) : Nat → List TextLine → Prop
  | nil {d : Nat} : Suite loose d []
  | blank {d : Nat} {ls : List TextLine} : Suite loose d ls → Suite loose d ([] :: ls)
  | plain {d : Nat} {l : TextLine} {ls : List TextLine} : l.isBlank = false → l.opens = false →
      l.indent = 2 * d → Suite loose d ls → Suite loose d (l :: ls)
  | block {d : Nat} {head first : TextLine} {gap body ls : List TextLine} : head.opens = true →
      head.indent = 2 * d → IsGap loose head gap → first.isBlank = false →
      Suite loose (d + 1) (first :: body) →
      Suite loose d ls → Suite loose d (head :: (gap ++ (first :: body) ++ ls))

/-- The block structure of a text, line by line. -/
structure BlockStructure (loose : TextLine → Prop) (ls : List TextLine) : Prop where
  /-- A head is followed by a line of its block. -/
  opened : ∀ before head after, ls = before ++ head :: after → head.opens = true →
    ∃ gap first rest, after = gap ++ first :: rest ∧ IsGap loose head gap ∧ first.isBlank = false ∧
      first.indent = head.indent + 2
  /-- Behind any other line the same block goes on, or one in which it lies. -/
  continued : ∀ before l gap next after, ls = before ++ l :: (gap ++ next :: after) →
    l.isBlank = false → l.opens = false → (∀ g ∈ gap, g.isBlank = true) → next.isBlank = false →
      next.indent = l.indent ∨ ∃ outer head inner, before = outer ++ head :: inner ∧
      head.opens = true ∧
        (∀ m ∈ inner ++ [l], m.isBlank = false → head.indent < m.indent) ∧ next.indent = head.indent
  outermost : ∀ gap first after, ls = gap ++ first :: after → (∀ g ∈ gap, g.isBlank = true) →
    first.isBlank = false → first.indent = 0

namespace Suite

variable {loose : TextLine → Prop} {d : Nat} {ls ls' : List TextLine}

theorem append (h : Suite loose d ls) (h' : Suite loose d ls') : Suite loose d (ls ++ ls') := by
  induction h with
  | nil => exact h'
  | blank _ ih => exact .blank (ih h')
  | plain hblank hopens hindent _ ih => exact .plain hblank hopens hindent (ih h')
  | block hopens hindent hgap hfirst hbody _ _ ih =>
    rw [List.cons_append, List.append_assoc]
    exact .block hopens hindent hgap hfirst hbody (ih h')

theorem indent_first {first : TextLine} (h : Suite loose d (first :: ls))
    (hfirst : first.isBlank = false) :
    first.indent = 2 * d := by
  cases h with
  | blank => cases hfirst
  | plain _ _ hindent | block _ hindent => exact hindent

/-- The line behind a head. -/
def Behind (loose : TextLine → Prop) (head : TextLine) (after : List TextLine) : Prop :=
  ∃ gap first rest, after = gap ++ first :: rest ∧ IsGap loose head gap ∧ first.isBlank = false ∧
    first.indent = head.indent + 2

theorem Behind.append {head : TextLine} (h : Behind loose head ls) (ls' : List TextLine) :
    Behind loose head (ls ++ ls') := by
  obtain ⟨gap, first, rest, rfl, hgap, hfirst⟩ := h
  exact ⟨gap, first, rest ++ ls', by simp, hgap, hfirst⟩

def Opened (loose : TextLine → Prop) (ls : List TextLine) : Prop :=
  ∀ before head after, ls = before ++ head :: after → head.opens = true → Behind loose head after

theorem opened_cons :
    Opened loose (l :: ls) ↔ (l.opens = true → Behind loose l ls) ∧ Opened loose ls := by
  refine ⟨fun h => ⟨h [] l ls rfl,
    fun before head after hls => h (l :: before) head after (by simp [hls])⟩, ?_⟩
  rintro ⟨hl, hrest⟩ before head after hls
  cases before with
  | nil =>
    cases hls
    exact hl
  | cons b before =>
    cases hls
    exact hrest before head after rfl

theorem Opened.append (h : Opened loose ls) (h' : Opened loose ls') : Opened loose (ls ++ ls') := by
  induction ls with
  | nil => exact h'
  | cons l ls ih =>
    rw [opened_cons] at h
    exact opened_cons.mpr ⟨fun hl => (h.1 hl).append ls', ih h.2⟩

theorem opened_nil : Opened loose [] := by
  intro before head after h
  simp at h

theorem opened_blank (h : Opened loose ls) : Opened loose ([] :: ls) :=
  opened_cons.mpr ⟨fun hopens => (by cases hopens), h⟩

theorem opened (h : Suite loose d ls) : Opened loose ls := by
  induction h with
  | nil => exact opened_nil
  | blank _ ih => exact opened_blank ih
  | plain _ hopens _ _ ih => exact opened_cons.mpr ⟨fun h => by simp [hopens] at h, ih⟩
  | @block d head first gap body ls _ hindent hgap hfirst hbody _ ihbody ih =>
    have hbehind : Behind loose head (gap ++ (first :: body)) :=
      ⟨gap, first, body, rfl, hgap,
        hfirst, by rw [hbody.indent_first hfirst, hindent, Nat.mul_add_one]⟩
    have hblanks : Opened loose gap := by
      rcases hgap with rfl | ⟨-, rfl⟩
      · exact opened_nil
      · exact opened_blank opened_nil
    exact opened_cons.mpr ⟨fun _ => hbehind.append ls, (Opened.append hblanks ihbody).append ih⟩

def written (ls : List TextLine) : List TextLine := ls.filter fun l => !l.isBlank

theorem written_append (ls ls' : List TextLine) : written (ls ++ ls') = written ls ++ written ls' :=
  List.filter_append ls ls'

theorem written_cons (h : l.isBlank = false) (ls : List TextLine) :
    written (l :: ls) = l :: written ls :=
  List.filter_cons_of_pos (by simp [h])

theorem written_eq_nil (h : ∀ l ∈ ls, l.isBlank = true) : written ls = [] :=
  List.filter_eq_nil_iff.mpr fun l hl => by simp [h l hl]

theorem written_gap {head : TextLine} {gap : List TextLine} (h : IsGap loose head gap) :
    written gap = [] := by
  rcases h with rfl | ⟨-, rfl⟩ <;> rfl

/-- How deep a line can stand behind another. -/
def Follows (l l' : TextLine) : Prop :=
  (l.opens = true → l'.indent = l.indent + 2) ∧ (l.opens = false → l'.indent ≤ l.indent)

/-- The written lines of a suite. -/
structure Stepped (d : Nat) (ls : List TextLine) : Prop where
  chain : ls.IsChain Follows
  first : ∀ l ∈ ls.head?, l.indent = 2 * d
  last : ∀ l ∈ ls.getLast?, l.opens = false
  deep : ∀ l ∈ ls, ∃ k, d ≤ k ∧ l.indent = 2 * k

theorem Stepped.nil : Stepped d [] := ⟨.nil, by simp, by simp, by simp⟩

theorem Stepped.append (h : Stepped d ls) (h' : Stepped d ls') : Stepped d (ls ++ ls') where
  chain := by
    refine List.isChain_append.mpr ⟨h.chain, h'.chain,
      fun l hl l' hl' => ⟨fun hopens => ?_, fun _ => ?_⟩⟩
    · rw [h.last l hl] at hopens
      cases hopens
    · obtain ⟨k, hk, hindent⟩ := h.deep l (List.mem_of_getLast? hl)
      rw [h'.first l' hl', hindent]
      omega
  first := by
    cases ls with
    | nil => exact h'.first
    | cons l ls => exact h.first
  last := by
    intro l hl
    rw [List.getLast?_append, Option.mem_def, Option.or_eq_some_iff] at hl
    rcases hl with hl | ⟨-, hl⟩
    · exact h'.last l hl
    · exact h.last l hl
  deep := List.forall_mem_append.mpr ⟨h.deep, h'.deep⟩

theorem Stepped.plain (hopens : l.opens = false) (hindent : l.indent = 2 * d) : Stepped d [l] :=
  ⟨.singleton l, by simpa using hindent, by simpa using hopens, by simpa using ⟨d, Nat.le_refl d,
    hindent⟩⟩

theorem Stepped.block {head first : TextLine} (hopens : head.opens = true)
    (hindent : head.indent = 2 * d) (h : Stepped (d + 1) (first :: ls)) :
    Stepped d (head :: first :: ls) where
  chain := by
    refine .cons_cons ⟨fun _ => ?_, fun hclosed => ?_⟩ h.chain
    · rw [h.first first rfl, hindent, Nat.mul_add_one]
    · rw [hopens] at hclosed
      cases hclosed
  first := by simpa using hindent
  last := by
    intro l hl
    rw [List.getLast?_cons_cons] at hl
    exact h.last l hl
  deep := by
    refine List.forall_mem_cons.mpr ⟨⟨d, Nat.le_refl d, hindent⟩, fun l hl => ?_⟩
    obtain ⟨k, hk, hindent⟩ := h.deep l hl
    exact ⟨k, by omega, hindent⟩

theorem stepped (h : Suite loose d ls) : Stepped d (written ls) := by
  induction h with
  | nil => exact .nil
  | blank _ ih => exact ih
  | plain hblank hopens hindent _ ih =>
    rw [written_cons hblank]
    exact (Stepped.plain hopens hindent).append ih
  | @block d head first gap body ls hopens hindent hgap hfirst _ _ ihbody ih =>
    have hhead : head.isBlank = false := by
      cases hblank : head.isBlank with
      | false => rfl
      | true => rw [TextLine.opens_eq_false_of_isBlank hblank] at hopens; cases hopens
    rw [written_cons hhead, written_append, written_append, written_gap hgap, List.nil_append,
      written_cons hfirst]
    rw [written_cons hfirst] at ihbody
    exact (Stepped.block hopens hindent ihbody).append ih

theorem Stepped.exists_head {before : List TextLine} {k : Nat} (h : Stepped 0 (before ++ l :: ls))
    (hk : 2 * k < l.indent) :
    ∃ outer head inner, before = outer ++ head :: inner ∧ head.opens = true ∧
      (∀ m ∈ inner ++ [l], head.indent < m.indent) ∧ head.indent = 2 * k := by
  induction before using List.reverseRecOn generalizing l ls with
  | nil =>
    rw [h.first l rfl] at hk
    omega
  | append_singleton before m ih =>
    rw [List.append_assoc, List.singleton_append] at h
    obtain ⟨hup, hdown⟩ : Follows m l :=
      (List.isChain_cons_cons.mp (List.isChain_append.mp h.chain).2.1).1
    obtain ⟨j, -, hj⟩ := h.deep m (by simp)
    by_cases hm : 2 * k < m.indent
    · obtain ⟨outer, head, inner, rfl, hopens, hinner, hindent⟩ := ih h hm
      refine ⟨outer, head, inner ++ [m], by simp, hopens, ?_, hindent⟩
      exact List.forall_mem_append.mpr ⟨hinner, by simpa [hindent] using hk⟩
    · cases hopens : m.opens with
      | false =>
        have := hdown hopens
        omega
      | true =>
        have hindent := hup hopens
        exact ⟨before, m, [], rfl, hopens, by simp [hindent], by omega⟩

theorem blockStructure (h : Suite loose 0 ls) : BlockStructure loose ls where
  opened := h.opened
  continued := by
    rintro before l gap next after rfl hl hopens hgap hnext
    have hsteps := h.stepped
    rw [written_append, written_cons hl, written_append, written_eq_nil hgap, List.nil_append,
      written_cons hnext] at hsteps
    obtain ⟨-, hle⟩ : Follows l next :=
      (List.isChain_cons_cons.mp (List.isChain_append.mp hsteps.chain).2.1).1
    obtain ⟨k, -, hk⟩ := hsteps.deep next (by simp)
    rcases Nat.lt_or_eq_of_le (hle hopens) with hlt | heq
    · -- the head of a block around `l` stands as deep as the next line
      obtain ⟨outer, head, inner, hbefore, hhead, hinner, hindent⟩ := hsteps.exists_head (hk ▸ hlt)
      obtain ⟨outer', rest, rfl, rfl, hrest⟩ := List.filter_eq_append_iff.mp hbefore
      obtain ⟨blanks, inner', rfl, hblanks, hwritten, rfl⟩ := List.filter_eq_cons_iff.mp hrest
      refine .inr ⟨outer' ++ blanks, head,
        inner', by simp, hhead, fun m hm hmblank => ?_, hk.trans hindent.symm⟩
      refine hinner m ?_
      rcases List.mem_append.mp hm with hm | hm
      · exact List.mem_append_left _ (List.mem_filter.mpr ⟨hm, by simp [hmblank]⟩)
      · exact List.mem_append_right _ hm
    · exact .inl heq
  outermost := by
    rintro gap first after rfl hgap hfirst
    have hsteps := h.stepped
    rw [written_append, written_eq_nil hgap, List.nil_append, written_cons hfirst] at hsteps
    exact hsteps.first first rfl

end Suite

end Target

end PipelineLang
