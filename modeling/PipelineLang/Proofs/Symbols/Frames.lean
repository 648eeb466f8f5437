import PipelineLang.Scope

/-! Scopes as stacks: from the current frame outward, each frame is a list of names, and looking a
name up finds the innermost frame that has it. -/

namespace PipelineLang

universe u

/-- Nested frames of names, the innermost first; in each frame the newest name first. -/
abbrev Frames (α : Type u) : Type u := List (List (String × α))

namespace Frames

variable {α : Type u}

def find? (x : String) : Frames α → Option α
  | [] => none
  | frame :: outer => (frame.lookup x).or (find? x outer)

def bind (x : String) (a : α) : Frames α → Frames α
  | [] => []
  | frame :: outer => ((x, a) :: frame) :: outer

end Frames

/-- Names with the numbers of their variables, and the next number. -/
structure Numbering where
  frames : Frames Nat
  next : Nat

namespace Numbering

def push (ν : Numbering) : Numbering := { ν with frames := [] :: ν.frames }

def pop (ν : Numbering) : Numbering := { ν with frames := ν.frames.tail }

def bind (ν : Numbering) (x : String) : Numbering := ⟨ν.frames.bind x ν.next, ν.next + 1⟩

end Numbering

namespace Scopes

variable {s s' : Scopes}

inductive Chain (s : Scopes) : Nat → Frames Nat → Prop where
  | root {frame : Nat} {names : List (String × Nat)} :
      (∀ x, s.boundIn? frame x = names.lookup x) → s.parent? frame = none → Chain s frame [names]
  | inner {frame parent : Nat} {names : List (String × Nat)} {outer : Frames Nat} :
      (∀ x, s.boundIn? frame x = names.lookup x) → s.parent? frame = some parent → parent < frame →
      Chain s parent outer → Chain s frame (names :: outer)

/-- The scopes show the numbering from their current frame. -/
structure Shows (s : Scopes) (ν : Numbering) : Prop where
  chain : s.Chain s.current ν.frames
  next : ν.next = s.bindings.length
  current : s.current < s.frameCount
  bindings : ∀ b ∈ s.bindings, b.frame < s.frameCount

theorem Chain.lookupFrom {frame : Nat} {frames : Frames Nat} (h : s.Chain frame frames)
    (x : String) :
    s.lookupFrom frame x = frames.find? x := by
  induction h with
  | root hbound hparent =>
    rw [Scopes.lookupFrom, hbound x, hparent]
    simp only [Frames.find?]
    cases List.lookup x _ <;> rfl
  | inner hbound hparent hlt _ ih =>
    rw [Scopes.lookupFrom, hbound x, hparent]
    simp only [Frames.find?, hlt, if_true, ih]
    cases List.lookup x _ <;> rfl

theorem Shows.lookup {ν : Numbering} (h : s.Shows ν) (x : String) : s.lookup x = ν.frames.find? x :=
  h.chain.lookupFrom x

theorem Chain.ne_nil {frame : Nat} {frames : Frames Nat} (h : s.Chain frame frames) :
    frames ≠ [] := by
  cases h <;> exact List.cons_ne_nil _ _

theorem Chain.congr {frame : Nat} {frames : Frames Nat} (h : s.Chain frame frames)
    (hparent : ∀ f ≤ frame, s'.parent? f = s.parent? f)
    (hbound : ∀ f ≤ frame, ∀ x, s'.boundIn? f x = s.boundIn? f x) : s'.Chain frame frames := by
  induction h with
  | root hnames hnone =>
    exact .root (fun x => (hbound _ (Nat.le_refl _) x).trans (hnames x))
      ((hparent _ (Nat.le_refl _)).trans hnone)
  | inner hnames hsome hlt _ ih =>
    refine .inner (fun x => (hbound _ (Nat.le_refl _) x).trans (hnames x))
      ((hparent _ (Nat.le_refl _)).trans hsome) hlt (ih ?_ ?_)
    · exact fun f hf => hparent f (by omega)
    · exact fun f hf => hbound f (by omega)

theorem shows_root : root.Shows ⟨[[]], 0⟩ where
  chain := .root (fun _ => rfl) rfl
  next := rfl
  current := by decide
  bindings := fun _ h => absurd h List.not_mem_nil

theorem Shows.push {ν : Numbering} (h : s.Shows ν) : s.push.Shows ν.push := by
  have hparent : ∀ f ≤ s.current, s.push.parent? f = s.parent? f := by
    intro f hf
    have hlt : f < s.parents.length := Nat.lt_of_le_of_lt hf h.current
    simp [parent?, Scopes.push, List.getElem?_append_left hlt]
  refine ⟨.inner (fun x => ?_) ?_ h.current (h.chain.congr hparent fun _ _ _ => rfl), h.next, ?_,
    ?_⟩
  · change s.bindings.findIdx? (fun b => b.name = x && b.frame = s.frameCount) = none
    rw [List.findIdx?_eq_none_iff]
    intro b hb
    have hlt := h.bindings b hb
    simp only [Bool.and_eq_false_imp, decide_eq_false_iff_not]
    omega
  · simp [parent?, Scopes.push, frameCount]
  · simp [Scopes.push, frameCount]
  · intro b hb
    have hlt := h.bindings b hb
    simp only [frameCount, Scopes.push, List.length_append, List.length_singleton] at hlt ⊢
    omega

theorem Shows.pop {names : List (String × Nat)} {outer : Frames Nat} {next : Nat}
    (h : s.Shows ⟨names :: outer, next⟩) (houter : outer ≠ []) : s.pop.Shows ⟨outer, next⟩ := by
  cases h.chain with
  | root => exact absurd rfl houter
  | inner _ hparent hlt hchain =>
    simp only [Scopes.pop, hparent]
    exact ⟨hchain.congr (fun _ _ => rfl) fun _ _ _ => rfl, h.next, Nat.lt_trans hlt h.current,
      h.bindings⟩

def add (s : Scopes) (x : String) : Scopes := { s with bindings := s.bindings ++ [⟨x, s.current⟩] }

theorem boundIn?_add (s : Scopes) (x y : String) (frame : Nat) :
    (s.add x).boundIn? frame y =
      (s.boundIn? frame y).or (if y = x ∧ frame =
        s.current then some s.bindings.length else none) := by
  simp only [boundIn?, add, List.findIdx?_append, List.findIdx?_singleton]
  by_cases h : y = x ∧ frame = s.current
  · obtain ⟨rfl, rfl⟩ := h
    simp
  · have hne : ¬(x = y ∧ s.current = frame) := fun heq => h ⟨heq.1.symm, heq.2.symm⟩
    simp [h, hne]

theorem Chain.add {frames : Frames Nat} {x : String} (h : s.Chain s.current frames)
    (hfree : s.boundIn? s.current x = none) :
    (s.add x).Chain s.current (frames.bind x s.bindings.length) := by
  have hown : ∀ {names : List (String × Nat)}, (∀ y, s.boundIn? s.current y = names.lookup y) →
      ∀ y, (s.add x).boundIn? s.current y = ((x, s.bindings.length) :: names).lookup y := by
    intro names hnames y
    rw [boundIn?_add, List.lookup_cons]
    by_cases hy : y = x
    · subst hy
      simp [hfree]
    · rw [beq_false_of_ne hy]
      simp [hy, hnames]
  cases h with
  | root hnames hparent => exact .root (hown hnames) hparent
  | inner hnames hparent hlt hchain =>
    refine .inner (hown hnames) hparent hlt (hchain.congr (fun _ _ => rfl) fun f hf y => ?_)
    rw [boundIn?_add, if_neg (by omega), Option.or_none]

theorem Shows.bind {ν : Numbering} {x : String} {v : Nat} (h : s.Shows ν)
    (hbind : s.bind? x = some (v, s')) : v = ν.next ∧ s'.Shows (ν.bind x) := by
  unfold bind? at hbind
  split at hbind
  · cases hbind
  · rename_i hfree
    have hfree : s.boundIn? s.current x = none := by simpa [inCurrent] using hfree
    cases hbind
    refine ⟨h.next.symm, ?_, ?_, h.current, ?_⟩
    · rw [Numbering.bind, h.next]
      exact h.chain.add hfree
    · simp [Numbering.bind, h.next]
    · intro b hb
      rcases List.mem_append.mp hb with hb | hb
      · exact h.bindings b hb
      · rw [List.mem_singleton.mp hb]
        exact h.current

end Scopes

end PipelineLang
