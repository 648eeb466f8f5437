import Mathlib.Data.List.Forall2
import Mathlib.Data.List.Nodup
import PipelineLang.Collection.Table
import PipelineLang.Proofs.Symbols.Frames

/-!
Scopes against a stack of finite maps. Frames are never taken away, and the current frame moves
along parents; still any sequence of operations, balanced or not, shows what a stack of maps shows.
What was bound stays bound as it was.
-/

namespace PipelineLang

variable {σ : ScopeStack} {v : Nat} {x : String} {b : Binding}

inductive ScopeOp where
  | push
  | pop
  | bind (name : String)
deriving DecidableEq

/-- A stack of maps from names to the numbers of variables, never empty, and the next number. -/
structure ScopeStack where
  top : Table String Nat
  below : List (Table String Nat)
  next : Nat

namespace ScopeStack

def root : ScopeStack := ⟨.empty, [], 0⟩

def lookup (σ : ScopeStack) (name : String) : Option Nat :=
  (σ.top :: σ.below).findSome? fun frame => frame.get? name

def apply (σ : ScopeStack) : ScopeOp → ScopeStack
  | .push => ⟨.empty, σ.top :: σ.below, σ.next⟩
  | .pop =>
    match σ.below with
    | [] => σ
    | frame :: below => ⟨frame, below, σ.next⟩
  | .bind name => if σ.top.contains name then σ else ⟨σ.top.insert name σ.next, σ.below, σ.next + 1⟩

end ScopeStack

namespace Scopes

def apply (s : Scopes) : ScopeOp → Scopes
  | .push => s.push
  | .pop => s.pop
  | .bind name => ((s.bind? name).map Prod.snd).getD s

def numbers (s : Scopes) : List ScopeOp → List Nat
  | [] => []
  | .bind name :: ops => ((s.bind? name).map Prod.fst).toList ++ (s.apply (.bind name)).numbers ops
  | op :: ops => (s.apply op).numbers ops

variable {s s' : Scopes}

theorem bind?_eq (s : Scopes) (x : String) :
    s.bind? x = if s.inCurrent x then none else some (s.bindings.length, s.add x) := rfl

/-- The frames from the current one outward have the maps of the stack, and the numbers go on
alike. -/
structure Agrees (s : Scopes) (σ : ScopeStack) : Prop where
  frames : ∃ frames, s.Shows ⟨frames, σ.next⟩ ∧
    List.Forall₂ (fun names table => ∀ x, List.lookup x names = Table.get? table x) frames
      (σ.top :: σ.below)

theorem agrees_root : root.Agrees .root :=
  ⟨[[]], shows_root, .cons (fun _ => rfl) .nil⟩

theorem Agrees.lookup (h : s.Agrees σ) (x : String) : s.lookup x = σ.lookup x := by
  obtain ⟨frames, hshows, hmaps⟩ := h.frames
  have hfind : ∀ {frames : Frames Nat} {tables : List (Table String Nat)},
      List.Forall₂ (fun names table => ∀ x, List.lookup x names = Table.get? table x) frames
        tables →
      frames.find? x = tables.findSome? fun table => table.get? x := by
    intro frames tables h
    induction h with
    | nil => rfl
    | cons hx _ ih =>
      rw [Frames.find?, List.findSome?_cons, hx, ih]
      cases Table.get? _ x <;> rfl
  rw [hshows.lookup, ScopeStack.lookup]
  exact hfind hmaps

theorem Agrees.inCurrent (h : s.Agrees σ) (x : String) : s.inCurrent x = σ.top.contains x := by
  obtain ⟨frames, hshows, hmaps⟩ := h.frames
  cases hmaps with
  | cons hx _ =>
    have hbound : s.boundIn? s.current x = σ.top.get? x := by
      rw [← hx x]
      cases hshows.chain with
      | root hnames _ => exact hnames x
      | inner hnames _ _ _ => exact hnames x
    rw [Scopes.inCurrent, hbound, Table.contains]

theorem Agrees.push (h : s.Agrees σ) : s.push.Agrees (σ.apply .push) := by
  obtain ⟨frames, hshows, hmaps⟩ := h.frames
  exact ⟨[] :: frames, hshows.push, .cons (fun _ => rfl) hmaps⟩

theorem Agrees.pop (h : s.Agrees σ) : s.pop.Agrees (σ.apply .pop) := by
  obtain ⟨frames, hshows, hmaps⟩ := h.frames
  obtain ⟨top, below, next⟩ := σ
  cases hmaps with
  | cons hx hrest =>
    cases hrest with
    | nil =>
      -- only the outermost frame is left, and it has no parent to go back to
      have hstay : s.pop = s := by
        cases hshows.chain with
        | root _ hparent => rw [Scopes.pop, hparent]
        | inner _ _ _ houter => exact absurd rfl houter.ne_nil
      rw [hstay]
      exact h
    | cons hy hrest => exact ⟨_, hshows.pop (List.cons_ne_nil _ _), .cons hy hrest⟩

theorem Agrees.bind (h : s.Agrees σ) (x : String) :
    (s.apply (.bind x)).Agrees (σ.apply (.bind x)) := by
  have hcurrent := h.inCurrent x
  by_cases hfree : σ.top.contains x = true
  · rw [hfree] at hcurrent
    have hs : s.apply (.bind x) = s := by rw [Scopes.apply, bind?_eq, if_pos hcurrent]; rfl
    have hσ : σ.apply (.bind x) = σ := by rw [ScopeStack.apply, if_pos hfree]
    rw [hs, hσ]
    exact h
  · have hnot : ¬s.inCurrent x = true := by rwa [hcurrent]
    have hbind : s.bind? x = some (s.bindings.length, s.add x) := by rw [bind?_eq, if_neg hnot]
    have hs : s.apply (.bind x) = s.add x := by rw [Scopes.apply, hbind]; rfl
    obtain ⟨frames, hshows, hmaps⟩ := h.frames
    rw [hs, ScopeStack.apply, if_neg hfree]
    cases hmaps with
    | cons hx hrest =>
      refine ⟨_, (hshows.bind hbind).2, .cons (fun y => ?_) hrest⟩
      rw [List.lookup_cons, Table.get?_insert, hx]
      by_cases hy : y = x
      · rw [if_pos hy, beq_iff_eq.mpr hy]
      · rw [if_neg hy, beq_false_of_ne hy]

theorem Agrees.apply (h : s.Agrees σ) (op : ScopeOp) : (s.apply op).Agrees (σ.apply op) := by
  cases op with
  | push => exact h.push
  | pop => exact h.pop
  | bind x => exact h.bind x

theorem Agrees.foldl (h : s.Agrees σ) (ops : List ScopeOp) :
    (ops.foldl Scopes.apply s).Agrees (ops.foldl ScopeStack.apply σ) := by
  induction ops generalizing s σ with
  | nil => exact h
  | cons op ops ih => exact ih (h.apply op)

theorem apply_cases (s : Scopes) (op : ScopeOp) :
    s.apply op = s.push ∨ (∃ frame, s.parent? s.current = some frame ∧ s.apply op =
      { s with current := frame }) ∨
      s.apply op = s ∨ ∃ x, s.inCurrent x = false ∧ s.apply op = s.add x := by
  cases op with
  | push => exact .inl rfl
  | pop =>
    change s.pop = _ ∨ (∃ frame, _ ∧ s.pop = _) ∨ s.pop = _ ∨ ∃ x, _ ∧ s.pop = _
    cases hparent : s.parent? s.current with
    | none => exact .inr (.inr (.inl (by rw [Scopes.pop, hparent])))
    | some frame => exact .inr (.inl ⟨frame, rfl, by rw [Scopes.pop, hparent]⟩)
  | bind x =>
    cases hx : s.inCurrent x with
    | true => exact .inr (.inr (.inl (by rw [Scopes.apply, bind?_eq, if_pos hx]; rfl)))
    | false =>
      have hnot : ¬s.inCurrent x = true := by rw [hx]; exact Bool.false_ne_true
      exact .inr (.inr (.inr ⟨x, hx, by rw [Scopes.apply, bind?_eq, if_neg hnot]; rfl⟩))

theorem binding?_add (x : String) (h : s.binding? v = some b) :
    (s.add x).binding? v = some b := by
  have hlt : v < s.bindings.length := (List.getElem?_eq_some_iff.mp h).1
  rw [binding?, Scopes.add, List.getElem?_append_left hlt]
  exact h

theorem binding?_apply (h : s.binding? v = some b) (op : ScopeOp) :
    (s.apply op).binding? v = some b := by
  obtain heq | ⟨frame, _, heq⟩ | heq | ⟨x, _, heq⟩ := s.apply_cases op
  · rw [heq]
    exact h
  · rw [heq]
    exact h
  · rw [heq]
    exact h
  · rw [heq]
    exact binding?_add x h

theorem binding?_foldl (h : s.binding? v = some b) (ops : List ScopeOp) :
    (ops.foldl Scopes.apply s).binding? v = some b := by
  induction ops generalizing s with
  | nil => exact h
  | cons op ops ih => exact ih (binding?_apply h op)

/-- Parents come before their frames, frame zero alone has none, and no frame has two variables of
one name. -/
structure Ordered (s : Scopes) : Prop where
  current : s.current < s.frameCount
  parent_lt : ∀ {frame parent}, s.parent? frame = some parent → parent < frame
  parent_none : ∀ {frame}, frame < s.frameCount → (s.parent? frame = none ↔ frame = 0)
  distinct : s.bindings.Nodup

theorem ordered_root : root.Ordered where
  current := by decide
  parent_lt := by
    intro frame parent h
    cases frame with
    | zero => cases h
    | succ n => simp [parent?, root] at h
  parent_none := by
    intro frame h
    have hzero : frame = 0 := Nat.lt_one_iff.mp h
    subst hzero
    exact iff_of_true rfl rfl
  distinct := .nil

theorem parent?_push (s : Scopes) (frame : Nat) :
    s.push.parent? frame = if frame = s.frameCount then some s.current else s.parent? frame := by
  by_cases heq : frame = s.frameCount
  · rw [if_pos heq, heq]
    simp [parent?, Scopes.push, frameCount]
  · rw [if_neg heq]
    by_cases hlt : frame < s.parents.length
    · simp [parent?, Scopes.push, List.getElem?_append_left hlt]
    · have hlen : s.parents.length + 1 ≤ frame := by
        have hne : frame ≠ s.parents.length := heq
        omega
      rw [parent?, parent?, List.getElem?_eq_none (Nat.le_of_not_lt hlt), Scopes.push,
        List.getElem?_eq_none]
      simpa using hlen

theorem Ordered.push (h : s.Ordered) : s.push.Ordered := by
  have hcount : s.push.frameCount = s.frameCount + 1 := by simp [frameCount, Scopes.push]
  have hcurrent := h.current
  refine ⟨?_, ?_, ?_, h.distinct⟩
  · rw [hcount]
    exact Nat.lt_succ_self _
  · intro frame parent hparent
    rw [parent?_push] at hparent
    by_cases heq : frame = s.frameCount
    · rw [if_pos heq] at hparent
      cases hparent
      omega
    · rw [if_neg heq] at hparent
      exact h.parent_lt hparent
  · intro frame hlt
    rw [hcount] at hlt
    rw [parent?_push]
    by_cases heq : frame = s.frameCount
    · rw [if_pos heq]
      exact iff_of_false (Option.some_ne_none _) (by omega)
    · rw [if_neg heq]
      exact h.parent_none (by omega)

theorem Ordered.add (h : s.Ordered) (hfree : s.inCurrent x = false) : (s.add x).Ordered := by
  refine ⟨h.current, h.parent_lt, h.parent_none, ?_⟩
  have hnot : (⟨x, s.current⟩ : Binding) ∉ s.bindings := by
    intro hmem
    have hbound : s.boundIn? s.current x = none := by simpa [inCurrent] using hfree
    have hno := List.findIdx?_eq_none_iff.mp hbound _ hmem
    simp at hno
  exact List.nodup_append.mpr ⟨h.distinct, List.nodup_singleton _, fun a ha b hb => by
    rw [List.mem_singleton.mp hb]
    exact fun heq => hnot (heq ▸ ha)⟩

theorem Ordered.apply (h : s.Ordered) (op : ScopeOp) : (s.apply op).Ordered := by
  obtain heq | ⟨frame, hparent, heq⟩ | heq | ⟨x, hfree, heq⟩ := s.apply_cases op
  · rw [heq]
    exact h.push
  · rw [heq]
    exact ⟨Nat.lt_trans (h.parent_lt hparent) h.current, h.parent_lt, h.parent_none, h.distinct⟩
  · rw [heq]
    exact h
  · rw [heq]
    exact h.add hfree

theorem Ordered.foldl (h : s.Ordered) (ops : List ScopeOp) :
    (ops.foldl Scopes.apply s).Ordered := by
  induction ops generalizing s with
  | nil => exact h
  | cons op ops ih => exact ih (h.apply op)

/-- The variable named `x` in the frame, or else in the nearest frame around it that has one. -/
inductive Nearest (s : Scopes) (x : String) : Nat → Nat → Prop where
  | here {frame v : Nat} : s.binding? v = some ⟨x, frame⟩ → Nearest s x frame v
  | around {frame parent v : Nat} : (∀ w, s.binding? w ≠ some ⟨x, frame⟩) →
      s.parent? frame = some parent → Nearest s x parent v → Nearest s x frame v

theorem Ordered.boundIn?_eq_some_iff (h : s.Ordered) {frame : Nat} :
    s.boundIn? frame x = some v ↔ s.binding? v = some ⟨x, frame⟩ := by
  have hsame : ∀ b : Binding, (b.name = x && b.frame = frame) = true ↔ b = ⟨x, frame⟩ := by
    intro b
    rw [Bool.and_eq_true, decide_eq_true_iff, decide_eq_true_iff]
    constructor
    · rintro ⟨rfl, rfl⟩
      rfl
    · rintro rfl
      exact ⟨rfl, rfl⟩
  rw [boundIn?, binding?, List.findIdx?_eq_some_iff_getElem, List.getElem?_eq_some_iff]
  constructor
  · rintro ⟨hlt, hhere, _⟩
    exact ⟨hlt, (hsame _).mp hhere⟩
  · rintro ⟨hlt, hhere⟩
    refine ⟨hlt, (hsame _).mpr hhere, fun j hj hother => ?_⟩
    have hother := (hsame _).mp hother
    -- a frame has one variable of a name, so no earlier one is found
    have heq : j = v := (List.Nodup.getElem_inj_iff h.distinct).mp (hother.trans hhere.symm)
    omega

theorem Ordered.boundIn?_eq_none_iff (h : s.Ordered) {frame : Nat} :
    s.boundIn? frame x = none ↔ ∀ w, s.binding? w ≠ some ⟨x, frame⟩ := by
  rw [Option.eq_none_iff_forall_ne_some]
  exact forall_congr' fun w => not_congr h.boundIn?_eq_some_iff

theorem Ordered.nearest_of_lookupFrom (h : s.Ordered) {frame : Nat}
    (hfound : s.lookupFrom frame x = some v) : s.Nearest x frame v := by
  induction frame using Nat.strongRecOn with
  | ind frame ih =>
    rw [Scopes.lookupFrom] at hfound
    cases hbound : s.boundIn? frame x with
    | some w =>
      rw [hbound] at hfound
      cases hfound
      exact .here (h.boundIn?_eq_some_iff.mp hbound)
    | none =>
      rw [hbound] at hfound
      cases hparent : s.parent? frame with
      | none =>
        rw [hparent] at hfound
        cases hfound
      | some parent =>
        have hlt := h.parent_lt hparent
        rw [hparent] at hfound
        simp only [hlt, if_true] at hfound
        exact .around (h.boundIn?_eq_none_iff.mp hbound) hparent (ih parent hlt hfound)

theorem Ordered.lookupFrom_of_nearest (h : s.Ordered) {frame : Nat} (hnear : s.Nearest x frame v) :
    s.lookupFrom frame x = some v := by
  induction hnear with
  | here hbound => rw [Scopes.lookupFrom, h.boundIn?_eq_some_iff.mpr hbound]
  | around hnone hparent _ ih =>
    have hlt := h.parent_lt hparent
    rw [Scopes.lookupFrom, h.boundIn?_eq_none_iff.mpr hnone, hparent]
    simp only [hlt, if_true, ih]

theorem numbers_eq (s : Scopes) (ops : List ScopeOp) :
    ∃ n, (ops.foldl Scopes.apply s).bindings.length = s.bindings.length + n ∧
      s.numbers ops = List.range' s.bindings.length n := by
  induction ops generalizing s with
  | nil => exact ⟨0, rfl, rfl⟩
  | cons op ops ih =>
    obtain ⟨n, hlen, hnumbers⟩ := ih (s.apply op)
    cases op with
    | push => exact ⟨n, hlen, hnumbers⟩
    | pop =>
      have hsame : (s.apply .pop).bindings = s.bindings := by
        change s.pop.bindings = _
        rw [Scopes.pop]
        cases s.parent? s.current <;> rfl
      rw [hsame] at hlen hnumbers
      exact ⟨n, hlen, hnumbers⟩
    | bind x =>
      rw [List.foldl_cons, Scopes.numbers, hlen, hnumbers]
      by_cases hx : s.inCurrent x = true
      · have hbind : s.bind? x = none := by rw [bind?_eq, if_pos hx]
        rw [Scopes.apply, hbind]
        exact ⟨n, rfl, rfl⟩
      · have hbind : s.bind? x = some (s.bindings.length, s.add x) := by rw [bind?_eq, if_neg hx]
        have hadd : (s.add x).bindings.length = s.bindings.length + 1 := by
          rw [Scopes.add, List.length_append]; rfl
        rw [Scopes.apply, hbind]
        refine ⟨n + 1, ?_, ?_⟩
        · change (s.add x).bindings.length + n = _
          omega
        · change s.bindings.length :: List.range' (s.add x).bindings.length n = _
          rw [hadd, List.range'_succ]

/-- What can be seen of the scopes is what can be seen of the stack, and old frames and variables
stay. -/
structure Follows (s : Scopes) (σ : ScopeStack) : Prop where
  lookup : ∀ x, s.lookup x = σ.lookup x
  inCurrent : ∀ x, s.inCurrent x = σ.top.contains x
  refused : ∀ x, s.bind? x = none ↔ σ.top.contains x = true
  unchanged : ∀ x, σ.top.contains x = true → s.apply (.bind x) = s
  bound : ∀ {x v s'}, s.bind? x = some (v, s') → v = σ.next ∧ s' = s.apply (.bind x) ∧
    ∀ ops : List ScopeOp, (ops.foldl Scopes.apply s').binding? v = some ⟨x, s.current⟩
  parent_lt : ∀ {frame parent}, s.parent? frame = some parent → parent < frame
  parent_none : ∀ {frame}, frame < s.frameCount → (s.parent? frame = none ↔ frame = 0)
  lookupFrom : ∀ {frame x v}, s.lookupFrom frame x = some v ↔ s.Nearest x frame v

theorem Agrees.next_eq (h : s.Agrees σ) : σ.next = s.bindings.length := by
  obtain ⟨_, hshows, _⟩ := h.frames
  exact hshows.next

theorem Agrees.refused (h : s.Agrees σ) (x : String) :
    s.bind? x = none ↔ σ.top.contains x = true := by
  rw [bind?_eq, h.inCurrent]
  by_cases hx : σ.top.contains x = true
  · rw [if_pos hx]
    exact iff_of_true rfl hx
  · rw [if_neg hx]
    exact iff_of_false (Option.some_ne_none _) hx

theorem Agrees.bound (h : s.Agrees σ) (hbind : s.bind? x = some (v, s')) :
    v = σ.next ∧ s' = s.apply (.bind x) ∧
      ∀ ops : List ScopeOp, (ops.foldl Scopes.apply s').binding? v = some ⟨x, s.current⟩ := by
  have happly : s' = s.apply (.bind x) := by rw [Scopes.apply, hbind]; rfl
  rw [bind?_eq] at hbind
  by_cases hx : s.inCurrent x = true
  · rw [if_pos hx] at hbind
    cases hbind
  · rw [if_neg hx] at hbind
    cases hbind
    refine ⟨h.next_eq.symm, happly, binding?_foldl ?_⟩
    simp [binding?, Scopes.add]

theorem Agrees.follows (h : s.Agrees σ) (hs : s.Ordered) : s.Follows σ where
  lookup := h.lookup
  inCurrent := h.inCurrent
  refused := h.refused
  unchanged := fun x hx => by rw [Scopes.apply, (h.refused x).mpr hx]; rfl
  bound := h.bound
  parent_lt := hs.parent_lt
  parent_none := hs.parent_none
  lookupFrom := ⟨hs.nearest_of_lookupFrom, hs.lookupFrom_of_nearest⟩

/-- Whatever is opened, closed and bound, the scopes follow the stack of maps, and variables are
numbered in turn. -/
theorem root_follows_stack (ops : List ScopeOp) :
    (ops.foldl Scopes.apply root).Follows (ops.foldl ScopeStack.apply .root) ∧
      root.numbers ops = List.range (ops.foldl ScopeStack.apply .root).next := by
  have hagrees := agrees_root.foldl ops
  refine ⟨hagrees.follows (ordered_root.foldl ops), ?_⟩
  obtain ⟨n, hlen, hnumbers⟩ := root.numbers_eq ops
  have hnext : (ops.foldl ScopeStack.apply .root).next = n := by
    rw [hagrees.next_eq, hlen]
    exact Nat.zero_add n
  rw [hnext, hnumbers, List.range_eq_range']
  rfl

end Scopes

end PipelineLang
