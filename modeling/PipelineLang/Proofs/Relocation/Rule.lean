import PipelineLang.Grammar.Rule
import PipelineLang.Proofs.Relocation.Syntax

/-!
Grammar rules at other places. When tokens are relocated a rule takes the same number of them,
leaves the same trail and gives the relocated result. Each way to combine rules carries this along.
-/

namespace PipelineLang

def Lexeme.relocate (φ : Relocation) (l : Lexeme) : Lexeme := ⟨l.token, l.text, l.span.relocate φ⟩

/-- The two parts of a dotted name keep their lengths. -/
def Lexeme.Fits (φ : Relocation) (l : Lexeme) : Prop :=
  ∀ qualifier name, l.token = .qualified qualifier name →
    φ.stop (l.span.start + qualifier.utf8ByteSize) = φ.start l.span.start + qualifier.utf8ByteSize
    ∧ φ.start (l.span.start + qualifier.utf8ByteSize + 1)
      = φ.start l.span.start + qualifier.utf8ByteSize + 1

namespace Cursor

def relocate (φ : Relocation) (c : Cursor) : Cursor :=
  ⟨c.ahead.map (Lexeme.relocate φ), c.index, φ.stop c.reached⟩

def last (c : Cursor) : Nat := (c.ahead.getLast?.map fun l => l.span.stop).getD c.reached

/-- The relocation suits the tokens ahead, and the place behind them all, where a rule that finds no
token begins. -/
structure Fits (φ : Relocation) (c : Cursor) : Prop where
  ahead : ∀ l ∈ c.ahead, l.Fits φ
  last : φ.start c.last = φ.stop c.last

variable {φ : Relocation}

@[simp] theorem length_relocate (c : Cursor) : (c.relocate φ).ahead.length = c.ahead.length :=
  List.length_map _

theorem start_relocate {c : Cursor} (h : c.Fits φ) : (c.relocate φ).start = φ.start c.start := by
  obtain ⟨ahead, index, reached⟩ := c
  cases ahead with
  | nil => exact h.last.symm
  | cons l rest => rfl

theorem Fits.next {l : Lexeme} {rest : List Lexeme} {index index' reached : Nat}
    (h : Fits φ ⟨l :: rest, index, reached⟩) : Fits φ ⟨rest, index', l.span.stop⟩ := by
  refine ⟨fun k hk => h.ahead k (List.mem_cons_of_mem l hk), ?_⟩
  have hlast : Cursor.last ⟨l :: rest, index, reached⟩ =
      Cursor.last ⟨rest, index', l.span.stop⟩ := by
    cases rest <;> simp [Cursor.last, List.getLast?_cons]
  rw [← hlast]
  exact h.last

end Cursor

namespace Rule

variable {φ : Relocation} {α β α' β' : Type}

/-- Two outcomes that differ by the relocation, with results that stand in the relation `R`. -/
inductive Moved (φ : Relocation) (R : α → β → Prop) :
    Option (α × Cursor) × Trail → Option (β × Cursor) × Trail → Prop where
  | refused (t : Trail) : Moved φ R (none, t) (none, t)
  | read {a : α} {b : β} {c : Cursor} (t : Trail) (hab : R a b) (hc : c.Fits φ) :
      Moved φ R (some (a, c), t) (some (b, c.relocate φ), t)

/-- The second rule does at relocated tokens what the first one does. -/
structure Moves (φ : Relocation) (R : α → β → Prop) (r : Rule α) (r' : Rule β) : Prop where
  outcome : ∀ c t, c.Fits φ → Moved φ R (r c t) (r' (c.relocate φ) t)

/-- Results that are relocated by `f`. -/
abbrev Sends (f : α → β) (a : α) (b : β) : Prop := b = f a

/-- Results that still lack their span and are relocated by `f` once they have it. -/
abbrev SendsAt (φ : Relocation) (f : α → β) (a : Span → α) (b : Span → β) : Prop :=
  ∀ span, b (span.relocate φ) = f (a span)

variable {R : α → β → Prop} {S : α' → β' → Prop} {r : Rule α} {r' : Rule β}

theorem moves_pure {a : α} {b : β} (h : R a b) : Moves φ R (pure a) (pure b) :=
  ⟨fun _ t hc => .read t h hc⟩

theorem Moves.bind {f : α → Rule α'} {f' : β → Rule β'} (h : Moves φ R r r')
    (hf : ∀ a b, R a b → Moves φ S (f a) (f' b)) : Moves φ S (r >>= f) (r' >>= f') := by
  refine ⟨fun c t hc => ?_⟩
  have ho := h.outcome c t hc
  change Moved φ S (Rule.bind r f c t) (Rule.bind r' f' (c.relocate φ) t)
  unfold Rule.bind
  revert ho
  generalize r c t = o
  generalize r' (c.relocate φ) t = o'
  rintro (t' | ⟨t', hab, hc'⟩)
  · exact .refused t'
  · exact (hf _ _ hab).outcome _ t' hc'

theorem Moves.map {f : α → α'} {f' : β → β'} (h : Moves φ R r r')
    (hf : ∀ a b, R a b → S (f a) (f' b)) :
    Moves φ S (f <$> r) (f' <$> r') :=
  h.bind fun a b hab => moves_pure (hf a b hab)

theorem moves_accept {f : Lexeme → Option α} {f' : Lexeme → Option β}
    (h : ∀ l : Lexeme, l.Fits φ → Option.Rel R (f l) (f' (l.relocate φ))) :
    Moves φ R (accept f) (accept f') := by
  refine ⟨fun c t hc => ?_⟩
  obtain ⟨ahead, index, reached⟩ := c
  cases ahead with
  | nil => exact .refused _
  | cons l rest =>
    have hl := h l (hc.ahead l List.mem_cons_self)
    simp only [accept, Cursor.relocate, List.map_cons]
    revert hl
    generalize f l = o
    generalize f' (l.relocate φ) = o'
    rintro (hab | _)
    · exact .read t hab hc.next
    · exact .refused _

theorem moves_token (expected : Token) : Moves φ (Sends id) (token expected) (token expected) := by
  refine moves_accept fun l _ => ?_
  by_cases h : l.token = expected
  · simp only [Lexeme.relocate, h, if_true]
    exact .some rfl
  · simp only [Lexeme.relocate, h, if_false]
    exact .none

theorem moves_skipUnless (stops : List Token) :
    Moves φ (Sends id) (skipUnless stops) (skipUnless stops) := by
  refine moves_accept fun l _ => ?_
  by_cases h : l.token ∈ stops
  · simp only [Lexeme.relocate, h, if_true]
    exact .none
  · simp only [Lexeme.relocate, h, if_false]
    exact .some rfl

theorem moves_finish : Moves φ (Sends id) finish finish := by
  refine ⟨fun c t hc => ?_⟩
  obtain ⟨ahead, index, reached⟩ := c
  cases ahead with
  | nil => exact .read t rfl hc
  | cons l rest => exact .refused _

theorem Moves.spanned {f : α → β} {r : Rule (Span → α)} {r' : Rule (Span → β)}
    (h : Moves φ (SendsAt φ f) r r') : Moves φ (Sends f) (spanned r) (spanned r') := by
  refine ⟨fun c t hc => ?_⟩
  have ho := h.outcome c t hc
  have hstart := Cursor.start_relocate hc
  unfold Rule.spanned
  revert ho
  generalize r c t = o
  generalize r' (c.relocate φ) t = o'
  rintro (t' | ⟨t', hab, hc'⟩)
  · exact .refused t'
  · refine .read t' ?_ hc'
    rw [hstart]
    exact hab ⟨c.start, _⟩

theorem Moves.attempt (h : Moves φ R r r') : Moves φ R (attempt r) (attempt r') := by
  refine ⟨fun c t hc => ?_⟩
  have ho := h.outcome c t hc
  unfold Rule.attempt
  revert ho
  generalize r c t = o
  generalize r' (c.relocate φ) t = o'
  rintro (t' | ⟨t', hab, hc'⟩)
  · exact .refused _
  · exact .read t' hab hc'

theorem moves_firstOf_nil : Moves φ R (firstOf []) (firstOf []) := ⟨fun _ t _ => .refused t⟩

theorem Moves.firstOf {rs : List (Rule α)} {rs' : List (Rule β)} (h : Moves φ R r r')
    (hrest : Moves φ R (firstOf rs) (firstOf rs')) :
    Moves φ R (firstOf (r :: rs)) (firstOf (r' :: rs')) := by
  refine ⟨fun c t hc => ?_⟩
  have ho := h.outcome c t hc
  unfold Rule.firstOf
  revert ho
  generalize r c t = o
  generalize r' (c.relocate φ) t = o'
  rintro (t' | ⟨t', hab, hc'⟩)
  · exact hrest.outcome c _ hc
  · exact .read t' hab hc'

theorem Moves.optional {f : α → β} (h : Moves φ (Sends f) r r') :
    Moves φ (Sends (Option.map f)) (optional r) (optional r') := by
  refine ⟨fun c t hc => ?_⟩
  have ho := h.outcome c t hc
  unfold Rule.optional
  revert ho
  generalize r c t = o
  generalize r' (c.relocate φ) t = o'
  rintro (t' | ⟨t', hab, hc'⟩)
  · exact .read _ rfl hc
  · exact .read t' (congrArg some hab) hc'

theorem collect_relocate {f : α → β} (h : Moves φ (Sends f) r r') (c : Cursor) (t : Trail)
    (hc : c.Fits φ) :
    (collect r c t).2.1.Fits φ ∧ collect r' (c.relocate φ) t =
      ((collect r c t).1.map f, (collect r c t).2.1.relocate φ, (collect r c t).2.2) := by
  fun_induction collect r c t with
  | case1 c t t' hr =>
    have ho := h.outcome c t hc
    rw [hr] at ho
    generalize hr' : r' (c.relocate φ) t = o' at ho
    cases ho
    refine ⟨hc, ?_⟩
    rw [collect, hr']
    rfl
  | case2 c t a c' t' hr hlt as last hrest ih =>
    have ho := h.outcome c t hc
    rw [hr] at ho
    generalize hr' : r' (c.relocate φ) t = o' at ho
    cases ho with
    | read t' hab hc' =>
      obtain ⟨hlast, hcollect⟩ := ih hc'
      rw [hrest] at hlast hcollect
      refine ⟨hlast, ?_⟩
      rw [collect, hr']
      simp only [Cursor.length_relocate, hlt, if_true, hcollect, hab, List.map_cons]
  | case3 c t a c' t' hr hlt =>
    have ho := h.outcome c t hc
    rw [hr] at ho
    generalize hr' : r' (c.relocate φ) t = o' at ho
    cases ho with
    | read t' hab hc' =>
      refine ⟨hc', ?_⟩
      rw [collect, hr']
      simp only [Cursor.length_relocate, hlt, if_false, hab, List.map_cons, List.map_nil]

theorem Moves.many {f : α → β} (h : Moves φ (Sends f) r r') :
    Moves φ (Sends (List.map f)) (many r) (many r') :=
  ⟨fun c t hc => by
    obtain ⟨hlast, hcollect⟩ := collect_relocate h c t hc
    simp only [Rule.many, hcollect]
    exact .read _ rfl hlast⟩

theorem Moves.many1 {f : α → β} (h : Moves φ (Sends f) r r') :
    Moves φ (Sends (List.map f)) (many1 r) (many1 r') := by
  refine h.attempt.bind fun a _ ha => h.many.bind fun as _ has => moves_pure ?_
  rw [ha, has]
  rfl

theorem Moves.behind (h : Moves φ R r r') (expected : Token) :
    Moves φ R (token expected >>= fun _ => r) (token expected >>= fun _ => r') :=
  (moves_token expected).bind fun _ _ _ => h

theorem Moves.commaSeparated1 {f : α → β} (h : Moves φ (Sends f) r r') :
    Moves φ (Sends (List.map f)) (commaSeparated1 r) (commaSeparated1 r') := by
  refine h.attempt.bind fun a _ ha => (h.behind _).many.bind fun as _ has => moves_pure ?_
  rw [ha, has]
  rfl

theorem Moves.commaSeparated {f : α → β} (h : Moves φ (Sends f) r r') :
    Moves φ (Sends (List.map f)) (commaSeparated r) (commaSeparated r') := by
  refine h.commaSeparated1.optional.bind fun as _ has => moves_pure ?_
  rw [has]
  cases as <;> rfl

theorem Moves.closed (h : Moves φ R r r') (closing : Token) :
    Moves φ R (do let a ← r; token closing; return a) (do let a ← r'; token closing; return a) :=
  h.bind fun _ _ hab => (moves_pure hab).behind closing

theorem Moves.inParens (h : Moves φ R r r') : Moves φ R (inParens r) (inParens r') :=
  (h.closed _).behind _

theorem Moves.recover {detour : Rule α} {detour' : Rule β} (h : Moves φ R r r')
    (hd : Moves φ R detour detour') : Moves φ R (recover r detour) (recover r' detour') := by
  refine ⟨fun c t hc => ?_⟩
  have ho := h.outcome c t hc
  have hdo := hd.outcome c ⟨none, t.reported⟩ hc
  unfold Rule.recover
  revert ho hdo
  generalize r c t = o
  generalize r' (c.relocate φ) t = o'
  generalize detour c ⟨none, t.reported⟩ = d
  generalize detour' (c.relocate φ) ⟨none, t.reported⟩ = d'
  rintro (t' | ⟨t', hab, hc'⟩) hdo
  · rcases hdo with (t'' | ⟨t'', hab, hc'⟩)
    · exact .refused _
    · exact .read _ hab hc'
  · exact .read t' hab hc'

theorem foldl_join_relocate {f : α → α} {join : α → α → Span → α}
    (hjoin : ∀ a b span, join (f a) (f b) (span.relocate φ) = f (join a b span)) (start : Nat)
    (tail : List (α × Nat)) (head : α) :
    (tail.map fun x => (f x.1, φ.stop x.2)).foldl
        (fun left x => join left x.1 ⟨φ.start start, x.2⟩) (f head) =
      f (tail.foldl (fun left x => join left x.1 ⟨start, x.2⟩) head) := by
  induction tail generalizing head with
  | nil => rfl
  | cons x tail ih =>
    rw [List.map_cons, List.foldl_cons, List.foldl_cons, ← ih]
    congr 1
    exact hjoin head x.1 ⟨start, x.2⟩

def joint (operator : Rule Unit) (operand : Rule α) : Rule (α × Nat) := do
  operator
  let right ← operand
  fun c t => (some ((right, c.reached), c), t)

def chainParts (operator : Rule Unit) (operand : Rule α) : Rule (α × List (α × Nat)) := do
  let head ← operand
  let tail ← many (joint operator operand)
  return (head, tail)

section Chain

variable {operator : Rule Unit} {r r' : Rule α} {c c' : Cursor} {t t' : Trail} {f : α → α}

theorem chain_refused (h : chainParts operator r c t = (none, t')) (join : α → α → Span → α) :
    chain operator join r c t = (none, t') := by
  unfold chainParts joint at h
  simp only [chain, h]

theorem chain_read {head : α} {tail : List (α × Nat)}
    (h : chainParts operator r c t = (some ((head, tail), c'), t')) (join : α → α → Span → α) :
    chain operator join r c t =
      (some (tail.foldl (fun left x => join left x.1 ⟨c.start, x.2⟩) head, c'), t') := by
  unfold chainParts joint at h
  simp only [chain, h]

theorem Moves.joint (h : Moves φ (Sends f) r r')
    (hoperator : Moves φ (Sends id) operator operator) :
    Moves φ (Sends fun x => (f x.1, φ.stop x.2)) (joint operator r) (joint operator r') := by
  refine hoperator.bind fun _ _ _ => h.bind fun right _ hright => ⟨fun c t hc => ?_⟩
  exact .read t (by rw [hright]; rfl) hc

theorem Moves.chainParts (h : Moves φ (Sends f) r r')
    (hoperator : Moves φ (Sends id) operator operator) :
    Moves φ (Sends fun x => (f x.1, x.2.map fun y => (f y.1, φ.stop y.2))) (chainParts operator r)
      (chainParts operator r') := by
  refine h.bind fun head _ hhead => (h.joint hoperator).many.bind fun tail _ htail => moves_pure ?_
  rw [hhead, htail]

theorem Moves.chain (h : Moves φ (Sends f) r r') (hoperator : Moves φ (Sends id) operator operator)
    (join : α → α → Span → α)
    (hjoin : ∀ a b span, join (f a) (f b) (span.relocate φ) = f (join a b span)) :
    Moves φ (Sends f) (chain operator join r) (chain operator join r') := by
  refine ⟨fun c t hc => ?_⟩
  have ho := (h.chainParts hoperator).outcome c t hc
  generalize hparts : Rule.chainParts operator r c t = o at ho
  generalize hparts' : Rule.chainParts operator r' (c.relocate φ) t = o' at ho
  rcases ho with (t' | ⟨t', hab, hc'⟩)
  · rw [chain_refused hparts, chain_refused hparts']
    exact .refused t'
  · rw [chain_read hparts, chain_read hparts']
    refine .read t' ?_ hc'
    rw [hab, Cursor.start_relocate hc]
    exact foldl_join_relocate hjoin c.start _ _

end Chain

/-- A rule that refers to itself moves if it does so whenever what it refers to moves. -/
theorem moves_fix {f : Rule α → Rule α} {f' : Rule β → Rule β}
    (h : ∀ self self', Moves φ R self self' → Moves φ R (f self) (f' self')) :
    Moves φ R (fix f) (fix f') := by
  suffices hall : ∀ n c t, c.ahead.length = n → c.Fits φ →
      Moved φ R (fix f c t) (fix f' (c.relocate φ) t) from
    ⟨fun c t hc => hall _ c t rfl hc⟩
  intro n
  induction n using Nat.strongRecOn with
  | ind n ih =>
    intro c t hlen hc
    unfold fix
    refine (h _ _ ⟨fun c' t' hc' => ?_⟩).outcome c t hc
    rw [Cursor.length_relocate, Cursor.length_relocate]
    split
    · exact ih _ (by omega) c' t' rfl hc'
    · exact .refused t'

end Rule

end PipelineLang
