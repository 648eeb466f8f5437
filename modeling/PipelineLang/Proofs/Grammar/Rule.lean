import PipelineLang.Grammar.Rule

/-! What grammar rules do with the tokens: a rule that succeeds has read a part of what was ahead,
and a rule that fails has left a mark. Each way to combine rules carries statements about results
along. -/

namespace PipelineLang

namespace Rule

variable {α β : Type} {n : Nat} {P Q : α → List Lexeme → Bool → Prop} {r : Rule α}

theorem bind_eq_some {f : α → Rule β} {b : β} {c c' : Cursor} {t t' : Trail}
    (h : (r >>= f) c t = (some (b, c'), t')) :
    ∃ a c₁ t₁, r c t = (some (a, c₁), t₁) ∧ f a c₁ t₁ = (some (b, c'), t') := by
  change Rule.bind r f c t = _ at h
  unfold Rule.bind at h
  split at h
  · exact ⟨_, _, _, ‹_›, h⟩
  · cases h

/-- What may come of a rule at a cursor. A result stands in the relation `Q` to the tokens that were
read and to whether nothing had to be recovered from; a failure is marked. -/
def Outcome (c : Cursor) (before : List Nat) (Q : α → List Lexeme → Bool → Prop) :
    Option (α × Cursor) × Trail → Prop
  | (none, t) => t.furthest.isSome = true
  | (some (a, c'), t) =>
    ∃ read new, c.ahead = read ++ c'.ahead ∧ t.reported = before ++ new ∧ Q a read new.isEmpty

/-- Wherever fewer than `n` tokens are ahead, the rule gives results in the relation `Q`. -/
structure Reads (n : Nat) (r : Rule α) (Q : α → List Lexeme → Bool → Prop) : Prop where
  outcome : ∀ c t, c.ahead.length < n → Outcome c t.reported Q (r c t)

theorem Reads.mono {m : Nat} (h : Reads n r P) (hm : m ≤ n)
    (hQ : ∀ a read clean, P a read clean → Q a read clean) : Reads m r Q := by
  refine ⟨fun c t hc => ?_⟩
  have ho := h.outcome c t (by omega)
  revert ho
  rcases r c t with ⟨_ | ⟨a, c'⟩, t'⟩
  · exact id
  · rintro ⟨read, new, hread, hnew, ha⟩
    exact ⟨read, new, hread, hnew, hQ _ _ _ ha⟩

theorem Reads.weaken (h : Reads n r P) (hQ : ∀ a read clean, P a read clean → Q a read clean) :
    Reads n r Q :=
  h.mono (Nat.le_refl n) hQ

theorem reads_pure {a : α} (h : Q a [] true) : Reads n (pure a) Q :=
  ⟨fun _ _ _ => ⟨[], [], rfl, (List.append_nil _).symm, h⟩⟩

theorem isEmpty_append (new new' : List Nat) :
    (new ++ new').isEmpty = (new.isEmpty && new'.isEmpty) := by
  cases new <;> rfl

theorem Reads.bind {f : α → Rule β} {Q : β → List Lexeme → Bool → Prop} (h : Reads n r P)
    (hf : ∀ a read clean, P a read clean →
      Reads (n - read.length) (f a) fun b read' clean' => Q b (read ++ read') (clean && clean')) :
    Reads n (r >>= f) Q := by
  refine ⟨fun c t hc => ?_⟩
  have ho := h.outcome c t hc
  change Outcome c t.reported Q (Rule.bind r f c t)
  unfold Rule.bind
  revert ho
  rcases r c t with ⟨_ | ⟨a, c'⟩, t'⟩
  · exact id
  · rintro ⟨read, new, hread, hnew, ha⟩
    have hlen := congrArg List.length hread
    rw [List.length_append] at hlen
    have ho := (hf a read _ ha).outcome c' t' (by omega)
    revert ho
    dsimp only
    rcases f a c' t' with ⟨_ | ⟨b, c''⟩, t''⟩
    · exact id
    · rintro ⟨read', new', hread', hnew', hb⟩
      exact ⟨read ++ read', new ++ new', by rw [hread, hread', List.append_assoc],
        by rw [hnew', hnew, List.append_assoc], (isEmpty_append new new').symm ▸ hb⟩

theorem Reads.map {f : α → β} {Q : β → List Lexeme → Bool → Prop}
    (h : Reads n r fun a read clean => Q (f a) read clean) : Reads n (f <$> r) Q := by
  refine Reads.bind h fun a read clean ha => reads_pure ?_
  rw [List.append_nil, Bool.and_true]
  exact ha

theorem reads_accept {f : Lexeme → Option α}
    (h : ∀ lexeme a, f lexeme = some a → Q a [lexeme] true) :
    Reads n (accept f) Q := by
  refine ⟨fun c t _ => ?_⟩
  unfold accept
  split
  · rfl
  · rename_i lexeme rest hahead
    split
    · rename_i a ha
      exact ⟨[lexeme], [], hahead, (List.append_nil _).symm, h lexeme a ha⟩
    · rfl

theorem reads_skipUnless (stops : List Token) :
    Reads n (skipUnless stops) fun _ read clean => read.length = 1 ∧ clean = true :=
  reads_accept fun _ _ _ => ⟨rfl, rfl⟩

theorem Reads.spanned {r : Rule (Span → α)}
    (h : Reads n r fun f read clean => ∀ span, Q (f span) read clean) :
    Reads n (spanned r) Q := by
  refine ⟨fun c t hc => ?_⟩
  have ho := h.outcome c t hc
  unfold Rule.spanned
  revert ho
  rcases r c t with ⟨_ | ⟨f, c'⟩, t'⟩
  · exact id
  · rintro ⟨read, new, hread, hnew, hf⟩
    exact ⟨read, new, hread, hnew, hf _⟩

theorem Reads.attempt (h : Reads n r Q) : Reads n (attempt r) Q := by
  refine ⟨fun c t hc => ?_⟩
  have ho := h.outcome c t hc
  unfold Rule.attempt
  revert ho
  rcases r c t with ⟨_ | ⟨a, c'⟩, t'⟩ <;> exact id

theorem outcome_firstOf {rs : List (Rule α)} (h : ∀ r ∈ rs, Reads n r Q) {c : Cursor} {t : Trail}
    (hc : c.ahead.length < n) (ht : rs = [] → t.furthest.isSome = true) :
    Outcome c t.reported Q (firstOf rs c t) := by
  induction rs generalizing t with
  | nil => exact ht rfl
  | cons r rs ih =>
    have ho := (h r List.mem_cons_self).outcome c t hc
    unfold firstOf
    revert ho
    rcases r c t with ⟨_ | ⟨a, c'⟩, t'⟩
    · intro hfail
      exact ih (fun r hr => h r (List.mem_cons_of_mem _ hr)) fun _ => hfail
    · exact id

theorem reads_firstOf {rs : List (Rule α)} (hne : rs ≠ []) (h : ∀ r ∈ rs, Reads n r Q) :
    Reads n (firstOf rs) Q :=
  ⟨fun _ _ hc => outcome_firstOf h hc fun hnil => absurd hnil hne⟩

theorem Reads.optional {Q : Option α → List Lexeme → Bool → Prop}
    (h : Reads n r fun a read clean => Q (some a) read clean) (hnone : Q none [] true) :
    Reads n (optional r) Q := by
  refine ⟨fun c t hc => ?_⟩
  have ho := h.outcome c t hc
  unfold Rule.optional
  revert ho
  rcases r c t with ⟨_ | ⟨a, c'⟩, t'⟩
  · exact fun _ => ⟨[], [], rfl, (List.append_nil _).symm, hnone⟩
  · exact id

inductive Each (P : α → List Lexeme → Bool → Prop) : List α → List Lexeme → Bool → Prop where
  | nil : Each P [] [] true
  | cons {a : α} {as : List α} {read read' : List Lexeme} {clean clean' : Bool} :
      P a read clean → Each P as read' clean' → Each P (a :: as) (read ++ read') (clean && clean')

theorem outcome_collect (h : Reads n r P) (c : Cursor) (t : Trail) (hc : c.ahead.length < n) :
    Outcome c t.reported (Each P)
      (some ((collect r c t).1, (collect r c t).2.1), (collect r c t).2.2) := by
  fun_induction collect r c t with
  | case1 c t t' hr => exact ⟨[], [], rfl, (List.append_nil _).symm, .nil⟩
  | case2 c t a c' t' hr hlt as last hrest ih =>
    have ho := h.outcome c t hc
    rw [hr] at ho
    obtain ⟨read, new, hread, hnew, ha⟩ := ho
    have ih := ih (by omega)
    rw [hrest] at ih
    obtain ⟨read', new', hread', hnew', has⟩ := ih
    exact ⟨read ++ read', new ++ new', by rw [hread, hread', List.append_assoc],
      by rw [hnew', hnew, List.append_assoc], (isEmpty_append new new').symm ▸ .cons ha has⟩
  | case3 c t a c' t' hr hlt =>
    have ho := h.outcome c t hc
    rw [hr] at ho
    obtain ⟨read, new, hread, hnew, ha⟩ := ho
    refine ⟨read, new, hread, hnew, ?_⟩
    rw [← List.append_nil read, ← Bool.and_true new.isEmpty]
    exact .cons ha .nil

theorem Reads.many (h : Reads n r P) : Reads n (many r) (Each P) :=
  ⟨fun c t hc => outcome_collect h c t hc⟩

theorem Reads.many1 (h : Reads n r P) : Reads n (many1 r) (Each P) := by
  refine h.attempt.bind fun a read clean ha => ?_
  refine (h.many.mono (Nat.sub_le _ _) fun _ _ _ => id).bind fun as read' clean' has => reads_pure
    ?_
  rw [List.append_nil, Bool.and_true]
  exact .cons ha has

theorem Reads.recover {detour : Rule α} (h : Reads n r Q)
    (hd : Reads n detour fun a read _ => Q a read false) : Reads n (recover r detour) Q := by
  refine ⟨fun c t hc => ?_⟩
  have ho := h.outcome c t hc
  have hdo := hd.outcome c ⟨none, t.reported⟩ hc
  unfold Rule.recover
  revert ho hdo
  rcases r c t with ⟨_ | ⟨a, c'⟩, failure⟩
  · intro hfail
    obtain ⟨index, hindex⟩ := Option.isSome_iff_exists.mp hfail
    dsimp only
    rcases detour c ⟨none, t.reported⟩ with ⟨_ | ⟨a, c'⟩, t'⟩
    · exact fun _ => hfail
    · rintro ⟨read, new, hread, hnew, ha⟩
      refine ⟨read, new ++ [index], hread, ?_, ?_⟩
      · simp only [hnew, hindex, Option.toList_some, List.append_assoc]
      · rw [List.isEmpty_eq_false_iff.mpr (by simp)]
        exact ha
  · exact fun ho _ => ho

/-- A rule that refers to itself may be taken to read as it shall wherever a token has been read. -/
theorem reads_fix {f : Rule α → Rule α}
    (h : ∀ m < n, ∀ self, Reads m self Q → Reads (m + 1) (f self) Q) : Reads n (fix f) Q := by
  suffices hall : ∀ m < n, ∀ c t, c.ahead.length = m → Outcome c t.reported Q (fix f c t) from
    ⟨fun c t hc => hall _ hc c t rfl⟩
  intro m
  induction m using Nat.strongRecOn with
  | ind m ih =>
    intro hm c t hlen
    unfold fix
    refine (h m hm _ ⟨fun c' t' hc' => ?_⟩).outcome c t (by omega)
    rw [if_pos (by omega)]
    exact ih _ hc' (by omega) c' t' rfl

end Rule

end PipelineLang
