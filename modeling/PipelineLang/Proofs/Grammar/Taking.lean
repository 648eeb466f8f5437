import PipelineLang.Grammar.Rule
import PipelineLang.Proofs.Grammar.Phrase

/-! When grammar rules take a given row of tokens and when they refuse what is ahead. Each way to
combine rules has its laws, so that a rule can be followed along a phrase. -/

namespace PipelineLang

variable {ahead : List Lexeme} {l : Lexeme} {expected : Token} {c : Cursor}

def nextToken (ts : List Lexeme) : Option Token := ts.head?.map Lexeme.token

@[simp] theorem nextToken_nil : nextToken [] = none := rfl

@[simp] theorem nextToken_cons (l : Lexeme) (ts : List Lexeme) :
    nextToken (l :: ts) = some l.token := rfl

namespace Cursor

def past (c : Cursor) (ts rest : List Lexeme) : Cursor :=
  ⟨rest, c.index + ts.length, (ts.getLast?.map fun l => l.span.stop).getD c.reached⟩

@[simp] theorem ahead_past (c : Cursor) (ts rest : List Lexeme) : (c.past ts rest).ahead = rest :=
  rfl

theorem past_nil {rest : List Lexeme} (h : c.ahead = [] ++ rest) : c.past [] rest = c := by
  rw [List.nil_append] at h
  subst h
  rfl

theorem past_past (c : Cursor) (ts ts' rest rest' : List Lexeme) :
    (c.past ts rest).past ts' rest' = c.past (ts ++ ts') rest' := by
  simp only [past, List.length_append, Nat.add_assoc, Cursor.mk.injEq, true_and]
  obtain rfl | ⟨us, l, rfl⟩ := List.eq_nil_or_concat ts'
  · simp
  · simp [← List.append_assoc]

theorem start_eq {ts rest : List Lexeme} (h : c.ahead = ts ++ rest) (hne : ts ≠ []) :
    c.start = (extent ts).start := by
  cases ts with
  | nil => exact absurd rfl hne
  | cons l ts => simp [start, h, extent]

theorem reached_past (c : Cursor) {ts : List Lexeme} (rest : List Lexeme) (hne : ts ≠ []) :
    (c.past ts rest).reached = (extent ts).stop := by
  simp [past, extent, List.getLast?_eq_some_getLast hne]

end Cursor

theorem extent_start_append {ts : List Lexeme} (h : ts ≠ []) (ts' : List Lexeme) :
    (extent (ts ++ ts')).start = (extent ts).start := by
  cases ts with
  | nil => exact absurd rfl h
  | cons l ts => rfl

theorem extent_stop_append (ts : List Lexeme) {ts' : List Lexeme} (h : ts' ≠ []) :
    (extent (ts ++ ts')).stop = (extent ts').stop := by
  simp [extent, List.getLast?_append, List.getLast?_eq_some_getLast h]

namespace Rule

variable {α β : Type} {r : Rule α} {ts ts' rest : List Lexeme} {a : α} {b : β}

/-- In front of `ts` and then `rest`, the rule reads just `ts`, and has nothing to recover from. -/
def Takes (r : Rule α) (ts rest : List Lexeme) (a : α) : Prop :=
  ∀ c t, c.ahead = ts ++ rest → ∃ t', r c t = (some (a, c.past ts rest), t') ∧
  t'.reported = t.reported

def Refuses (r : Rule α) (ahead : List Lexeme) : Prop := ∀ c t, c.ahead = ahead → (r c t).1 = none

theorem Refuses.eq (h : Refuses r ahead) {t : Trail}
    (hc : c.ahead = ahead) : r c t = (none, (r c t).2) := by
  rw [← h c t hc]

theorem takes_pure : Takes (pure a) [] rest a := by
  intro c t hc
  refine ⟨t, ?_, rfl⟩
  rw [Cursor.past_nil hc]
  rfl

theorem Takes.bind {f : α → Rule β} (h : Takes r ts (ts' ++ rest) a) (hf : Takes (f a) ts' rest b) :
    Takes (r >>= f) (ts ++ ts') rest b := by
  intro c t hc
  obtain ⟨t₁, h₁, ht₁⟩ := h c t (by rw [hc, List.append_assoc])
  obtain ⟨t₂, h₂, ht₂⟩ := hf (c.past ts (ts' ++ rest)) t₁ rfl
  refine ⟨t₂, ?_, ht₂.trans ht₁⟩
  change Rule.bind r f c t = _
  rw [Rule.bind, h₁]
  simp only [h₂, Cursor.past_past]

theorem Takes.map {f : α → β} (h : Takes r ts rest a) : Takes (f <$> r) ts rest (f a) := by
  have hbind : Takes (r >>= fun a => pure (f a)) (ts ++ []) rest (f a) :=
    Takes.bind (by simpa using h) takes_pure
  rwa [List.append_nil] at hbind

theorem Refuses.bind {f : α → Rule β} (h : Refuses r ahead) : Refuses (r >>= f) ahead := by
  intro c t hc
  change (Rule.bind r f c t).1 = none
  rw [Rule.bind, h.eq hc]

theorem Refuses.map {f : α → β} (h : Refuses r ahead) : Refuses (f <$> r) ahead :=
  Refuses.bind h

theorem Takes.bind_refuses {f : α → Rule β} (h : Takes r ts rest a) (hf : Refuses (f a) rest) :
    Refuses (r >>= f) (ts ++ rest) := by
  intro c t hc
  obtain ⟨t₁, h₁, -⟩ := h c t hc
  change (Rule.bind r f c t).1 = none
  rw [Rule.bind, h₁]
  exact hf _ t₁ rfl

theorem takes_accept {f : Lexeme → Option α} (h : f l = some a) : Takes (accept f) [l] rest a := by
  intro c t hc
  refine ⟨t, ?_, rfl⟩
  simp [accept, hc, h, Cursor.past]

theorem refuses_accept {f : Lexeme → Option α} (h : ∀ l ∈ ahead.head?, f l = none) :
    Refuses (accept f) ahead := by
  intro c t hc
  rw [accept, hc]
  cases ahead with
  | nil => rfl
  | cons l ahead =>
    dsimp only
    rw [h l rfl]

theorem takes_token (h : l.token = expected) :
    Takes (token expected) [l] rest () :=
  takes_accept (by rw [if_pos h])

theorem refuses_token (h : nextToken ahead ≠ some expected) :
    Refuses (token expected) ahead := by
  refine refuses_accept fun l hl => if_neg fun heq => h ?_
  rw [nextToken, hl, Option.map_some, heq]

theorem Takes.behind {f : Unit → Rule β} (h : l.token = expected)
    (hf : Takes (f ()) ts rest b) : Takes (token expected >>= f) (l :: ts) rest b :=
  Takes.bind (takes_token h) hf

theorem Takes.closed (h : Takes r ts (l :: rest) a) (hl : l.token = expected) :
    Takes (do let a ← r; token expected; return a) (ts ++ [l]) rest a :=
  Takes.bind h (Takes.behind hl takes_pure)

theorem Takes.spanned {r : Rule (Span → α)} {f : Span → α} (h : Takes r ts rest f) (hne : ts ≠ []) :
    Takes (spanned r) ts rest (f (extent ts)) := by
  intro c t hc
  obtain ⟨t', h', ht'⟩ := h c t hc
  refine ⟨t', ?_, ht'⟩
  rw [Rule.spanned, h']
  simp only [Cursor.start_eq hc hne, Cursor.reached_past c rest hne]

theorem Refuses.spanned {r : Rule (Span → α)} (h : Refuses r ahead) :
    Refuses (spanned r) ahead := by
  intro c t hc
  rw [Rule.spanned, h.eq hc]

theorem Takes.attempt (h : Takes r ts rest a) : Takes (attempt r) ts rest a := by
  intro c t hc
  obtain ⟨t', h', ht'⟩ := h c t hc
  exact ⟨t', by rw [Rule.attempt, h'], ht'⟩

theorem Refuses.attempt (h : Refuses r ahead) : Refuses (attempt r) ahead := by
  intro c t hc
  rw [Rule.attempt, h.eq hc]

theorem Takes.firstOf {rs : List (Rule α)} (h : Takes r ts rest a) :
    Takes (firstOf (r :: rs)) ts rest a := by
  intro c t hc
  obtain ⟨t', h', ht'⟩ := h c t hc
  exact ⟨t', by simp only [Rule.firstOf, h'], ht'⟩

theorem Refuses.firstOf {rs : List (Rule α)} (h : Refuses r (ts ++ rest))
    (hrs : Takes (firstOf rs) ts rest a) :
    Takes (firstOf (r :: rs)) ts rest a := by
  intro c t hc
  obtain ⟨t', h', ht'⟩ := hrs c ((r c t).2.rewind t) hc
  refine ⟨t', ?_, ht'⟩
  simp only [Rule.firstOf]
  rw [h.eq hc]
  exact h'

theorem refuses_firstOf {rs : List (Rule α)} (h : ∀ r ∈ rs, Refuses r ahead) :
    Refuses (firstOf rs) ahead := by
  intro c t hc
  induction rs generalizing t with
  | nil => rfl
  | cons r rs ih =>
    simp only [Rule.firstOf]
    rw [(h r List.mem_cons_self).eq hc]
    exact ih (fun r hr => h r (List.mem_cons_of_mem _ hr)) _

theorem Takes.optional (h : Takes r ts rest a) : Takes (optional r) ts rest (some a) := by
  intro c t hc
  obtain ⟨t', h', ht'⟩ := h c t hc
  exact ⟨t', by rw [Rule.optional, h'], ht'⟩

theorem Refuses.optional (h : Refuses r rest) : Takes (optional r) [] rest none := by
  intro c t hc
  refine ⟨(r c t).2.rewind t, ?_, rfl⟩
  rw [Rule.optional, h.eq hc, Cursor.past_nil hc]

theorem Takes.recover {detour : Rule α} (h : Takes r ts rest a) :
    Takes (recover r detour) ts rest a := by
  intro c t hc
  obtain ⟨t', h', ht'⟩ := h c t hc
  exact ⟨t', by rw [Rule.recover, h'], ht'⟩

theorem Refuses.recover {detour : Rule α} (h : Refuses r ahead)
    (hd : Refuses detour ahead) : Refuses (recover r detour) ahead := by
  intro c t hc
  rw [Rule.recover, h.eq hc]
  dsimp only
  rw [hd.eq hc]

theorem Refuses.many (h : Refuses r rest) : Takes (many r) [] rest [] := by
  intro c t hc
  refine ⟨(r c t).2.rewind t, ?_, rfl⟩
  rw [Rule.many, collect, h.eq hc, Cursor.past_nil hc]

theorem Takes.many_cons {as : List α} (h : Takes r ts (ts' ++ rest) a) (hne : ts ≠ [])
    (hs : Takes (many r) ts' rest as) : Takes (many r) (ts ++ ts') rest (a :: as) := by
  intro c t hc
  obtain ⟨t₁, h₁, ht₁⟩ := h c t (by rw [hc, List.append_assoc])
  obtain ⟨t₂, h₂, ht₂⟩ := hs (c.past ts (ts' ++ rest)) t₁ rfl
  refine ⟨t₂, ?_, ht₂.trans ht₁⟩
  have hshorter : (c.past ts (ts' ++ rest)).ahead.length < c.ahead.length := by
    have := List.length_pos_iff.mpr hne
    rw [hc, Cursor.ahead_past]
    simp only [List.length_append]
    omega
  rw [Rule.many] at h₂ ⊢
  rw [collect, h₁]
  simp only [hshorter, if_true]
  rw [Cursor.past_past] at h₂
  simp only [Prod.mk.injEq, Option.some.injEq] at h₂ ⊢
  exact ⟨⟨by rw [h₂.1.1], h₂.1.2⟩, h₂.2⟩

theorem Takes.many1 {as : List α} (h : Takes r ts (ts' ++ rest) a)
    (hs : Takes (many r) ts' rest as) :
    Takes (many1 r) (ts ++ ts') rest (a :: as) := by
  have hlast : Takes (List.cons a <$> Rule.many r) ts' rest (a :: as) := hs.map
  exact Takes.bind h.attempt hlast

theorem takes_row {Item : List Lexeme → α → Prop} {as : List α} (hrow : Row Item ts as)
    (hitem : ∀ ts₁ rest₁ a, Item ts₁ a → ts₁.length + rest₁.length ≤ ts.length + rest.length →
      ts₁.length ≤ ts.length → Takes r ts₁ rest₁ a)
    (hne : ∀ ts₁ a, Item ts₁ a → ts₁ ≠ []) (hstop : Refuses r rest) :
    Takes (many r) ts rest as := by
  induction hrow with
  | nil => exact hstop.many
  | @cons a as ts ts' ha has ih =>
    have hfirst : Takes r ts (ts' ++ rest) a := by
      refine hitem ts (ts' ++ rest) a ha ?_ ?_ <;> simp only [List.length_append] <;> omega
    refine hfirst.many_cons (hne ts a ha) (ih fun ts₁ rest₁ b hb hlen hle => ?_)
    refine hitem ts₁ rest₁ b hb ?_ ?_ <;> simp only [List.length_append] <;> omega

theorem takes_commaRow {Item : List Lexeme → α → Prop} {as : List α} (hrow : CommaRow Item ts as)
    (hitem : ∀ ts₁ rest₁ a, Item ts₁ a → Takes r ts₁ rest₁ a)
    (hstop : nextToken rest ≠ some (.symbol .comma)) : Takes (commaSeparated1 r) ts rest as := by
  have hend : Refuses (do symbol .comma; r) rest := (refuses_token hstop).bind
  have hmore : ∀ {ts as}, CommaRow Item ts as → ∀ l : Lexeme, l.token = .symbol .comma →
      Takes (Rule.many do symbol .comma; r) (l :: ts) rest as := by
    intro ts as h
    induction h with
    | @single a ts ha =>
      intro l hl
      have hitem' : Takes (do symbol .comma; r) (l :: ts) ([] ++ rest) a :=
        Takes.behind hl (hitem _ _ _ ha)
      have htake := hitem'.many_cons (List.cons_ne_nil l ts) hend.many
      rwa [List.append_nil] at htake
    | @cons a as ts ts' comma ha hcomma _ ih =>
      intro l hl
      have hitem' : Takes (do symbol .comma; r) (l :: ts) ((comma :: ts') ++ rest) a :=
        Takes.behind hl (hitem _ _ _ ha)
      exact hitem'.many_cons (List.cons_ne_nil l ts) (ih comma hcomma)
  cases hrow with
  | @single a ts ha =>
    have hlast : Takes (List.cons a <$> Rule.many do symbol .comma; r) [] rest [a] := hend.many.map
    have htake : Takes (commaSeparated1 r) (ts ++ []) rest [a] :=
      Takes.bind ((hitem ts ([] ++ rest) a ha).attempt) hlast
    rwa [List.append_nil] at htake
  | @cons a as ts ts' comma ha hcomma has =>
    have hlast : Takes (List.cons a <$> Rule.many do symbol .comma; r) (comma :: ts') rest
        (a :: as) :=
      (hmore has comma hcomma).map
    exact Takes.bind ((hitem ts (comma :: ts' ++ rest) a ha).attempt) hlast

theorem takes_inParens {Item : List Lexeme → α → Prop} (h : Enclosed Item ts a)
    (hitem : ∀ ts₁ l rest₁, Item ts₁ a → l.token = .symbol .closeParen →
      Takes r ts₁ (l :: rest₁) a) :
    Takes (inParens r) ts rest a := by
  cases h with
  | @mk _ ts opening closing ho ha hcl =>
    exact Takes.behind ho ((hitem ts closing rest ha hcl).closed hcl)

inductive Joined (sign : Token) (join : α → α → Span → α) (Operand : List Lexeme → α → Prop) :
    List Lexeme → α → Prop where
  | single {ts : List Lexeme} {a : α} : Operand ts a → Joined sign join Operand ts a
  | joined {ts ts' : List Lexeme} {l : Lexeme} {a b : α} :
      Joined sign join Operand ts a → l.token = sign → Operand ts' b →
      Joined sign join Operand (ts ++ l :: ts') (join a b (extent (ts ++ l :: ts')))

section Chain

variable {sign : Token} {join : α → α → Span → α} {Operand : List Lexeme → α → Prop}
  {operand : Rule α}

private def link (sign : Token) (operand : Rule α) : Rule (α × Nat) := do
  token sign
  let right ← operand
  fun c t => (some ((right, c.reached), c), t)

private theorem Takes.link (hl : l.token = sign) (h : Takes operand ts rest a) (hne : ts ≠ []) :
    Takes (link sign operand) (l :: ts) rest (a, (extent ts).stop) := by
  refine Takes.behind hl ?_
  intro c t hc
  obtain ⟨t', h', ht'⟩ := h c t hc
  refine ⟨t', ?_, ht'⟩
  change Rule.bind operand (fun right c t => (some ((right, c.reached), c), t)) c t = _
  simp only [Rule.bind, h', Cursor.reached_past c rest hne]

private theorem Joined.links (h : Joined sign join Operand ts a)
    (hoperand : ∀ ts₁ rest₁ b, Operand ts₁ b →
      (rest₁ = rest ∨ nextToken rest₁ = some sign) →
      ts₁.length + rest₁.length ≤ ts.length + ts'.length + rest.length →
      ts₁.length ≤ ts.length → Takes operand ts₁ rest₁ b)
    (hne : ∀ ts₁ b, Operand ts₁ b → ts₁ ≠ []) {tail : List (α × Nat)}
    (hfollow : ts' = [] ∨ nextToken ts' = some sign)
    (htail : Takes (many (link sign operand)) ts' rest tail) :
    ∃ ts₀ ts₁ head tail₀, ts = ts₀ ++ ts₁ ∧ ts₀ ≠ [] ∧ Takes operand ts₀ (ts₁ ++ (ts' ++ rest))
      head ∧ Takes (many (link sign operand)) (ts₁ ++ ts') rest (tail₀ ++ tail) ∧
      tail₀.foldl (fun left (right, stop) => join left right ⟨(extent ts).start, stop⟩) head =
        a := by
  have hbehind : ∀ {us : List Lexeme}, us = [] ∨ nextToken us = some sign →
      us ++ rest = rest ∨ nextToken (us ++ rest) = some sign := by
    rintro us (rfl | hus)
    · exact .inl rfl
    · cases us with
      | nil => cases hus
      | cons l us => exact .inr hus
  induction h generalizing ts' tail with
  | @single ts a ha =>
    refine ⟨ts, [], a, [], (List.append_nil ts).symm, hne ts a ha, ?_, htail, rfl⟩
    refine hoperand ts _ a ha (hbehind hfollow) ?_ (Nat.le_refl _)
    simp only [List.nil_append, List.length_append]
    omega
  | @joined ts us l a b hleft hl hb ih =>
    have hright : Takes operand us (ts' ++ rest) b := by
      refine hoperand us _ b hb (hbehind hfollow) ?_ ?_ <;> simp only [List.length_append,
        List.length_cons] <;> omega
    have hlink := (hright.link hl (hne us b hb)).many_cons (List.cons_ne_nil l us) htail
    obtain ⟨ts₀, ts₁, head, tail₀, rfl, hne₀, hhead, htail₀, hfold⟩ := ih
      (fun us₁ rest₁ b hb hn hlen hle => by
        refine hoperand us₁ rest₁ b hb hn ?_ ?_ <;> simp only [List.length_append, List.length_cons]
          at * <;> omega)
      (.inr (by rw [List.cons_append, nextToken_cons, hl])) hlink
    refine ⟨ts₀, ts₁ ++ l :: us, head, tail₀ ++ [(b, (extent us).stop)], ?_, hne₀, ?_, ?_, ?_⟩
    · rw [List.append_assoc]
    · simpa using hhead
    · simpa using htail₀
    · have hstart : (extent (ts₀ ++ ts₁ ++ l :: us)).start = (extent (ts₀ ++ ts₁)).start :=
        extent_start_append (by simp [hne₀]) _
      have hstop : (extent us).stop = (extent (ts₀ ++ ts₁ ++ l :: us)).stop := by
        have hus := hne us b hb
        rw [extent_stop_append _ (List.cons_ne_nil l us), ← List.singleton_append,
          extent_stop_append _ hus]
      rw [List.foldl_append, hstart, hfold]
      simp only [List.foldl_cons, List.foldl_nil, ← hstart, hstop]

theorem takes_chain (h : Joined sign join Operand ts a)
    (hoperand : ∀ ts₁ rest₁ b, Operand ts₁ b → (rest₁ = rest ∨ nextToken rest₁ = some sign) →
      ts₁.length + rest₁.length ≤ ts.length + rest.length → ts₁.length ≤ ts.length →
      Takes operand ts₁ rest₁ b)
    (hne : ∀ ts₁ b, Operand ts₁ b → ts₁ ≠ []) (hstop : nextToken rest ≠ some sign) :
    Takes (chain (token sign) join operand) ts rest a := by
  have hend : Refuses (link sign operand) rest := (refuses_token hstop).bind
  have hnone : Takes (many (link sign operand)) [] rest [] := hend.many
  obtain ⟨ts₀, ts₁, head, tail, rfl, hne₀, hhead, htail, hfold⟩ :=
    h.links (by simpa using hoperand) hne (.inl rfl) hnone
  simp only [List.append_nil, List.nil_append] at hhead htail
  have hsteps : Takes (do
      let head ← operand
      let tail ← many (link sign operand)
      return (head, tail)) (ts₀ ++ ts₁) rest (head, tail) := Takes.bind hhead htail.map
  intro c t hc
  obtain ⟨t', h', ht'⟩ := hsteps c t hc
  refine ⟨t', ?_, ht'⟩
  have hstart : c.start = (extent (ts₀ ++ ts₁)).start := Cursor.start_eq hc (by simp [hne₀])
  simp only [link] at h'
  rw [chain]
  dsimp only
  rw [h', hstart]
  dsimp only
  rw [hfold]

end Chain

/-- Where fewer than `n` tokens are ahead, `r'` does what `r` does. -/
structure StandsFor (n : Nat) (r' r : Rule α) : Prop where
  takes : ∀ ts rest a, ts.length + rest.length < n → Takes r ts rest a → Takes r' ts rest a
  refuses : ∀ ahead, Refuses r ahead → Refuses r' ahead

theorem takes_fix {f : Rule α → Rule α}
    (h : ∀ self, StandsFor (ts.length + rest.length) self (fix f) → Takes (f self) ts rest a) :
    Takes (fix f) ts rest a := by
  intro c t hc
  rw [fix]
  refine h _ ⟨?_, ?_⟩ c t hc
  · intro ts₁ rest₁ b hlen htakes c' t' hc'
    have hshorter : c'.ahead.length < c.ahead.length := by
      rw [hc, hc']
      simpa using hlen
    simp only [hshorter, if_true]
    exact htakes c' t' hc'
  · intro ahead hrefuses c' t' hc'
    by_cases hshorter : c'.ahead.length < c.ahead.length
    · simp only [hshorter, if_true]
      exact hrefuses c' t' hc'
    · simp only [hshorter, if_false]

theorem refuses_fix {f : Rule α → Rule α} (h : ∀ self, Refuses (f self) ahead) :
    Refuses (fix f) ahead := by
  intro c t hc
  rw [fix]
  exact h _ c t hc

end Rule

end PipelineLang
