import PipelineLang.Proofs.Grammar.Rule
import PipelineLang.Proofs.Places.Tree
import PipelineLang.Proofs.Relocation.Rule

/-!
Grammar rules and places. A rule that succeeds has gone forward, and the trees of its result stand
in a row between where it began and what it has reached. Each way to combine rules keeps this.
-/

namespace PipelineLang

/-- The token stands where its text is written, and its text spells its names. -/
structure Lexeme.Stands (source : String) (l : Lexeme) : Prop where
  cuts : ∃ before after, l.span.Cuts source.toList before l.text.toList after
  start_lt_stop : l.span.start < l.span.stop
  spelled : l.Spelled
  qualifier : ∀ {qualifier name}, l.token = .qualified qualifier name → qualifier ≠ ""

namespace Cursor

/-- The tokens ahead stand in order behind all that was read. -/
structure Sound (source : String) (c : Cursor) : Prop where
  tokens : ∀ l ∈ c.ahead, l.Stands source
  ordered : c.ahead.Pairwise fun a b => a.span.stop ≤ b.span.start
  behind : ∀ l ∈ c.ahead, c.reached ≤ l.span.start

/-- From one cursor to a later one trees stand in a row; in a strict step there is text between the
two. -/
structure Leads (source : String) (strict : Bool) (c c' : Cursor) (trees : List SyntaxTree) :
    Prop where
  sound : c'.Sound source
  start : c.start ≤ c'.start
  reached : c.reached ≤ c'.reached
  forward : strict = true → c.start < c'.reached
  stand : Stand source c.start c'.reached trees

variable {source : String} {s s' : Bool} {c c' c'' : Cursor} {trees trees' : List SyntaxTree}

theorem Sound.reached_le_start (h : c.Sound source) : c.reached ≤ c.start := by
  unfold start
  split
  · rename_i l rest hahead
    exact h.behind l (by rw [hahead]; exact List.mem_cons_self)
  · exact Nat.le_refl _

theorem Sound.leads_self (h : c.Sound source) : c.Leads source false c [] where
  sound := h
  start := Nat.le_refl _
  reached := Nat.le_refl _
  forward := fun hstrict => absurd hstrict Bool.false_ne_true
  stand := stand_nil

theorem Leads.trans (h : c.Leads source s c' trees) (h' : c'.Leads source s' c'' trees') :
    c.Leads source (s || s') c'' (trees ++ trees') where
  sound := h'.sound
  start := Nat.le_trans h.start h'.start
  reached := Nat.le_trans h.reached h'.reached
  forward := by
    intro hstrict
    rcases Bool.or_eq_true_iff.mp hstrict with hs | hs
    · exact Nat.lt_of_lt_of_le (h.forward hs) h'.reached
    · exact Nat.lt_of_le_of_lt h.start (h'.forward hs)
  stand := h.stand.append h'.stand h.sound.reached_le_start h.start h'.reached

theorem Leads.weaken (h : c.Leads source s c' trees) : c.Leads source false c' trees :=
  { h with forward := fun hstrict => absurd hstrict Bool.false_ne_true }

theorem Leads.node (h : c.Leads source true c' trees) :
    c.Leads source true c' [.node ⟨c.start, c'.reached⟩ none trees] :=
  { h with stand := h.stand.node (h.forward rfl) }

theorem Sound.leads_token {l : Lexeme} {rest : List Lexeme} {index : Nat} (h : c.Sound source)
    (hahead : c.ahead = l :: rest) (htrees : Stand source l.span.start l.span.stop trees) :
    c.Leads source true ⟨rest, index, l.span.stop⟩ trees := by
  have hstart : c.start = l.span.start := by rw [Cursor.start, hahead]
  have hl : l ∈ c.ahead := by rw [hahead]; exact List.mem_cons_self
  have hordered := h.ordered
  rw [hahead] at hordered
  have hrest : ∀ l' ∈ rest, l' ∈ c.ahead := fun l' hl' => by
    rw [hahead]; exact List.mem_cons_of_mem _ hl'
  have hsound : Cursor.Sound source ⟨rest, index, l.span.stop⟩ :=
    ⟨fun l' hl' => h.tokens l' (hrest l' hl'), (List.pairwise_cons.mp hordered).2,
      (List.pairwise_cons.mp hordered).1⟩
  have hpos := (h.tokens l hl).start_lt_stop
  have hnext := hsound.reached_le_start
  have hbehind := h.behind l hl
  refine ⟨hsound, ?_, ?_, fun _ => ?_, ?_⟩
  · rw [hstart]
    exact Nat.le_trans (Nat.le_of_lt hpos) hnext
  · exact Nat.le_trans hbehind (Nat.le_of_lt hpos)
  · rw [hstart]
    exact hpos
  · rw [hstart]
    exact htrees

end Cursor

namespace Rule

variable {α β : Type} {source : String} {s s' : Bool} {r : Rule α}
  {P Q : α → List SyntaxTree → Prop} {g : α → List SyntaxTree}

/-- Each result of the rule stands in the relation `P` to a row of trees between where the rule
began and what it has reached. -/
def Lays (source : String) (s : Bool) (r : Rule α) (P : α → List SyntaxTree → Prop) : Prop :=
  ∀ ⦃c t a c' t'⦄, c.Sound source → r c t = (some (a, c'), t') →
  ∃ trees, P a trees ∧ c.Leads source s c' trees

def Gives (g : α → List SyntaxTree) (a : α) (trees : List SyntaxTree) : Prop := trees = g a

theorem Lays.imp (h : Lays source s r P) (hQ : ∀ a trees, P a trees → Q a trees) :
    Lays source s r Q := by
  intro c t a c' t' hc hr
  obtain ⟨trees, ha, hleads⟩ := h hc hr
  exact ⟨trees, hQ a trees ha, hleads⟩

theorem Lays.relax (h : Lays source true r P) : Lays source s r P := by
  intro c t a c' t' hc hr
  obtain ⟨trees, ha, hleads⟩ := h hc hr
  exact ⟨trees, ha, { hleads with forward := fun _ => hleads.forward rfl }⟩

theorem Lays.weaken (h : Lays source s r P) : Lays source false r P := by
  intro c t a c' t' hc hr
  obtain ⟨trees, ha, hleads⟩ := h hc hr
  exact ⟨trees, ha, hleads.weaken⟩

theorem lays_pure {a : α} (h : P a []) : Lays source false (pure a) P := by
  intro c t a' c' t' hc hr
  cases hr
  exact ⟨[], h, hc.leads_self⟩

section Bind

variable {f : α → Rule β} {Q : β → List SyntaxTree → Prop}

theorem lays_bind (h : Lays source s r P)
    (hf : ∀ a trees, P a trees → Lays source s' (f a) fun b trees' => Q b (trees ++ trees')) :
    Lays source (s || s') (r >>= f) Q := by
  intro c t b c'' t'' hc hr
  obtain ⟨a, c', t', hr, hfa⟩ := bind_eq_some hr
  obtain ⟨trees, ha, hleads⟩ := h hc hr
  obtain ⟨trees', hb, hleads'⟩ := hf a trees ha hleads.sound hfa
  exact ⟨trees ++ trees', hb, hleads.trans hleads'⟩

theorem Lays.bind (h : Lays source s r P)
    (hf : ∀ a trees, P a trees → Lays source false (f a) fun b trees' => Q b (trees ++ trees')) :
    Lays source s (r >>= f) Q := by
  have hboth := lays_bind h hf
  rwa [Bool.or_false] at hboth

theorem Lays.followed (h : Lays source false r P)
    (hf : ∀ a trees, P a trees → Lays source s (f a) fun b trees' => Q b (trees ++ trees')) :
    Lays source s (r >>= f) Q :=
  lays_bind h hf

theorem Lays.map {f : α → β} (h : Lays source s r P) (hf : ∀ a trees, P a trees → Q (f a) trees) :
    Lays source s (f <$> r) Q := by
  refine Lays.bind h fun a trees ha => lays_pure ?_
  rw [List.append_nil]
  exact hf a trees ha

end Bind

theorem lays_accept {f : Lexeme → Option α} (h : ∀ l a, l.Stands source → f l = some a →
    ∃ trees, P a trees ∧ Stand source l.span.start l.span.stop trees) :
    Lays source s (accept f) P := by
  refine Lays.relax fun c t a c' t' hc hr => ?_
  unfold accept at hr
  split at hr
  · cases hr
  · rename_i l rest hahead
    split at hr
    · rename_i a' ha
      cases hr
      obtain ⟨trees, hP, htrees⟩ :=
        h l a (hc.tokens l (by rw [hahead]; exact List.mem_cons_self)) ha
      exact ⟨trees, hP, hc.leads_token hahead htrees⟩
    · cases hr

theorem lays_token (expected : Token) : Lays source s (token expected) fun _ trees => trees = [] :=
  lays_accept fun _ _ _ _ => ⟨[], rfl, stand_nil⟩

theorem lays_skipUnless (stops : List Token) :
    Lays source s (skipUnless stops) fun _ trees => trees = [] :=
  lays_accept fun _ _ _ _ => ⟨[], rfl, stand_nil⟩

theorem lays_finish : Lays source false finish fun _ trees => trees = [] := by
  intro c t a c' t' hc hr
  unfold finish at hr
  split at hr
  · cases hr
    exact ⟨[], rfl, hc.leads_self⟩
  · cases hr

theorem Lays.after {f : Unit → Rule α} (expected : Token) (h : Lays source false (f ()) P) :
    Lays source s (token expected >>= f) P := by
  refine (lays_token expected).bind fun _ trees htrees => ?_
  subst htrees
  exact h

theorem Lays.closed (expected : Token) (h : Lays source s r P) :
    Lays source s (do let a ← r; token expected; return a) P := by
  refine h.bind fun a trees ha => Lays.after expected (lays_pure ?_)
  rw [List.append_nil]
  exact ha

theorem Lays.inParens (h : Lays source false r P) : Lays source s (inParens r) P :=
  Lays.after _ (h.closed _)

theorem Lays.spanned {r : Rule (Span → α)}
    (h : Lays source true r fun f trees => ∀ span, P (f span) [.node span none trees]) :
    Lays source s (spanned r) P := by
  refine Lays.relax fun c t a c' t' hc hr => ?_
  unfold Rule.spanned at hr
  split at hr
  · rename_i f c₁ t₁ hf
    cases hr
    obtain ⟨trees, hP, hleads⟩ := h hc hf
    exact ⟨_, hP _, hleads.node⟩
  · cases hr

theorem Lays.attempt (h : Lays source s r P) : Lays source s (attempt r) P := by
  intro c t a c' t' hc hr
  unfold Rule.attempt at hr
  split at hr
  · cases hr
  · exact h hc hr

theorem lays_firstOf {rs : List (Rule α)} (h : ∀ r ∈ rs, Lays source s r P) :
    Lays source s (firstOf rs) P := by
  induction rs with
  | nil =>
    intro c t a c' t' hc hr
    cases hr
  | cons r rs ih =>
    intro c t a c' t' hc hr
    unfold firstOf at hr
    split at hr
    · exact ih (fun r hr => h r (List.mem_cons_of_mem _ hr)) hc hr
    · exact h r List.mem_cons_self hc hr

theorem Lays.optional {Q : Option α → List SyntaxTree → Prop} (h : Lays source false r P)
    (hsome : ∀ a trees, P a trees → Q (some a) trees) (hnone : Q none []) :
    Lays source false (optional r) Q := by
  intro c t a c' t' hc hr
  unfold Rule.optional at hr
  split at hr
  · rename_i a₁ c₁ t₁ ha
    cases hr
    obtain ⟨trees, hP, hleads⟩ := h hc ha
    exact ⟨trees, hsome _ _ hP, hleads⟩
  · cases hr
    exact ⟨[], hnone, hc.leads_self⟩

theorem leads_collect (h : Lays source false r (Gives g)) (c : Cursor) (t : Trail)
    (hc : c.Sound source) :
    c.Leads source false (collect r c t).2.1 ((collect r c t).1.flatMap g) := by
  fun_induction collect r c t with
  | case1 c t t' hr => exact hc.leads_self
  | case2 c t a c' t' hr hlt as last hrest ih =>
    obtain ⟨trees, rfl, hleads⟩ := h hc hr
    have ih := ih hleads.sound
    rw [hrest] at ih
    exact hleads.trans ih
  | case3 c t a c' t' hr hlt =>
    obtain ⟨trees, rfl, hleads⟩ := h hc hr
    rw [List.flatMap_cons, List.flatMap_nil, List.append_nil]
    exact hleads

theorem Lays.many (h : Lays source false r (Gives g)) :
    Lays source false (many r) (Gives fun as => as.flatMap g) := by
  intro c t as c' t' hc hr
  have hleads := leads_collect h c t hc
  unfold Rule.many at hr
  cases hr
  exact ⟨_, rfl, hleads⟩

theorem Lays.many1 (h : Lays source s r (Gives g)) :
    Lays source s (many1 r) (Gives fun as => as.flatMap g) := by
  refine h.attempt.bind fun a trees ha => h.weaken.many.bind fun as trees' has => lays_pure ?_
  rw [ha, has, List.append_nil]
  rfl

theorem Lays.commaSeparated1 (h : Lays source s r (Gives g)) :
    Lays source s (commaSeparated1 r) (Gives fun as => as.flatMap g) := by
  have hnext : Lays source false (do symbol .comma; r) (Gives g) := Lays.after _ h.weaken
  refine h.attempt.bind fun a trees ha => hnext.many.bind fun as trees' has => lays_pure ?_
  rw [ha, has, List.append_nil]
  rfl

theorem Lays.commaSeparated (h : Lays source false r (Gives g)) :
    Lays source false (commaSeparated r) (Gives fun as => as.flatMap g) := by
  have hlist : Lays source false (Rule.optional (Rule.commaSeparated1 r))
      (Gives fun as => (as.getD []).flatMap g) :=
    h.commaSeparated1.optional (fun _ _ has => has) rfl
  exact hlist.map fun _ _ has => has

theorem Lays.recover {detour : Rule α} (h : Lays source s r P) (hd : Lays source s detour P) :
    Lays source s (recover r detour) P := by
  intro c t a c' t' hc hr
  unfold Rule.recover at hr
  split at hr
  · split at hr
    · rename_i a₁ c₁ t₁ hdetour
      cases hr
      exact hd hc hdetour
    · cases hr
  · exact h hc hr

/-- A rule that refers to itself may be taken to lay what it shall. -/
theorem lays_fix {f : Rule α → Rule α}
    (h : ∀ self, Lays source s self P → Lays source s (f self) P) :
    Lays source s (fix f) P := by
  intro c
  generalize hn : c.ahead.length = n
  induction n using Nat.strongRecOn generalizing c with
  | ind n ih =>
    intro t a c' t' hc hr
    unfold fix at hr
    refine h _ ?_ hc hr
    -- where nothing has been read in between, the rule fails
    intro c₁ t₁ a₁ c₂ t₂ hc₁ hr₁
    dsimp only at hr₁
    by_cases hlt : c₁.ahead.length < c.ahead.length
    · rw [if_pos hlt] at hr₁
      exact ih _ (by omega) rfl hc₁ hr₁
    · rw [if_neg hlt] at hr₁
      cases hr₁

section Chain

variable {tree : α → SyntaxTree} {join : α → α → Span → α}

def jointTree (tree : α → SyntaxTree) (x : α × Nat) : SyntaxTree :=
  .node ⟨(tree x.1).span.start, x.2⟩ none [tree x.1]

theorem lays_joint {operator : Rule Unit}
    (hoperator : Lays source s operator fun _ trees => trees = [])
    (h : Lays source false r (Gives fun a => [tree a])) :
    Lays source s (joint operator r) (Gives fun x => [jointTree tree x]) := by
  have hrest : Lays source false (do
      let right ← r
      fun c t => (some ((right, c.reached), c), t)) (Gives fun x => [jointTree tree x]) := by
    intro c t x c' t' hc hr
    obtain ⟨right, c₁, t₁, hright, hx⟩ := bind_eq_some hr
    cases hx
    obtain ⟨trees, rfl, hleads⟩ := h hc hright
    refine ⟨_, rfl, { hleads with stand := ?_ }⟩
    have hinside := hleads.stand.inside (tree right) List.mem_cons_self
    have hpos := hleads.stand.head.start_lt_stop
    have hright := stand_singleton hleads.stand.head (Nat.le_refl _) hinside.2
    exact (hright.node (by omega)).mono hinside.1 (Nat.le_refl _)
  refine hoperator.bind fun _ trees htrees => ?_
  subst htrees
  exact hrest

/-- A row of an operand and joints is joined from left to right, each time to all that is left of
it. -/
theorem stand_foldl_join (hjoin : ∀ a b span, tree (join a b span) =
    .node span none [tree a, tree b]) {lo hi : Nat} (tail : List (α × Nat)) {head : α} (h :
    Stand source lo hi (tree head :: tail.map (jointTree tree))) :
    Stand source lo hi [tree (tail.foldl (fun left x => join left x.1 ⟨lo, x.2⟩) head)] := by
  induction tail generalizing head with
  | nil => exact h
  | cons x tail ih =>
    have hleft := (h.inside _ List.mem_cons_self).1
    have hpos := h.head.start_lt_stop
    have hjoint : (tree head).span.stop ≤ (tree x.1).span.start ∧ x.2 ≤ hi :=
      h.tail.inside _ List.mem_cons_self
    have hjointPos : (tree x.1).span.start < x.2 := h.tail.head.start_lt_stop
    have hparts : Stand source lo x.2 ([tree head] ++ [tree x.1]) :=
      (stand_singleton h.head hleft (Nat.le_refl _)).append h.tail.head.stand hjoint.1
        (by dsimp only; omega) (by omega)
    have hjoined : Stand source lo x.2 [tree (join head x.1 ⟨lo, x.2⟩)] := by
      rw [hjoin]
      exact hparts.node (by omega)
    exact ih (hjoined.append h.tail.tail (Nat.le_refl _) (by change lo ≤ x.2; omega) hjoint.2)

theorem Lays.chain {operator : Rule Unit} (h : Lays source true r (Gives fun a => [tree a]))
    (hoperator : Lays source false operator fun _ trees => trees = [])
    (hjoin : ∀ a b span, tree (join a b span) = .node span none [tree a, tree b]) :
    Lays source s (chain operator join r) (Gives fun a => [tree a]) := by
  have hparts : Lays source true (chainParts operator r)
      (Gives fun x => tree x.1 :: x.2.map (jointTree tree)) := by
    refine h.bind fun head trees hhead => ?_
    refine (lays_joint hoperator h.weaken).many.bind fun tail trees' htail => lays_pure ?_
    rw [hhead, htail, List.append_nil]
    exact congrArg (tree head :: ·) List.map_eq_flatMap.symm
  refine Lays.relax fun c t a c' t' hc hr => ?_
  generalize hrun : chainParts operator r c t = o
  obtain ⟨_ | ⟨x, c₁⟩, t₁⟩ := o
  · rw [chain_refused hrun] at hr
    cases hr
  · rw [chain_read hrun] at hr
    cases hr
    obtain ⟨trees, rfl, hleads⟩ := hparts hc hrun
    exact ⟨_, rfl, { hleads with stand := stand_foldl_join hjoin x.2 hleads.stand }⟩

end Chain

end Rule

end PipelineLang
