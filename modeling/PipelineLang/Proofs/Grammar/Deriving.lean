import PipelineLang.Proofs.Grammar.Rule
import PipelineLang.Proofs.Grammar.Taking.Program

/-! What a rule reads without recovery is a phrase of the grammar. Which tree the phrase stands for
need not be followed here: every phrase is read for its own tree. -/

namespace PipelineLang

namespace Rule

variable {α β γ : Type} {n : Nat}

/-- Without recovery the tokens that were read are a phrase. -/
def Derivable (P : List Lexeme → α → Prop) : β → List Lexeme → Bool → Prop :=
  fun _ read clean => clean = true → ∃ a, P read a

theorem Derivable.imp {P : List Lexeme → α → Prop} {P' : List Lexeme → γ → Prop}
    (h : ∀ ts a, P ts a → ∃ a', P' ts a') (b : β) (read : List Lexeme) (clean : Bool)
    (hd : Derivable P b read clean) : Derivable P' b read clean := by
  intro hclean
  obtain ⟨a, ha⟩ := hd hclean
  exact h read a ha

theorem derives_sign (expected : Token) :
    Reads n (token expected) fun _ read clean => clean = true ∧ ∃ l,
    read = [l] ∧ l.token = expected := by
  refine reads_accept fun l _ h => ⟨rfl, l, rfl, ?_⟩
  by_cases hl : l.token = expected
  · exact hl
  · rw [if_neg hl] at h
    cases h

theorem Reads.after {expected : Token} {r : Rule α} {Q : α → List Lexeme → Bool → Prop}
    (h : Reads (n - 1) r fun a read clean => ∀ l : Lexeme, l.token = expected →
      Q a (l :: read) clean) :
    Reads n (token expected >>= fun _ => r) Q := by
  refine (derives_sign expected).bind ?_
  rintro _ read _ ⟨rfl, l, rfl, hl⟩
  exact h.weaken fun a read clean ha => ha l hl

theorem Each.row {P : List Lexeme → γ → Prop} {as : List β} {read : List Lexeme} {clean : Bool}
    (h : Each (Derivable P) as read clean) : Derivable (Row P) as read clean := by
  induction h with
  | nil => exact fun _ => ⟨[], .nil⟩
  | cons ha _ ih =>
    intro hclean
    rw [Bool.and_eq_true] at hclean
    obtain ⟨a, ha⟩ := ha hclean.1
    obtain ⟨as, has⟩ := ih hclean.2
    exact ⟨a :: as, .cons ha has⟩

theorem derives_many1 {r : Rule α} {P : List Lexeme → γ → Prop} (h : Reads n r (Derivable P)) :
    Reads n (many1 r) (Derivable fun ts as => Row P ts as ∧ as ≠ []) := by
  refine h.attempt.bind fun _ read clean ha => ?_
  refine (h.many.mono (Nat.sub_le _ _) fun _ _ _ => id).bind fun _ read' clean' has => reads_pure ?_
  intro hclean
  simp only [Bool.and_eq_true, and_true] at hclean
  obtain ⟨a, ha⟩ := ha hclean.1
  obtain ⟨as, has⟩ := has.row hclean.2
  rw [List.append_nil]
  exact ⟨a :: as, .cons ha has, List.cons_ne_nil a as⟩

theorem derives_commaSeparated1 {r : Rule α} {P : List Lexeme → γ → Prop}
    (h : Reads n r (Derivable P)) :
    Reads n (commaSeparated1 r) (Derivable (CommaRow P)) := by
  have hnext : Reads n (do symbol .comma; r)
      (Derivable fun ts a => ∃ l ts', ts = l :: ts' ∧ l.token = .symbol .comma ∧ P ts' a) := by
    refine (derives_sign (.symbol .comma)).bind ?_
    rintro _ read _ ⟨rfl, l, rfl, hl⟩
    refine h.mono (Nat.sub_le _ _) fun _ read' clean' ha hclean => ?_
    obtain ⟨a, ha⟩ := ha hclean
    exact ⟨a, l, read', rfl, hl, ha⟩
  -- items with their commas in front, behind a first one
  have hrow : ∀ {us : List Lexeme} {as : List γ},
      Row (fun ts a => ∃ l ts', ts = l :: ts' ∧ l.token = .symbol .comma ∧ P ts' a) us as →
      ∀ {ts a}, P ts a → CommaRow P (ts ++ us) (a :: as) := by
    intro us as h
    induction h with
    | nil =>
      intro ts a ha
      rw [List.append_nil]
      exact .single ha
    | cons hb _ ih =>
      intro ts a ha
      obtain ⟨l, us, rfl, hl, hb⟩ := hb
      exact .cons ha hl (ih hb)
  refine h.attempt.bind fun _ read clean ha => ?_
  refine (hnext.many.mono (Nat.sub_le _ _) fun _ _ _ => id).bind fun _ read' clean' has =>
    reads_pure ?_
  intro hclean
  simp only [Bool.and_eq_true, and_true] at hclean
  obtain ⟨a, ha⟩ := ha hclean.1
  obtain ⟨as, has⟩ := has.row hclean.2
  rw [List.append_nil]
  exact ⟨a :: as, hrow has ha⟩

theorem derives_inParens {r : Rule α} {P : List Lexeme → γ → Prop}
    (h : Reads (n - 1) r (Derivable P)) :
    Reads n (inParens r) (Derivable (Enclosed P)) := by
  refine Reads.after (h.bind fun _ read clean ha => ?_)
  refine (derives_sign _).bind ?_
  rintro _ _ _ ⟨rfl, closing, rfl, hcl⟩
  refine reads_pure fun opening ho hclean => ?_
  simp only [Bool.and_eq_true, and_true] at hclean
  obtain ⟨a, ha⟩ := ha hclean
  exact ⟨a, .mk ho ha hcl⟩

theorem Joined.exists_append {sign : Token} {join : α → α → Span → α} {P : List Lexeme → α → Prop}
    {us : List Lexeme} {as : List α}
    (hrow : Row (fun ts a => ∃ l ts', ts = l :: ts' ∧ l.token = sign ∧ P ts' a) us as)
    {ts : List Lexeme} {a : α} (h : Joined sign join P ts a) :
    ∃ b, Joined sign join P (ts ++ us) b := by
  induction hrow generalizing ts a with
  | nil => exact ⟨a, by rwa [List.append_nil]⟩
  | cons hb _ ih =>
    obtain ⟨l, us, rfl, hl, hb⟩ := hb
    rw [← List.append_assoc]
    exact ih (.joined h hl hb)

theorem derives_chain {sign : Token} {join : α → α → Span → α} {P : List Lexeme → α → Prop}
    {r : Rule α} (h : Reads n r (Derivable P)) :
    Reads n (chain (token sign) join r) (Derivable (Joined sign join P)) := by
  have hnext : Reads n (do
      token sign
      let right ← r
      fun c t => (some ((right, c.reached), c), t))
      (Derivable fun ts a => ∃ l ts', ts = l :: ts' ∧ l.token = sign ∧ P ts' a) := by
    refine (derives_sign sign).bind ?_
    rintro _ read _ ⟨rfl, l, rfl, hl⟩
    refine (h.mono (Nat.sub_le _ _) fun _ _ _ => id).bind fun _ read' clean' ha => ?_
    refine ⟨fun c t _ => ⟨[], [], rfl, (List.append_nil _).symm, fun hclean => ?_⟩⟩
    obtain ⟨a, ha⟩ := ha (by simpa using hclean)
    exact ⟨a, l, read', by simp, hl, ha⟩
  have hsteps : Reads n (do
      let head ← r
      let tail ← many do
        token sign
        let right ← r
        fun c t => (some ((right, c.reached), c), t)
      return (head, tail)) (Derivable (Joined sign join P)) := by
    refine h.bind fun _ read clean hhead => ?_
    refine (hnext.many.mono (Nat.sub_le _ _) fun _ _ _ => id).bind fun _ read' clean' htail =>
      reads_pure ?_
    intro hclean
    simp only [Bool.and_eq_true, and_true] at hclean
    obtain ⟨a, ha⟩ := hhead hclean.1
    obtain ⟨as, has⟩ := htail.row hclean.2
    rw [List.append_nil]
    exact Joined.exists_append has (.single ha)
  refine ⟨fun c t hc => ?_⟩
  have ho := hsteps.outcome c t hc
  unfold chain
  dsimp only
  revert ho
  split
  · rename_i hsome
    rw [hsome]
    exact id
  · rename_i hnone
    rw [hnone]
    exact id

theorem derives_ident : Reads n ident (Derivable IdentPhrase) := by
  refine reads_accept fun l id h _ => ?_
  split at h
  · rename_i name hl
    exact ⟨_, .mk hl⟩
  · cases h

theorem derives_literal : Reads n literal (Derivable LiteralPhrase) := by
  refine reads_accept fun l lit h _ => ?_
  split at h
  · rename_i value hl
    exact ⟨_, .mk hl⟩
  · cases h

theorem derives_identOrLiteral : Reads n identOrLiteral (Derivable SourcePhrase) := by
  refine reads_firstOf (by simp) fun r hr => ?_
  simp only [List.mem_cons, List.not_mem_nil, or_false] at hr
  rcases hr with rfl | rfl
  · exact Reads.map (derives_literal.weaken (Derivable.imp fun _ _ h => ⟨_, .literal h⟩))
  · exact Reads.map (derives_ident.weaken (Derivable.imp fun _ _ h => ⟨_, .ident h⟩))

theorem derives_operand : Reads n operand (Derivable OperandPhrase) := by
  refine reads_firstOf (by simp) fun r hr => ?_
  simp only [List.mem_cons, List.not_mem_nil, or_false] at hr
  rcases hr with rfl | rfl
  · refine Reads.after (Reads.map (derives_ident.weaken fun _ read clean hid l hl hclean => ?_))
    obtain ⟨id, hid⟩ := hid hclean
    exact ⟨_, .state hl hid⟩
  · exact derives_identOrLiteral.weaken (Derivable.imp fun _ _ h => ⟨_, .source h⟩)

theorem derives_mapping : Reads n mapping (Derivable MappingPhrase) := by
  refine Reads.spanned (derives_identOrLiteral.bind fun _ read clean hsource => ?_)
  refine Reads.after (Reads.map (derives_ident.weaken fun _ read' clean' htarget l hl _ hclean =>
    ?_))
  rw [Bool.and_eq_true] at hclean
  obtain ⟨source, hsource⟩ := hsource hclean.1
  obtain ⟨target, htarget⟩ := htarget hclean.2
  exact ⟨_, .mk hsource hl htarget⟩

theorem derives_mappings : Reads n mappings (Derivable (CommaRow MappingPhrase)) :=
  derives_commaSeparated1 derives_mapping

theorem derives_conditionAtom {self : Rule Condition}
    (h : Reads n self (Derivable (ConditionPhrase 9))) :
    Reads (n + 1) (conditionAtom self) (Derivable (ConditionPhrase 0)) := by
  refine reads_firstOf (by simp) fun r hr => ?_
  simp only [List.mem_cons, List.not_mem_nil, or_false] at hr
  rcases hr with rfl | rfl
  · exact Reads.map (derives_operand.weaken (Derivable.imp fun _ _ h => ⟨_, .operand h⟩))
  · have hparens : Reads (n + 1) (inParens self) (Derivable (Enclosed (ConditionPhrase 9))) :=
      derives_inParens h
    refine Reads.spanned (Reads.map (hparens.weaken fun _ read clean hc _ => ?_))
    refine Derivable.imp ?_ () read clean hc
    rintro _ _ ⟨ho, hc, hcl⟩
    exact ⟨_, .paren ho hc hcl⟩

end Rule

theorem ConditionPhrase.of_joined {op : ConditionOp} {ts : List Lexeme} {c : Condition}
    (h : Rule.Joined op.sign (.binary op) (ConditionPhrase op.rank) ts c) :
    ConditionPhrase (op.rank + 1) ts c := by
  induction h with
  | single h => exact .looser h
  | joined _ hl hb ih => exact .joined ih hl hb

namespace Rule

variable {n : Nat}

theorem derives_conditionBelow {self : Rule Condition}
    (h : Reads n self (Derivable (ConditionPhrase 9))) (k : Nat) (hk : k ≤ 9) :
    Reads (n + 1) (conditionBelow self k) (Derivable (ConditionPhrase k)) := by
  induction k with
  | zero => exact derives_conditionAtom h
  | succ k ih =>
    obtain ⟨op, rfl⟩ := ConditionOp.exists_rank (n := k) (by omega)
    rw [conditionBelow_rank]
    exact (derives_chain (ih (by omega))).weaken (Derivable.imp fun _ _ h => ⟨_, .of_joined h⟩)

theorem derives_condition : Reads n condition (Derivable (ConditionPhrase 9)) := by
  refine reads_fix fun m _ self h => ?_
  rw [← conditionBelow_all]
  exact derives_conditionBelow h 9 (Nat.le_refl 9)

theorem derives_bracketed :
    Reads n (bracketed ident) (Derivable fun ts id => ∃ opening ts' closing,
      ts = opening :: (ts' ++ [closing]) ∧
      opening.token = .symbol .openBracket ∧ IdentPhrase ts' id ∧ closing.token =
        .symbol .closeBracket) := by
  refine Reads.after (derives_ident.bind fun _ read clean hid => ?_)
  refine Reads.after (reads_pure fun closing hcl opening ho hclean => ?_)
  rw [Bool.and_true] at hclean
  obtain ⟨id, hid⟩ := hid hclean
  exact ⟨id, opening, read, closing, rfl, ho, hid, hcl⟩

theorem derives_mergeSource : Reads n mergeSource (Derivable MergeSourcePhrase) := by
  refine reads_firstOf (by simp) fun r hr => ?_
  simp only [List.mem_cons, List.not_mem_nil, or_false] at hr
  rcases hr with rfl | rfl | rfl
  · refine Reads.after (Reads.map (derives_bracketed.weaken fun _ read clean h word hw hclean =>
      ?_))
    obtain ⟨id, opening, ts, closing, rfl, ho, hid, hcl⟩ := h hclean
    exact ⟨_, .top hw ho hid hcl⟩
  · refine Reads.after (Reads.map (derives_bracketed.weaken fun _ read clean h word hw hclean =>
      ?_))
    obtain ⟨id, opening, ts, closing, rfl, ho, hid, hcl⟩ := h hclean
    exact ⟨_, .bottom hw ho hid hcl⟩
  · exact Reads.map (derives_literal.weaken (Derivable.imp fun _ _ h => ⟨_, .literal h⟩))

theorem derives_mergeMapping : Reads n mergeMapping (Derivable MergeMappingPhrase) := by
  refine Reads.spanned (derives_mergeSource.bind fun _ read clean hsource => ?_)
  refine Reads.after (Reads.map (derives_ident.weaken fun _ read' clean' htarget l hl _ hclean =>
    ?_))
  rw [Bool.and_eq_true] at hclean
  obtain ⟨source, hsource⟩ := hsource hclean.1
  obtain ⟨target, htarget⟩ := htarget hclean.2
  exact ⟨_, .mk hsource hl htarget⟩

theorem derives_maybeWord (word : Keyword) :
    Reads n (optional (keyword word)) fun _ read clean => clean = true ∧ MaybeWord word read := by
  refine Reads.optional ((derives_sign _).weaken ?_) ⟨rfl, .absent⟩
  rintro _ _ _ ⟨hclean, l, rfl, hl⟩
  exact ⟨hclean, .present hl⟩

theorem derives_choice {unary : Rule Arrow}
    (h : Reads (n - 1) unary (Derivable (ArrowPhrase .unary))) :
    Reads n (choice unary) (Derivable (ArrowPhrase .unary)) := by
  refine Reads.after (derives_condition.bind fun _ read clean hc => ?_)
  refine (derives_maybeWord _).bind fun _ read₁ _ ⟨hclean₁, hthen⟩ => ?_
  refine (h.mono (by omega) fun _ _ _ => id).bind fun _ read₂ clean₂ htrue => ?_
  refine (derives_maybeWord _).bind fun _ read₃ _ ⟨hclean₃, helse⟩ => ?_
  refine Reads.map (h.mono (by omega) fun _ read₄ clean₄ hfalse word hw hclean => ?_)
  simp only [Bool.and_eq_true] at hclean
  obtain ⟨c, hc⟩ := hc hclean.1
  obtain ⟨onTrue, htrue⟩ := htrue hclean.2.2.1
  obtain ⟨onFalse, hfalse⟩ := hfalse hclean.2.2.2.2
  exact ⟨_, .choose hw hc hthen htrue helse hfalse⟩

theorem derives_wirePair : Reads n wirePair (Derivable (ArrowPhrase .unary)) := by
  refine Reads.after ((derives_inParens derives_mappings).bind fun _ read clean htop => ?_)
  refine Reads.after (Reads.map ((derives_inParens derives_mappings).weaken ?_))
  intro _ read' clean' hbottom comma hcomma word hw hclean
  rw [Bool.and_eq_true] at hclean
  obtain ⟨top, htop⟩ := htop hclean.1
  obtain ⟨bottom, hbottom⟩ := hbottom hclean.2
  exact ⟨_, .wirePair hw htop hcomma hbottom⟩

theorem derives_unaryArrow {arrow : Rule Arrow}
    (h : Reads n arrow (Derivable (ArrowPhrase .expression))) :
    Reads (n + 1) (unaryArrow arrow) (Derivable (ArrowPhrase .unary)) := by
  refine reads_fix fun m hm self hself => ?_
  refine Reads.recover (Reads.spanned
    ((reads_firstOf (Q := Derivable (ArrowPhrase .unary)) (by simp)
    fun r hr => ?_).weaken fun _ _ _ h _ => h)) (Reads.spanned ?_)
  · simp only [List.mem_cons, List.not_mem_nil, or_false] at hr
    rcases hr with rfl | rfl | rfl | rfl | rfl | rfl | rfl | rfl | rfl
    · refine Reads.after (Reads.map (hself.weaken fun _ read clean hi word hw hclean => ?_))
      obtain ⟨e, hi⟩ := hi hclean
      exact ⟨_, .first hw hi⟩
    · refine Reads.after (Reads.map (hself.weaken fun _ read clean hi word hw hclean => ?_))
      obtain ⟨e, hi⟩ := hi hclean
      exact ⟨_, .second hw hi⟩
    · exact Reads.after (reads_pure fun word hw _ => ⟨_, .split hw⟩)
    · refine Reads.after (Reads.map ((derives_commaSeparated1 derives_mergeMapping).weaken ?_))
      intro _ read clean hentries word hw hclean
      obtain ⟨entries, hentries⟩ := hentries hclean
      exact ⟨_, .merge hw hentries⟩
    · exact derives_wirePair
    · refine Reads.after (Reads.map
        (derives_mappings.weaken fun _ read clean hentries word hw hclean => ?_))
      obtain ⟨entries, hentries⟩ := hentries hclean
      exact ⟨_, .wire hw hentries⟩
    · exact derives_choice (n := m + 1) hself
    · exact Reads.map (derives_ident.weaken (Derivable.imp fun _ _ h => ⟨_, .use h⟩))
    · have hparens : Reads (m + 1) (inParens arrow)
          (Derivable (Enclosed (ArrowPhrase .expression))) :=
        derives_inParens (h.mono (by omega) fun _ _ _ => id)
      refine Reads.map (hparens.weaken fun _ read clean hi => ?_)
      refine Derivable.imp ?_ _ read clean hi
      rintro _ _ ⟨ho, hi, hcl⟩
      exact ⟨_, .paren ho hi hcl⟩
  · refine ((reads_skipUnless resumption).many1).bind fun _ _ _ _ => reads_pure fun _ hclean => ?_
    simp at hclean

end Rule

namespace ArrowPhrase

variable {ts : List Lexeme} {e : Arrow}

theorem of_fanOut (h : Rule.Joined (.symbol .fanOut) .fanOut (ArrowPhrase .unary) ts e) :
    ArrowPhrase .scalar ts e := by
  induction h with
  | single h => exact .scalar h
  | joined _ hl hb ih => exact .fanOut ih hl hb

theorem of_pairUp (h : Rule.Joined (.symbol .pairUp) .pairUp (ArrowPhrase .scalar) ts e) :
    ArrowPhrase .tuple ts e := by
  induction h with
  | single h => exact .tuple h
  | joined _ hl hb ih => exact .pairUp ih hl hb

theorem of_compose (h : Rule.Joined (.symbol .compose) .compose (ArrowPhrase .tuple) ts e) :
    ArrowPhrase .expression ts e := by
  induction h with
  | single h => exact .expression h
  | joined _ hl hb ih => exact .compose ih hl hb

end ArrowPhrase

namespace Rule

variable {n : Nat}

theorem derives_arrow : Reads n arrow (Derivable (ArrowPhrase .expression)) := by
  refine reads_fix fun m _ self h => ?_
  have hscalar : Reads (m + 1) (chain (symbol .fanOut) .fanOut (unaryArrow self))
      (Derivable (ArrowPhrase .scalar)) :=
    (derives_chain (derives_unaryArrow h)).weaken
      (Derivable.imp fun _ _ h => ⟨_, ArrowPhrase.of_fanOut h⟩)
  have htuple : Reads (m + 1) (chain (symbol .pairUp) .pairUp
      (chain (symbol .fanOut) .fanOut (unaryArrow self))) (Derivable (ArrowPhrase .tuple)) :=
    (derives_chain hscalar).weaken (Derivable.imp fun _ _ h => ⟨_, ArrowPhrase.of_pairUp h⟩)
  exact (derives_chain htuple).weaken (Derivable.imp fun _ _ h => ⟨_, ArrowPhrase.of_compose h⟩)

theorem derives_arguments : Reads n (commaSeparated operand) (Derivable ArgumentsPhrase) := by
  have hlist : Reads n (optional (commaSeparated1 operand)) (Derivable ArgumentsPhrase) :=
    Reads.optional ((derives_commaSeparated1 derives_operand).weaken
      (Derivable.imp fun _ _ h => ⟨_, .some h⟩)) fun _ => ⟨_, .none⟩
  exact Reads.map hlist

theorem derives_call : Reads n call (Derivable CallPhrase) := by
  have hname : Reads n callName fun _ read clean =>
      clean = true ∧ ∃ l qualifier name, read = [l] ∧ l.token = .qualified qualifier name := by
    refine reads_accept fun l _ h => ⟨rfl, ?_⟩
    split at h
    · rename_i qualifier name hl
      exact ⟨l, qualifier, name, rfl, hl⟩
    · cases h
  refine Reads.spanned (hname.bind ?_)
  rintro _ _ _ ⟨rfl, l, qualifier, name, rfl, hl⟩
  refine Reads.map ((derives_inParens derives_arguments).weaken
    fun _ read clean harguments _ hclean => ?_)
  obtain ⟨arguments, harguments⟩ := harguments hclean
  exact ⟨_, .mk hl harguments⟩

theorem derives_branchResult : Reads n branchResult (Derivable BranchResultPhrase) := by
  refine Reads.after (reads_firstOf (by simp) fun r hr => ?_)
  simp only [List.mem_cons, List.not_mem_nil, or_false] at hr
  rcases hr with rfl | rfl
  · refine Reads.spanned (Reads.after (Reads.after (reads_pure ?_)))
    exact fun _ hcl _ ho _ _ hw _ => ⟨_, .unit hw ho hcl⟩
  · refine Reads.map (derives_operand.weaken fun _ read clean h word hw hclean => ?_)
    obtain ⟨o, h⟩ := h hclean
    exact ⟨_, .value hw h⟩

theorem derives_assignee : Reads n assignee (Derivable AssigneePhrase) := by
  refine derives_ident.bind fun _ read clean hid => Reads.after
    (reads_pure fun sign hsign hclean => ?_)
  rw [Bool.and_true] at hclean
  obtain ⟨id, hid⟩ := hid hclean
  exact ⟨id, .mk hid hsign⟩

theorem derives_letBinding : Reads n letBinding (Derivable LetBindingPhrase) := by
  refine Reads.spanned (derives_assignee.bind fun _ read clean htarget => ?_)
  refine Reads.map (derives_call.weaken fun _ read' clean' hcall _ hclean => ?_)
  rw [Bool.and_eq_true] at hclean
  obtain ⟨target, htarget⟩ := htarget hclean.1
  obtain ⟨call, hcall⟩ := hcall hclean.2
  exact ⟨_, .mk htarget hcall⟩

def Completes (ts : List Lexeme) (_ : Unit) : Prop :=
  ∀ us target, TargetPhrase us target → ∃ c, CommandPhrase (us ++ ts) c

theorem derives_letCommand (target : Option Ident) :
    Reads n (letCommand target) (Derivable Completes) := by
  refine Reads.after ((derives_many1 derives_letBinding).bind fun _ read clean hbindings => ?_)
  refine Reads.after (Reads.map (derives_call.weaken ?_))
  intro _ read' clean' hbody separator hs opening ho hclean
  rw [Bool.and_eq_true] at hclean
  obtain ⟨bindings, hbindings, hne⟩ := hbindings hclean.1
  obtain ⟨body, hbody⟩ := hbody hclean.2
  exact ⟨(), fun us target htarget => ⟨_, .letIn htarget ho hbindings hne hs hbody⟩⟩

theorem derives_block {command : Rule Command} (h : Reads n command (Derivable CommandPhrase)) :
    Reads n (block command) (Derivable BlockPhrase) := by
  refine Reads.spanned (h.many.bind fun _ read clean hcommands => ?_)
  refine Reads.map (derives_branchResult.weaken fun _ read' clean' hresult _ hclean => ?_)
  rw [Bool.and_eq_true] at hclean
  obtain ⟨commands, hcommands⟩ := hcommands.row hclean.1
  obtain ⟨result, hresult⟩ := hresult hclean.2
  exact ⟨_, .mk hcommands hresult⟩

theorem derives_branchCommand {command : Rule Command} (target : Option Ident)
    (h : Reads (n - 1) command (Derivable CommandPhrase)) :
    Reads n (branchCommand command target) (Derivable Completes) := by
  have hblock := derives_block h
  refine Reads.after (derives_condition.bind fun _ read clean hc => ?_)
  refine Reads.after ((hblock.mono (by omega) fun _ _ _ => id).bind fun _ read₁ clean₁ htrue => ?_)
  refine Reads.after ((hblock.mono (by omega) fun _ _ _ => id).bind fun _ read₂ clean₂ hfalse => ?_)
  refine Reads.after (reads_pure fun closing hend _ helse _ hthen word hw hclean => ?_)
  simp only [Bool.and_eq_true] at hclean
  obtain ⟨c, hc⟩ := hc hclean.1
  obtain ⟨onTrue, htrue⟩ := htrue hclean.2.1
  obtain ⟨onFalse, hfalse⟩ := hfalse hclean.2.2.1
  exact ⟨(), fun us target htarget => ⟨_, .branch htarget hw hc hthen htrue helse hfalse hend⟩⟩

theorem derives_command : Reads n command (Derivable CommandPhrase) := by
  refine reads_fix fun n _ self hself => ?_
  refine Reads.recover (Reads.spanned ?_) (Reads.spanned ?_)
  · have htarget : Reads (n + 1) (optional assignee) (Derivable TargetPhrase) :=
      Reads.optional (derives_assignee.weaken (Derivable.imp fun _ _ h => ⟨_, .some h⟩))
        fun _ => ⟨_, .none⟩
    refine htarget.bind fun target read clean htarget => ?_
    have hrest : Reads (n + 1 - read.length) (firstOf
        [letCommand target,
         branchCommand self target,
         do return Command.call target (← call)]) (Derivable Completes) := by
      refine reads_firstOf (by simp) fun r hr => ?_
      simp only [List.mem_cons, List.not_mem_nil, or_false] at hr
      rcases hr with rfl | rfl | rfl
      · exact derives_letCommand target
      · exact derives_branchCommand target (hself.mono (by omega) fun _ _ _ => id)
      · refine Reads.map (derives_call.weaken fun _ read' clean' hcall hclean => ?_)
        obtain ⟨call, hcall⟩ := hcall hclean
        exact ⟨(), fun us target htarget => ⟨_, .call htarget hcall⟩⟩
    refine hrest.weaken fun _ read' clean' hrest _ hclean => ?_
    rw [Bool.and_eq_true] at hclean
    obtain ⟨target, htarget⟩ := htarget hclean.1
    obtain ⟨_, hrest⟩ := hrest hclean.2
    exact hrest read target htarget
  · refine (reads_skipUnless commandEnds).bind fun _ _ _ _ => ?_
    refine ((reads_skipUnless resumption).many).bind fun _ _ _ _ => reads_pure fun _ hclean => ?_
    simp at hclean

theorem derives_returnMapping : Reads n returnMapping (Derivable ReturnMappingPhrase) := by
  refine Reads.spanned (derives_assignee.bind fun _ read clean htarget => ?_)
  refine Reads.map (derives_operand.weaken fun _ read' clean' hsource _ hclean => ?_)
  rw [Bool.and_eq_true] at hclean
  obtain ⟨target, htarget⟩ := htarget hclean.1
  obtain ⟨source, hsource⟩ := hsource hclean.2
  exact ⟨_, .mk htarget hsource⟩

theorem derives_doBlock : Reads n doBlock (Derivable DoBlockPhrase) := by
  refine Reads.spanned (derives_command.many.bind fun _ read clean hcommands => ?_)
  have hreturn : Reads (n - read.length) (spanned do keyword .returnValue; return id)
      fun _ read clean =>
      clean = true ∧ ∃ l, read = [l] ∧ l.token = .keyword .returnValue :=
    Reads.spanned (Reads.after (reads_pure fun l hl _ => ⟨rfl, l, rfl, hl⟩))
  refine hreturn.bind ?_
  rintro _ _ _ ⟨rfl, word, rfl, hw⟩
  refine Reads.map ((derives_commaSeparated1 derives_returnMapping).weaken ?_)
  intro _ read' clean' hreturns _ hclean
  simp only [Bool.and_eq_true] at hclean
  obtain ⟨commands, hcommands⟩ := hcommands.row hclean.1
  obtain ⟨returns, hreturns⟩ := hreturns hclean.2.2
  exact ⟨_, .mk hcommands hw hreturns⟩

theorem derives_identList : Reads n identList (Derivable (CommaRow IdentPhrase)) :=
  derives_commaSeparated1 derives_ident

theorem derives_signalClause : Reads n signalClause (Derivable SignalClausePhrase) := by
  refine reads_firstOf (by simp) fun r hr => ?_
  simp only [List.mem_cons, List.not_mem_nil, or_false] at hr
  rcases hr with rfl | rfl
  · refine (derives_inParens derives_identList).bind fun _ read clean htop => ?_
    refine Reads.after (Reads.map ((derives_inParens derives_identList).weaken ?_))
    intro _ read' clean' hbottom comma hcomma hclean
    rw [Bool.and_eq_true] at hclean
    obtain ⟨top, htop⟩ := htop hclean.1
    obtain ⟨bottom, hbottom⟩ := hbottom hclean.2
    exact ⟨_, .pair htop hcomma hbottom⟩
  · exact Reads.map (derives_identList.weaken (Derivable.imp fun _ _ h => ⟨_, .flat h⟩))

theorem derives_withClause :
    Reads n (optional do keyword .withMap; mappings) (Derivable WithPhrase) := by
  refine Reads.optional (Reads.after (derives_mappings.weaken ?_)) fun _ => ⟨_, .absent⟩
  intro _ read clean hsettings word hw hclean
  obtain ⟨settings, hsettings⟩ := hsettings hclean
  exact ⟨_, .present hw hsettings⟩

theorem derives_declaration : Reads n declaration (Derivable DeclarationPhrase) := by
  refine Reads.recover (Reads.spanned ?_) ?_
  · refine derives_ident.bind fun _ read clean hname => Reads.after (Reads.after ?_)
    refine derives_ident.bind fun _ read₁ clean₁ hcomponent => ?_
    refine Reads.map (derives_withClause.weaken
      fun _ read₂ clean₂ hwith word hw sign hsign _ hclean => ?_)
    simp only [Bool.and_eq_true] at hclean
    obtain ⟨name, hname⟩ := hname hclean.1
    obtain ⟨component, hcomponent⟩ := hcomponent hclean.2.1
    obtain ⟨withClause, hwith⟩ := hwith hclean.2.2
    exact ⟨_, .mk hname hsign hw hcomponent hwith⟩
  · refine (reads_skipUnless _).bind fun _ _ _ _ => ?_
    refine ((reads_skipUnless resumption).many).bind fun _ _ _ _ => reads_pure fun hclean => ?_
    simp at hclean

theorem derives_declarations : Reads n (optional declarations) (Derivable DeclarationsPhrase) := by
  refine Reads.optional (Reads.after (Reads.map ((derives_many1 derives_declaration).weaken ?_)))
    fun _ => ⟨_, .absent⟩
  intro _ read clean hds word hw hclean
  obtain ⟨ds, hds, hne⟩ := hds hclean
  exact ⟨_, .present hw hds hne⟩

theorem derives_definition : Reads n (firstOf [arrowDefinition, leafDefinition])
    (Derivable fun ts (x : List Declaration × Definition) => DefinitionPhrase ts x.1 x.2) := by
  refine reads_firstOf (by simp) fun r hr => ?_
  simp only [List.mem_cons, List.not_mem_nil, or_false] at hr
  rcases hr with rfl | rfl
  · refine derives_declarations.bind fun _ read clean hds => ?_
    refine Reads.after (Reads.map (derives_arrow.weaken fun _ read' clean' he word hw hclean => ?_))
    rw [Bool.and_eq_true] at hclean
    obtain ⟨ds, hds⟩ := hds hclean.1
    obtain ⟨e, he⟩ := he hclean.2
    exact ⟨(ds, .arrow e), .arrow hds hw he⟩
  · refine Reads.after (Reads.map (derives_doBlock.weaken fun _ read clean hbody word hw hclean =>
      ?_))
    obtain ⟨body, hbody⟩ := hbody hclean
    exact ⟨([], .leaf body), .leaf hw hbody⟩

theorem derives_configuration :
    Reads n (optional do keyword .configuration; identList) (Derivable ConfigurationPhrase) := by
  refine Reads.optional (Reads.after (derives_identList.weaken ?_)) fun _ => ⟨_, .absent⟩
  intro _ read clean hnames word hw hclean
  obtain ⟨names, hnames⟩ := hnames hclean
  exact ⟨_, .present hw hnames⟩

theorem derives_component : Reads n component (Derivable ComponentPhrase) := by
  refine Reads.spanned (Reads.after (derives_ident.bind fun _ read clean hname => ?_))
  refine Reads.after (derives_signalClause.bind fun _ read₁ clean₁ hinputs => ?_)
  refine Reads.after (derives_signalClause.bind fun _ read₂ clean₂ houtputs => ?_)
  refine derives_configuration.bind fun _ read₃ clean₃ hconfiguration => ?_
  refine derives_definition.bind ?_
  rintro ⟨_, _⟩ read₄ clean₄ hdefinition
  refine reads_pure fun outputsWord ho inputsWord hi word hw _ hclean => ?_
  simp only [Bool.and_eq_true, and_true] at hclean
  obtain ⟨name, hname⟩ := hname hclean.1
  obtain ⟨inputs, hinputs⟩ := hinputs hclean.2.1
  obtain ⟨outputs, houtputs⟩ := houtputs hclean.2.2.1
  obtain ⟨configuration, hconfiguration⟩ := hconfiguration hclean.2.2.2.1
  obtain ⟨⟨ds, definition⟩, hdefinition⟩ := hdefinition hclean.2.2.2.2
  rw [List.append_nil]
  exact ⟨_, .mk hw hname hi hinputs ho houtputs hconfiguration hdefinition⟩

theorem derives_importClause : Reads n importClause (Derivable ImportPhrase) := by
  have hpath {k : Nat} : Reads k modulePath (Derivable ModulePathPhrase) := by
    refine reads_firstOf (by simp) fun r hr => ?_
    simp only [List.mem_cons, List.not_mem_nil, or_false] at hr
    rcases hr with rfl | rfl
    · exact derives_ident.weaken (Derivable.imp fun _ _ h => ⟨_, .plain h⟩)
    · refine reads_accept fun l _ h _ => ?_
      split at h
      · rename_i hl
        exact ⟨_, .dotted hl⟩
      · cases h
  refine Reads.spanned (Reads.after (hpath.bind fun _ read clean hpath => ?_))
  refine Reads.after (Reads.map (derives_ident.weaken ?_))
  intro _ read' clean' hname aliasWord ha word hw _ hclean
  rw [Bool.and_eq_true] at hclean
  obtain ⟨path, hpath⟩ := hpath hclean.1
  obtain ⟨localName, hname⟩ := hname hclean.2
  exact ⟨_, .mk hw hpath ha hname⟩

theorem derives_program : Reads n program (Derivable ProgramPhrase) := by
  refine Reads.spanned (derives_importClause.many.bind fun _ read clean himports => ?_)
  refine derives_component.bind fun _ read' clean' hcomponent => ?_
  have hfinish {k : Nat} : Reads k finish fun _ read clean => clean = true ∧ read = [] := by
    refine ⟨fun c t _ => ?_⟩
    unfold finish
    split
    · exact ⟨[], [], rfl, (List.append_nil _).symm, rfl, rfl⟩
    · rfl
  refine Reads.map (hfinish.weaken ?_)
  rintro _ _ _ ⟨rfl, rfl⟩ _ hclean
  simp only [Bool.and_eq_true, and_true] at hclean
  obtain ⟨imports, himports⟩ := himports.row hclean.1
  obtain ⟨component, hcomponent⟩ := hcomponent hclean.2
  rw [List.append_nil]
  exact ⟨_, .mk himports hcomponent⟩

end Rule

end PipelineLang
