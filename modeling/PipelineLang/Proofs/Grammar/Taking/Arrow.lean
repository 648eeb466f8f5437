import PipelineLang.Grammar.Arrow
import PipelineLang.Proofs.Grammar.Taking

/-! Terms, conditions and arrow expressions are read by their rules, for the trees that they stand
for, wherever no token follows that could belong to them as well. -/

namespace PipelineLang

variable {ahead : List Lexeme} {o : Operand} {op : ConditionOp}

namespace Rule

variable {ts rest : List Lexeme}

theorem takes_ident {id : Ident} (h : IdentPhrase ts id) : Takes ident ts rest id := by
  cases h with
  | mk hl => exact takes_accept (by rw [hl])

theorem refuses_ident (h : ∀ name, nextToken ahead ≠ some (.ident name)) :
    Refuses ident ahead := by
  refine refuses_accept fun l hl => ?_
  split
  · rename_i name hname
    exact absurd (by rw [nextToken, hl, Option.map_some, hname]) (h name)
  · rfl

theorem takes_literal {lit : Literal} (h : LiteralPhrase ts lit) : Takes literal ts rest lit := by
  cases h with
  | mk hl => exact takes_accept (by rw [hl])

theorem refuses_literal (h : ∀ value, nextToken ahead ≠ some (.constant value)) :
    Refuses literal ahead := by
  refine refuses_accept fun l hl => ?_
  split
  · rename_i value hvalue
    exact absurd (by rw [nextToken, hl, Option.map_some, hvalue]) (h value)
  · rfl

theorem takes_identOrLiteral (h : SourcePhrase ts o) : Takes identOrLiteral ts rest o := by
  cases h with
  | ident h =>
    refine Refuses.firstOf (Refuses.map (refuses_literal fun value => ?_))
      (takes_ident h).map.firstOf
    cases h with
    | mk hl => simp [hl]
  | literal h => exact (takes_literal h).map.firstOf

theorem next_ne_of_source (h : SourcePhrase ts o) (rest : List Lexeme) (s : Symbol) :
    nextToken (ts ++ rest) ≠ some (.symbol s) := by
  cases h with
  | ident h =>
    cases h with
    | mk hl => simp [hl]
  | literal h =>
    cases h with
    | mk hl => simp [hl]

theorem takes_operand (h : OperandPhrase ts o) : Takes operand ts rest o := by
  cases h with
  | state hmark h => exact (Takes.behind hmark (takes_ident h).map).firstOf
  | source h =>
    have hmark := next_ne_of_source h rest .stateMark
    exact Refuses.firstOf (Refuses.bind (refuses_token hmark)) (takes_identOrLiteral h).firstOf

theorem refuses_operand (hmark : nextToken ahead ≠ some (.symbol .stateMark))
    (hconstant : ∀ value, nextToken ahead ≠ some (.constant value))
    (hident : ∀ name, nextToken ahead ≠ some (.ident name)) : Refuses operand ahead := by
  refine refuses_firstOf fun r hr => ?_
  simp only [List.mem_cons, List.not_mem_nil, or_false] at hr
  rcases hr with rfl | rfl
  · exact (refuses_token hmark).bind
  · refine refuses_firstOf fun r hr => ?_
    simp only [List.mem_cons, List.not_mem_nil, or_false] at hr
    rcases hr with rfl | rfl
    · exact (refuses_literal hconstant).map
    · exact (refuses_ident hident).map

theorem takes_mapping {m : Mapping} (h : MappingPhrase ts m) : Takes mapping ts rest m := by
  cases h with
  | mk hsource hsign htarget =>
    refine Takes.spanned (f := Mapping.mk _ _) ?_ (by simp)
    exact Takes.bind (takes_identOrLiteral hsource) (Takes.behind hsign (takes_ident htarget).map)

theorem takes_mappings {ms : List Mapping} (h : CommaRow MappingPhrase ts ms)
    (hstop : nextToken rest ≠ some (.symbol .comma)) : Takes mappings ts rest ms :=
  takes_commaRow h (fun _ _ _ => takes_mapping) hstop

theorem takes_enclosedMappings {ms : List Mapping} (h : Enclosed (CommaRow MappingPhrase) ts ms) :
    Takes (inParens mappings) ts rest ms :=
  takes_inParens h fun _ l _ hms hl => takes_mappings hms (by simp [hl])

end Rule

theorem ConditionOp.eq_of_sign {op' : ConditionOp} (h : op.sign = op'.sign) : op = op' := by
  cases op <;> cases op' <;> first | rfl | cases h

theorem ConditionOp.eq_of_rank {op' : ConditionOp} (h : op.rank = op'.rank) : op = op' := by
  cases op <;> cases op' <;> first | rfl | cases h

theorem ConditionOp.exists_rank {n : Nat} (h : n < 9) : ∃ op : ConditionOp, op.rank = n := by
  match n, h with
  | 0, _ => exact ⟨.le, rfl⟩
  | 1, _ => exact ⟨.ge, rfl⟩
  | 2, _ => exact ⟨.lt, rfl⟩
  | 3, _ => exact ⟨.gt, rfl⟩
  | 4, _ => exact ⟨.ne, rfl⟩
  | 5, _ => exact ⟨.eq, rfl⟩
  | 6, _ => exact ⟨.xor, rfl⟩
  | 7, _ => exact ⟨.and, rfl⟩
  | 8, _ => exact ⟨.or, rfl⟩

namespace ConditionPhrase

variable {n : Nat} {ts : List Lexeme} {c : Condition}

theorem ne_nil (h : ConditionPhrase n ts c) : ts ≠ [] := by
  induction h with
  | operand h =>
    cases h with
    | source h =>
      cases h with
      | ident h => cases h; simp
      | literal h => cases h; simp
    | state => simp
  | paren => simp
  | looser _ ih => exact ih
  | joined => simp

theorem joined_of_rank (h : ConditionPhrase (op.rank + 1) ts c) :
    Rule.Joined op.sign (.binary op) (ConditionPhrase op.rank) ts c := by
  generalize hn : op.rank + 1 = n at h
  induction h with
  | operand => cases hn
  | paren => cases hn
  | looser h _ =>
    cases hn
    exact .single h
  | @joined op' _ _ _ _ _ _ hsign hright ih _ =>
    have heq : op' = op := ConditionOp.eq_of_rank (Nat.succ.inj hn.symm)
    subst heq
    exact .joined (ih rfl) hsign hright

def Follows (n : Nat) (rest : List Lexeme) : Prop :=
  ∀ op : ConditionOp, op.rank < n → nextToken rest ≠ some op.sign

theorem follows_of_not_sign {rest : List Lexeme}
    (h : ∀ op : ConditionOp, nextToken rest ≠ some op.sign) :
    Follows n rest := fun op _ => h op

end ConditionPhrase

namespace Rule

variable {c : Condition} {ts rest : List Lexeme}

open ConditionPhrase in
theorem takes_conditionAtom {self : Rule Condition} (h : ConditionPhrase 0 ts c)
    (hself : ∀ ts₁ rest₁ c, ts₁.length + rest₁.length < ts.length + rest.length →
      ts₁.length < ts.length → ConditionPhrase 9 ts₁ c → Follows 9 rest₁ → Takes self ts₁ rest₁ c) :
    Takes (conditionAtom self) ts rest c := by
  cases h with
  | operand h => exact (takes_operand h).map.firstOf
  | @paren opening closing ts c ho h hcl =>
    have hrefuses : Refuses operand (opening :: (ts ++ [closing]) ++ rest) := by
      refine refuses_operand ?_ ?_ ?_ <;> simp [ho]
    have hinner : Takes self ts (closing :: rest) c := by
      refine hself ts (closing :: rest) c ?_ ?_ h ?_
      · simp only [List.length_cons, List.length_append, List.length_nil]
        omega
      · simp only [List.length_cons, List.length_append, List.length_nil]
        omega
      · exact follows_of_not_sign fun op => by cases op <;> simp [hcl, ConditionOp.sign]
    have hparens : Takes (inParens self) (opening :: (ts ++ [closing])) rest c :=
      Takes.behind ho (hinner.closed hcl)
    exact Refuses.firstOf hrefuses.map
      (Takes.firstOf (Takes.spanned (f := Condition.paren c) hparens.map (by simp)))

def conditionBelow (self : Rule Condition) (n : Nat) : Rule Condition :=
  (conditionLevels.take n).foldl conditionLevel (conditionAtom self)

theorem conditionBelow_rank (self : Rule Condition) (op : ConditionOp) :
    conditionBelow self (op.rank + 1) =
      chain (token op.sign) (.binary op) (conditionBelow self op.rank) := by
  have hlevel : conditionLevels[op.rank]? = some (op.sign, op) := by cases op <;> rfl
  rw [conditionBelow, List.take_add_one, hlevel, List.foldl_append]
  rfl

theorem conditionBelow_all (self : Rule Condition) :
    conditionBelow self 9 = conditionLevels.foldl conditionLevel (conditionAtom self) := by
  rw [conditionBelow, List.take_of_length_le (by decide)]

open ConditionPhrase in
theorem takes_conditionBelow {self : Rule Condition} {n : Nat} (hn : n ≤ 9)
    (h : ConditionPhrase n ts c) (hfollows : Follows n rest)
    (hself : ∀ ts₁ rest₁ c, ts₁.length + rest₁.length < ts.length + rest.length →
      ts₁.length < ts.length → ConditionPhrase 9 ts₁ c → Follows 9 rest₁ → Takes self ts₁ rest₁ c) :
    Takes (conditionBelow self n) ts rest c := by
  induction n generalizing ts rest c with
  | zero => exact takes_conditionAtom h hself
  | succ n ih =>
    obtain ⟨op, rfl⟩ := ConditionOp.exists_rank hn
    rw [conditionBelow_rank]
    refine takes_chain h.joined_of_rank ?_ (fun _ _ => ne_nil) (hfollows op (Nat.lt_succ_self _))
    intro ts₁ rest₁ c₁ h₁ hrest₁ hlen hle
    refine ih (by omega) h₁ (fun op' hop' => ?_) fun ts₂ rest₂ c₂ hlen₂ hle₂ => ?_
    · rcases hrest₁ with rfl | hsign
      · exact hfollows op' (by omega)
      · intro hsign'
        have heq : op = op' := ConditionOp.eq_of_sign (Option.some.inj (hsign.symm.trans hsign'))
        subst heq
        omega
    · exact hself ts₂ rest₂ c₂ (by omega) (by omega)

open ConditionPhrase in
theorem takes_condition (h : ConditionPhrase 9 ts c) (hfollows : Follows 9 rest) :
    Takes condition ts rest c := by
  generalize hk : ts.length = k
  induction k using Nat.strongRecOn generalizing ts rest c with
  | ind k ih =>
    subst hk
    refine takes_fix fun self hself => ?_
    rw [← conditionBelow_all]
    refine takes_conditionBelow (Nat.le_refl 9) h hfollows ?_
    intro ts₁ rest₁ c₁ hlen hlt h₁ hfollows₁
    exact hself.takes ts₁ rest₁ c₁ hlen (ih ts₁.length hlt h₁ hfollows₁ rfl)

end Rule

def Token.beginsArrow : Token → Bool
  | .keyword .first | .keyword .second | .keyword .split | .keyword .merge | .keyword .wire
  | .keyword .ifTest | .ident _ | .symbol .openParen => true
  | _ => false

namespace ArrowPhrase

variable {level : ArrowLevel} {ts : List Lexeme} {e : Arrow}

theorem begins (h : ArrowPhrase level ts e) :
    ∃ l ts', ts = l :: ts' ∧ l.token.beginsArrow = true := by
  induction h with
  | first hw => exact ⟨_, _, rfl, by rw [hw]; rfl⟩
  | second hw => exact ⟨_, _, rfl, by rw [hw]; rfl⟩
  | split hw => exact ⟨_, _, rfl, by rw [hw]; rfl⟩
  | merge hw => exact ⟨_, _, rfl, by rw [hw]; rfl⟩
  | wire hw => exact ⟨_, _, rfl, by rw [hw]; rfl⟩
  | wirePair hw => exact ⟨_, _, rfl, by rw [hw]; rfl⟩
  | choose hw => exact ⟨_, _, rfl, by rw [hw]; rfl⟩
  | use h =>
    cases h with
    | mk hl => exact ⟨_, _, rfl, by rw [hl]; rfl⟩
  | paren ho => exact ⟨_, _, rfl, by rw [ho]; rfl⟩
  | scalar _ ih => exact ih
  | tuple _ ih => exact ih
  | expression _ ih => exact ih
  | fanOut _ _ _ ih | pairUp _ _ _ ih | compose _ _ _ ih =>
    obtain ⟨l, ts', rfl, hl⟩ := ih
    exact ⟨l, _, rfl, hl⟩

theorem ne_nil (h : ArrowPhrase level ts e) : ts ≠ [] := by
  obtain ⟨l, ts', rfl, -⟩ := h.begins
  exact List.cons_ne_nil l ts'

theorem next_ne (h : ArrowPhrase level ts e) (rest : List Lexeme) {t : Token}
    (ht : t.beginsArrow = false) :
    nextToken (ts ++ rest) ≠ some t := by
  obtain ⟨l, ts', rfl, hl⟩ := h.begins
  rintro ⟨⟩
  rw [hl] at ht
  cases ht

/-- What an expression of some level consists of outside of parentheses. -/
def Parts : ArrowLevel → List Lexeme → Arrow → Prop
  | .unary => fun _ _ => True
  | .scalar => Rule.Joined (.symbol .fanOut) .fanOut (ArrowPhrase .unary)
  | .tuple => Rule.Joined (.symbol .pairUp) .pairUp (ArrowPhrase .scalar)
  | .expression => Rule.Joined (.symbol .compose) .compose (ArrowPhrase .tuple)

theorem parts (h : ArrowPhrase level ts e) : Parts level ts e := by
  induction h with
  | scalar h _ => exact .single h
  | tuple h _ => exact .single h
  | expression h _ => exact .single h
  | fanOut _ hsign hr ih _ => exact .joined ih hsign hr
  | pairUp _ hsign hr ih _ => exact .joined ih hsign hr
  | compose _ hsign hr ih _ => exact .joined ih hsign hr
  | _ => trivial

end ArrowPhrase

namespace Rule

variable {ts rest : List Lexeme}

theorem takes_maybeWord {word : Keyword} (h : MaybeWord word ts)
    (hrest : nextToken rest ≠ some (.keyword word)) :
    ∃ found, Takes (optional (keyword word)) ts rest found := by
  cases h with
  | absent => exact ⟨_, (refuses_token hrest).optional⟩
  | present hl => exact ⟨_, (takes_token hl).optional⟩

theorem takes_mergeMapping {m : MergeMapping} (h : MergeMappingPhrase ts m) :
    Takes mergeMapping ts rest m := by
  cases h with
  | @mk ts ts' sign source target hsource hsign htarget =>
    have hread : Takes mergeSource ts (sign :: ts' ++ rest) source := by
      cases hsource with
      | top hw ho hid hcl =>
        exact (Takes.behind hw (Takes.map (Takes.behind ho ((takes_ident hid).closed hcl)))).firstOf
      | bottom hw ho hid hcl =>
        refine Refuses.firstOf (Refuses.bind (refuses_token (by simp [hw]))) (Takes.firstOf ?_)
        exact Takes.behind hw (Takes.map (Takes.behind ho ((takes_ident hid).closed hcl)))
      | literal h =>
        have hnext : ∀ word, nextToken (ts ++ (sign :: ts' ++ rest)) ≠ some (.keyword word) := by
          cases h with
          | mk hl => simp [hl]
        exact Refuses.firstOf (Refuses.bind (refuses_token (hnext _)))
          (Refuses.firstOf (Refuses.bind (refuses_token (hnext _))) (takes_literal h).map.firstOf)
    refine Takes.spanned (f := MergeMapping.mk _ _) ?_ (by simp)
    exact Takes.bind hread (Takes.behind hsign (takes_ident htarget).map)

/-- The rule for pairs of wires gets past the word, but not past the mapping behind it. -/
theorem refuses_wirePair {word : Lexeme} (hw : word.token = .keyword .wire) {entries : List Mapping}
    (h : CommaRow MappingPhrase ts entries) : Refuses wirePair ([word] ++ (ts ++ rest)) := by
  refine Takes.bind_refuses (takes_token hw) (Refuses.bind (Refuses.bind (refuses_token ?_)))
  cases h with
  | single hm | cons hm =>
    cases hm with
    | mk hsource => simpa using next_ne_of_source hsource _ .openParen

theorem next_ne_comma_of_maybeElse {ts ts' : List Lexeme} {e : Arrow}
    (helse : MaybeWord .elseBranch ts) (hfalse : ArrowPhrase .unary ts' e) (rest : List Lexeme) :
    nextToken (ts ++ ts' ++ rest) ≠ some (.symbol .comma) := by
  cases helse with
  | absent => exact hfalse.next_ne rest rfl
  | present hl => simp [hl]

/-- No sign of a condition begins an expression, so the condition ends where the first branch
begins, with or without the word in front of it. -/
theorem takes_choice {unary : Rule Arrow} {word : Lexeme} {ts ts₁ ts₂ ts₃ ts₄ : List Lexeme}
    {c : Condition} {onTrue onFalse : Arrow} (hw : word.token = .keyword .ifTest)
    (hc : ConditionPhrase 9 ts c)
    (hthen : MaybeWord .thenBranch ts₁) (htrue : ArrowPhrase .unary ts₂ onTrue)
    (htakesTrue : Takes unary ts₂ (ts₃ ++ ts₄ ++ rest) onTrue) (helse : MaybeWord .elseBranch ts₃)
    (hfalse : ArrowPhrase .unary ts₄ onFalse) (htakesFalse : Takes unary ts₄ rest onFalse) :
    Takes (choice unary) (word :: (ts ++ (ts₁ ++ (ts₂ ++ (ts₃ ++ ts₄))))) rest
      (Arrow.choose c onTrue onFalse) := by
  have hnext : ConditionPhrase.Follows 9 (ts₁ ++ (ts₂ ++ (ts₃ ++ ts₄)) ++ rest) := by
    refine ConditionPhrase.follows_of_not_sign fun op => ?_
    cases hthen with
    | absent => simpa using htrue.next_ne _ (by cases op <;> rfl)
    | present hl => cases op <;> simp [hl, ConditionOp.sign]
  obtain ⟨found, hfound⟩ : ∃ found,
      Takes (optional (keyword .thenBranch)) ts₁ (ts₂ ++ (ts₃ ++ ts₄) ++ rest) found :=
    takes_maybeWord hthen (by simpa using htrue.next_ne _ rfl)
  obtain ⟨found', hfound'⟩ := takes_maybeWord helse (hfalse.next_ne rest rfl)
  exact Takes.behind hw (Takes.bind (takes_condition hc hnext) (Takes.bind hfound
    (Takes.bind htakesTrue (Takes.bind hfound' htakesFalse.map))))

/-- The alternatives of a single expression all begin with signs of their own, except for wires. -/
theorem takes_unaryArrow {arrow : Rule Arrow} {e : Arrow} (h : ArrowPhrase .unary ts e)
    (hstop : nextToken rest ≠ some (.symbol .comma))
    (harrow : ∀ ts₁ l rest₁ e, ts₁.length < ts.length →
      ts₁.length + rest₁.length + 1 < ts.length + rest.length →
      ArrowPhrase .expression ts₁ e → l.token = .symbol .closeParen →
      Takes arrow ts₁ (l :: rest₁) e) :
    Takes (unaryArrow arrow) ts rest e := by
  generalize hk : ts.length = k
  induction k using Nat.strongRecOn generalizing ts rest e with
  | ind k ih =>
    subst hk
    refine takes_fix fun unary hunary => Takes.recover ?_
    have hinner : ∀ ts₁ rest₁ e, ArrowPhrase .unary ts₁ e →
        nextToken rest₁ ≠ some (.symbol .comma) →
        ts₁.length < ts.length → ts₁.length + rest₁.length < ts.length + rest.length →
        Takes unary ts₁ rest₁ e := by
      intro ts₁ rest₁ e₁ h₁ hstop₁ hlt hlen
      refine hunary.takes ts₁ rest₁ e₁ hlen (ih ts₁.length hlt h₁ hstop₁ ?_ rfl)
      exact fun ts₂ l rest₂ e₂ hlt₂ hlen₂ => harrow ts₂ l rest₂ e₂ (by omega) (by omega)
    have hpass : ∀ {β : Type} {word : Keyword} {f : Unit →
        Rule β} {t : Token} {l : Lexeme} {ts₁ : List Lexeme},
        l.token = t → t ≠ .keyword word → Refuses (keyword word >>= f) (l :: ts₁) := by
      intro β word f t l ts₁ hl hne
      refine Refuses.bind (refuses_token ?_)
      rw [nextToken_cons, hl]
      exact fun heq => hne (Option.some.inj heq)
    cases h with
    | @first word ts e hw h =>
      have hunary := hinner ts rest e h hstop (by simp) (by simp)
      exact Takes.spanned (f := Arrow.first e) (Takes.firstOf (Takes.behind hw hunary.map))
        (by simp)
    | @second word ts e hw h =>
      have hunary := hinner ts rest e h hstop (by simp) (by simp)
      refine Takes.spanned (f := Arrow.second e) ?_ (by simp)
      refine Refuses.firstOf (hpass hw (by simp)) ?_
      exact Takes.firstOf (Takes.behind hw hunary.map)
    | split hw =>
      refine Takes.spanned (f := Arrow.split) ?_ (by simp)
      iterate 2 refine Refuses.firstOf (hpass hw (by simp)) ?_
      exact Takes.firstOf (Takes.behind hw takes_pure)
    | @merge word ts entries hw h =>
      refine Takes.spanned (f := Arrow.merge entries) ?_ (by simp)
      iterate 3 refine Refuses.firstOf (hpass hw (by simp)) ?_
      exact Takes.firstOf (Takes.behind hw
        (takes_commaRow h (fun _ _ _ => takes_mergeMapping) hstop).map)
    | @wire word ts entries hw h =>
      refine Takes.spanned (f := Arrow.wire entries) ?_ (by simp)
      iterate 4 refine Refuses.firstOf (hpass hw (by simp)) ?_
      exact Refuses.firstOf (refuses_wirePair hw h)
        (Takes.firstOf (Takes.behind hw (takes_mappings h hstop).map))
    | @wirePair word comma ts ts' top bottom hw htop hcomma hbottom =>
      refine Takes.spanned (f := Arrow.wirePair top bottom) ?_ (by simp)
      iterate 4 refine Refuses.firstOf (hpass hw (by simp)) ?_
      exact Takes.firstOf (Takes.behind hw (Takes.bind (takes_enclosedMappings htop)
        (Takes.behind hcomma (takes_enclosedMappings hbottom).map)))
    | @choose word ts ts₁ ts₂ ts₃ ts₄ c onTrue onFalse hw hc hthen htrue helse hfalse =>
      have hcomma := next_ne_comma_of_maybeElse helse hfalse rest
      have htrue' : Takes unary ts₂ (ts₃ ++ ts₄ ++ rest) onTrue := by
        refine hinner ts₂ _ onTrue htrue hcomma ?_ ?_ <;> simp only [List.length_cons,
          List.length_append] <;> omega
      have hfalse' : Takes unary ts₄ rest onFalse := by
        refine hinner ts₄ _ onFalse hfalse hstop ?_ ?_ <;> simp only [List.length_cons,
          List.length_append] <;> omega
      refine Takes.spanned (f := Arrow.choose c onTrue onFalse) ?_ (by simp)
      iterate 6 refine Refuses.firstOf (hpass hw (by simp)) ?_
      exact Takes.firstOf (takes_choice hw hc hthen htrue htrue' helse hfalse hfalse')
    | @use ts id h =>
      obtain ⟨l, name, rfl, hl⟩ : ∃ l name, ts = [l] ∧ l.token = .ident name := by
        cases h with
        | mk hl => exact ⟨_, _, rfl, hl⟩
      refine Takes.spanned (f := Arrow.use id) ?_ (by simp)
      iterate 7 refine Refuses.firstOf (hpass hl (by simp)) ?_
      exact Takes.firstOf (takes_ident h).map
    | @paren opening closing ts e ho h hcl =>
      have hexpression : Takes arrow ts (closing :: rest) e := by
        refine harrow ts closing rest e ?_ ?_ h hcl <;>
          simp only [List.length_cons, List.length_append, List.length_nil] <;> omega
      have hparens : Takes (inParens arrow) (opening :: (ts ++ [closing])) rest e :=
        Takes.behind ho (hexpression.closed hcl)
      refine Takes.spanned (f := Arrow.paren e) ?_ (by simp)
      iterate 7 refine Refuses.firstOf (hpass ho (by simp)) ?_
      exact Refuses.firstOf (Refuses.bind (refuses_ident (by simp [ho])))
        (Takes.firstOf hparens.map)

/-- None of the operators of arrow expressions follows, and no comma. -/
def ArrowEnds (rest : List Lexeme) : Prop :=
  ∀ s ∈ [Symbol.comma, .fanOut, .pairUp, .compose], nextToken rest ≠ some (.symbol s)

section Levels

-- an operand of each level ends where an operator of a looser level stands, or where the whole
-- expression ends
variable {unary : Rule Arrow} {e : Arrow}
  (hunary : ∀ ts₁ rest₁ e, ArrowPhrase .unary ts₁ e → nextToken rest₁ ≠ some (.symbol .comma) →
    ts₁.length ≤ ts.length → ts₁.length + rest₁.length ≤ ts.length + rest.length →
    Takes unary ts₁ rest₁ e)
  (hcomma : nextToken rest ≠ some (.symbol .comma)) (hfan : nextToken rest ≠ some (.symbol .fanOut))
include hunary hcomma hfan

theorem takes_scalar (h : ArrowPhrase .scalar ts e) :
    Takes (chain (symbol .fanOut) .fanOut unary) ts rest e := by
  refine takes_chain h.parts ?_ (fun _ _ => ArrowPhrase.ne_nil) hfan
  intro ts₁ rest₁ e₁ h₁ hrest₁ hlen hle
  refine hunary ts₁ rest₁ e₁ h₁ ?_ hle hlen
  rcases hrest₁ with rfl | hs
  · exact hcomma
  · simp [hs]

theorem takes_tuple (h : ArrowPhrase .tuple ts e)
    (hpair : nextToken rest ≠ some (.symbol .pairUp)) :
    Takes (chain (symbol .pairUp) .pairUp (chain (symbol .fanOut) .fanOut unary)) ts rest e := by
  refine takes_chain h.parts ?_ (fun _ _ => ArrowPhrase.ne_nil) hpair
  intro ts₁ rest₁ e₁ h₁ hrest₁ hlen hle
  refine takes_scalar (fun ts₂ rest₂ e₂ h₂ hstop hle₂ hlen₂ => ?_) ?_ ?_ h₁
  · exact hunary ts₂ rest₂ e₂ h₂ hstop (by omega) (by omega)
  · rcases hrest₁ with rfl | hs
    · exact hcomma
    · simp [hs]
  · rcases hrest₁ with rfl | hs
    · exact hfan
    · simp [hs]

end Levels

theorem takes_arrow {e : Arrow} (h : ArrowPhrase .expression ts e) (hends : ArrowEnds rest) :
    Takes arrow ts rest e := by
  generalize hk : ts.length = k
  induction k using Nat.strongRecOn generalizing ts rest e with
  | ind k ih =>
    subst hk
    refine takes_fix fun self hself => ?_
    have hunary : ∀ ts₁ rest₁ e, ArrowPhrase .unary ts₁ e →
        nextToken rest₁ ≠ some (.symbol .comma) →
        ts₁.length ≤ ts.length → ts₁.length + rest₁.length ≤ ts.length + rest.length →
        Takes (unaryArrow self) ts₁ rest₁ e := by
      intro ts₁ rest₁ e₁ h₁ hstop hle hlen
      refine takes_unaryArrow h₁ hstop fun ts₂ l rest₂ e₂ hlt₂ hlen₂ h₂ hl => ?_
      refine hself.takes ts₂ _ e₂ (by simp only [List.length_cons]; omega)
        (ih ts₂.length (by omega) h₂ ?_ rfl)
      intro s hs
      simp only [List.mem_cons, List.not_mem_nil, or_false] at hs
      rcases hs with rfl | rfl | rfl | rfl <;> simp [hl]
    refine takes_chain h.parts ?_ (fun _ _ => ArrowPhrase.ne_nil) (hends .compose (by simp))
    intro ts₁ rest₁ e₁ h₁ hrest₁ hlen hle
    have hother : ∀ s ∈ [Symbol.comma, .fanOut, .pairUp], nextToken rest₁ ≠ some (.symbol s) := by
      intro s hs
      simp only [List.mem_cons, List.not_mem_nil, or_false] at hs
      rcases hrest₁ with rfl | hcompose
      · exact hends s (by rcases hs with rfl | rfl | rfl <;> simp)
      · rcases hs with rfl | rfl | rfl <;> simp [hcompose]
    refine takes_tuple (fun ts₂ rest₂ e₂ h₂ hstop hle₂ hlen₂ => ?_) (hother .comma (by simp))
      (hother .fanOut (by simp))
      h₁ (hother .pairUp (by simp))
    exact hunary ts₂ rest₂ e₂ h₂ hstop (by omega) (by omega)

end Rule

end PipelineLang
