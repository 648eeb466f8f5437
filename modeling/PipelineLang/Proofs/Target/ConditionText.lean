import PipelineLang.Proofs.Leaf.Assignment
import PipelineLang.Proofs.Target.Conditions
import PipelineLang.Proofs.Target.Expression

/-! The texts of conditions: read as Python they are the conditions again, without their
parentheses. The conditions of a leaf have the same texts, with each name replaced by what it was
found to stand for. -/

namespace PipelineLang

def Condition.written (operandText : Operand → String) : Condition → String
  | binary op left right _ =>
    Target.binary op (left.written operandText) (right.written operandText)
  | paren inner _ => "(" ++ inner.written operandText ++ ")"
  | terminal operand => operandText operand

namespace Python

/-- What an operator of a condition means. An exclusive or is taken of the truth values of its
operands. -/
def conditionOperation (op : ConditionOp) (x y : Expression) : Expression :=
  match op with
  | .or => .binary .or x y
  | .and => .binary .and x y
  | .xor => .binary .bitXor (.trailed .call (.name "bool") x) (.trailed .call (.name "bool") y)
  | .eq => .compare .eq x y
  | .ne => .compare .ne x y
  | .gt => .compare .gt x y
  | .lt => .compare .lt x y
  | .ge => .compare .ge x y
  | .le => .compare .le x y

def jointToken : ConditionOp → Token
  | .or => Operator.or.token
  | .and => Operator.and.token
  | .xor => Operator.bitXor.token
  | .eq => Comparator.eq.token
  | .ne => Comparator.ne.token
  | .gt => Comparator.gt.token
  | .lt => Comparator.lt.token
  | .ge => Comparator.ge.token
  | .le => Comparator.le.token

def withSign (negative : Bool) (e : Expression) : Expression :=
  if negative then .signed .minus e else e

def constantExpression : Constant → Expression
  | .integer n => withSign (n < 0) (.integer n.natAbs)
  | .float x =>
    if !x.isNumber then .name "NaN"
    else withSign x.negative (if x.isInfinite then .name "inf" else .float
      (NumeralStyle.literal.unsigned x))
  | .text s => .text s
  | .boolean b => .name (Constant.booleanText b)

def operandExpression : Operand → Expression
  | .ident id => .trailed .index (.name "a") (.text id.name)
  | .state id => .trailed .index (.name "s") (.text id.name)
  | .literal lit => constantExpression lit.value

/-- The tree of a condition without its parentheses. -/
def conditionExpression : Condition → Expression
  | .binary op left right _ =>
    conditionOperation op (conditionExpression left) (conditionExpression right)
  | .paren inner _ => conditionExpression inner
  | .terminal operand => operandExpression operand

/-- Wherever the text stands as an operand, it is read as this expression. -/
def Written (text : String) (e : Expression) : Prop := ∃ ts, Spells text.toList ts ∧ Stands ts e

theorem Written.readAs_iff {text : String} {e : Expression} (h : Written text e) (x : Expression) :
    ReadAs text x ↔ x = e := by
  obtain ⟨ts, hspells, hstands⟩ := h
  constructor
  · rintro ⟨us, hus, hreads⟩
    have hrow : ts = us := Option.some.inj (hspells.tokens.symm.trans hus)
    exact hstands.unique _ _ (hrow ▸ hreads)
  · rintro rfl
    exact ⟨ts, hspells.tokens, hstands.means.reads⟩

theorem stops_cons {c : Char} (h : goesOn c = false) (cs rest : List Char) :
    Stops ((c :: cs) ++ rest) := by
  simpa [Stops] using h

theorem Spells.paren {cs : List Char} {ts : List Token} (h : Spells cs ts) :
    Spells ('(' :: (cs ++ [')'])) (.symbol ['('] :: (ts ++ [.symbol [')']])) :=
  (shows_open.append (h.append (stops_cons (by decide) []) shows_close)).spells

theorem shows_jointToken (op : ConditionOp) :
    Shows (' ' :: ((Target.opText op).toList ++ [' '])) [jointToken op] := by
  have hword : ∀ (c : Char) (cs : List Char), Munch.isWordStart c = true →
      (∀ d ∈ cs, Munch.isWordPart d = true) →
      Shows (' ' :: (c :: cs ++ [' '])) [.word (String.ofList (c :: cs))] := by
    intro c cs hc hcs
    exact shows_blank.append ((isToken_word hc hcs).spells.append (stops_cons (by decide) [])
      shows_blank)
  cases op with
  | or => exact hword 'o' ['r'] (by decide) (List.all_eq_true.mp rfl)
  | and => exact hword 'a' ['n', 'd'] (by decide) (List.all_eq_true.mp rfl)
  | xor => exact shows_spaced '^' [] (by decide) fun _ => rfl
  | eq => exact shows_spaced '=' ['='] (by decide) fun _ => rfl
  | ne => exact shows_spaced '!' ['='] (by decide) fun _ => rfl
  | gt => exact shows_spaced '>' [] (by decide) fun _ => rfl
  | lt => exact shows_spaced '<' [] (by decide) fun _ => rfl
  | ge => exact shows_spaced '>' ['='] (by decide) fun _ => rfl
  | le => exact shows_spaced '<' ['='] (by decide) fun _ => rfl

theorem spells_joined {left right : String} {ts us : List Token} (hleft : Spells left.toList ts)
    (hright : Spells right.toList us) (op : ConditionOp) :
    Spells ("(" ++ left ++ " " ++ Target.opText op ++ " " ++ right ++ ")").toList
      (.symbol ['('] :: ((ts ++ jointToken op :: us) ++ [.symbol [')']])) := by
  have hinner : Spells (left.toList ++ ' ' :: ((Target.opText op).toList ++ [' ']) ++ right.toList)
      (ts ++ [jointToken op] ++ us) :=
    (hleft.append (stops_cons (by decide) _) (shows_jointToken op)).append_spells hright
  have hall := hinner.paren
  simpa using hall

section Written

variable {left right : String} {x y : Expression}

theorem Written.paren (h : Written left x) : Written ("(" ++ left ++ ")") x := by
  obtain ⟨ts, hspells, hstands⟩ := h
  exact ⟨_, by simpa using hspells.paren, hstands.means.paren⟩

theorem Written.truth (h : Written left x) :
    Written ("bool(" ++ left ++ ")") (.trailed .call (.name "bool") x) := by
  obtain ⟨ts, hspells, hstands⟩ := h
  have hbool : IsToken ['b', 'o', 'o', 'l'] (.word "bool") :=
    isToken_word (by decide) (List.all_eq_true.mp rfl)
  have hcall := (hbool.spells.append (stops_cons (by decide) []) shows_open).append
    (hspells.append (stops_cons (by decide) []) shows_close)
  refine ⟨.word "bool" :: .symbol ['('] :: (ts ++ [.symbol [')']]), ?_,
    hstands.means.trailed .call (by decide)⟩
  simpa using hcall.spells

theorem Written.binary (hleft : Written left x) (hright : Written right y) (op : ConditionOp) :
    Written (Target.binary op left right) (conditionOperation op x y) := by
  by_cases hxor : op = .xor
  · subst hxor
    obtain ⟨ts, hts, hx⟩ := hleft.truth
    obtain ⟨us, hus, hy⟩ := hright.truth
    have htext : Target.binary .xor left right =
        "(" ++ ("bool(" ++ left ++ ")") ++ " " ++ Target.opText .xor ++ " " ++
        ("bool(" ++ right ++ ")") ++ ")" := by
      apply String.toList_inj.mp
      simp [Target.binary, Target.opText]
    rw [htext]
    exact ⟨_, spells_joined hts hus .xor, (hx.binary hy .bitXor).paren⟩
  · obtain ⟨ts, hts, hx⟩ := hleft
    obtain ⟨us, hus, hy⟩ := hright
    rw [Target.binary, if_neg hxor]
    refine ⟨_, spells_joined hts hus op, ?_⟩
    cases op with
    | xor => exact absurd rfl hxor
    | or => exact (hx.binary hy .or).paren
    | and => exact (hx.binary hy .and).paren
    | eq => exact (hx.compare hy .eq).paren
    | ne => exact (hx.compare hy .ne).paren
    | gt => exact (hx.compare hy .gt).paren
    | lt => exact (hx.compare hy .lt).paren
    | ge => exact (hx.compare hy .ge).paren
    | le => exact (hx.compare hy .le).paren

end Written

theorem stands_withSign (negative : Bool) {t : Token} {e : Expression} (h : Reads .atom [t] e)
    (hnot : t ≠ notToken) :
    Stands (signTokens negative ++ [t]) (withSign negative e) := by
  cases negative with
  | true => exact stands_signed .minus h
  | false => exact stands_atom h hnot

theorem written_constant (value : Constant) :
    Written (Target.constant value) (constantExpression value) := by
  refine ⟨constantTokens value, spells_constant value, ?_⟩
  have hname : ∀ {w : String}, w ∉ reserved →
      Reads .atom [.word w] (.name w) ∧ Token.word w ≠ notToken := by
    intro w hw
    refine ⟨.name hw, fun hword => hw ?_⟩
    rw [Token.word.inj hword]
    decide
  cases value with
  | integer n => exact stands_withSign _ (.integer _) (by simp [notToken])
  | text s => exact stands_atom (.text s) (by simp [notToken])
  | boolean b =>
    have hb := hname (w := Constant.booleanText b) (by cases b <;> decide)
    exact stands_atom hb.1 hb.2
  | float v =>
    simp only [constantTokens, constantExpression]
    by_cases hnumber : v.isNumber = true
    · by_cases hinfinite : v.isInfinite = true
      · have hinf := hname (w := "inf") (by decide)
        simpa [hnumber, hinfinite] using stands_withSign v.negative hinf.1 hinf.2
      · simpa [hnumber, hinfinite] using stands_withSign v.negative (.float _) (by simp [notToken])
    · have hnan := hname (w := "NaN") (by decide)
      simpa [hnumber] using stands_atom hnan.1 hnan.2

theorem written_operand (operand : Operand) :
    Written (Target.conditionSource operand).code (operandExpression operand) := by
  have hlookup : ∀ {dict : String} (key : String), IsToken dict.toList (.word dict) →
      dict ∉ reserved →
      Written (Target.lookup dict key) (.trailed .index (.name dict) (.text key)) :=
    fun key hdict hreserved =>
    ⟨_, (shows_lookup hdict key).spells,
      (stands_atom (.text key) (by simp [notToken])).means.trailed .index hreserved⟩
  cases operand with
  | ident id =>
    have ha : IsToken ['a'] (.word "a") := isToken_word (by decide) (List.all_eq_true.mp rfl)
    exact hlookup id.name ha (by decide)
  | state id =>
    have hs : IsToken ['s'] (.word "s") := isToken_word (by decide) (List.all_eq_true.mp rfl)
    exact hlookup id.name hs (by decide)
  | literal lit => exact written_constant lit.value

theorem unchained_conditionExpression (c : Condition) : (conditionExpression c).Unchained := by
  have hconstant : ∀ value : Constant, (constantExpression value).Unchained := by
    intro value
    cases value with
    | float v =>
      simp only [constantExpression, withSign]
      split <;> (try split) <;> (try split) <;> trivial
    | integer n =>
      simp only [constantExpression, withSign]
      split <;> trivial
    | text | boolean => trivial
  induction c with
  | binary op left right span ihl ihr =>
    cases op <;> simp only [conditionExpression, conditionOperation, Expression.Unchained, true_and]
      <;>
      exact ⟨ihl, ihr⟩
  | paren inner span ih => exact ih
  | terminal operand =>
    cases operand with
    | literal lit => exact hconstant lit.value
    | ident | state => exact ⟨trivial, trivial⟩

end Python

namespace Target

theorem arrowCondition_eq_written (c : Condition) :
    arrowCondition c = c.written fun operand => (conditionSource operand).code := by
  induction c with
  | binary op left right span ihl ihr => rw [arrowCondition, Condition.written, ihl, ihr]
  | paren inner span ih => rw [arrowCondition, Condition.written, ih]
  | terminal operand => exact arrowCondition_terminal operand

theorem written_arrowCondition (c : Condition) :
    Python.Written (arrowCondition c) (Python.conditionExpression c) := by
  rw [arrowCondition_eq_written]
  induction c with
  | binary op left right span ihl ihr => exact ihl.binary ihr op
  | paren inner span ih => exact ih.paren
  | terminal operand => exact Python.written_operand operand

end Target

mutual

def Command.conditions : Command → List Condition
  | .call _ _ _ | .letIn _ _ _ _ | .failed _ => []
  | .branch _ condition onTrue onFalse _ => condition :: (onTrue.conditions ++ onFalse.conditions)

def Block.conditions : Block → List Condition
  | .mk commands _ _ => conditionsOf commands

def conditionsOf : List Command → List Condition
  | [] => []
  | command :: commands => command.conditions ++ conditionsOf commands

end

mutual

def LoweredCommand.conditions : LoweredCommand → List LoweredCondition
  | .call _ _ _ | .letIn _ _ _ _ => []
  | .branch _ _ condition onTrue onFalse => condition :: (onTrue.conditions ++ onFalse.conditions)

def LoweredBlock.conditions : LoweredBlock → List LoweredCondition
  | .mk commands _ => loweredConditions commands

def loweredConditions : List LoweredCommand → List LoweredCondition
  | [] => []
  | command :: commands => command.conditions ++ loweredConditions commands

end

namespace LeafTables

/-- The code of a lowered condition is the text of the condition, with what the tables tell of each
operand. -/
def WritesAs (t : LeafTables) (c : Condition) (l : LoweredCondition) : Prop :=
  ∃ value : Operand → LoweredValue,
  (∀ operand ∈ c.operands, t.lowerOperand operand = .ok (value operand)) ∧
    Target.leafCondition l = c.written fun operand => Target.leafValue (value operand)

/-- What the tables tell of an operand. -/
def valueOf (t : LeafTables) (operand : Operand) : LoweredValue :=
  (t.lowerOperand operand).toOption.getD default

theorem writesAs_of_lower {t : LeafTables} {c : Condition} {l : LoweredCondition}
    (h : t.lowerCondition c = .ok l) :
    t.WritesAs c l := by
  refine ⟨t.valueOf, ?_⟩
  induction c generalizing l with
  | binary op left right span ihl ihr =>
    obtain ⟨l₁, h₁, h⟩ := exists_of_bind_eq_ok h
    obtain ⟨l₂, h₂, h⟩ := exists_of_bind_eq_ok h
    cases h
    obtain ⟨hvalues₁, htext₁⟩ := ihl h₁
    obtain ⟨hvalues₂, htext₂⟩ := ihr h₂
    refine ⟨List.forall_mem_append.mpr ⟨hvalues₁, hvalues₂⟩, ?_⟩
    rw [Target.leafCondition, htext₁, htext₂, Condition.written]
  | paren inner span ih =>
    obtain ⟨l', h', h⟩ := exists_of_bind_eq_ok h
    cases h
    obtain ⟨hvalues, htext⟩ := ih h'
    exact ⟨hvalues, by rw [Target.leafCondition, htext, Condition.written]⟩
  | terminal operand =>
    obtain ⟨v, hv, h⟩ := exists_of_bind_eq_ok h
    cases h
    have hvalue : t.valueOf operand = v := by rw [valueOf, hv]; rfl
    refine ⟨?_, by rw [Target.leafCondition, Condition.written, hvalue]⟩
    rw [Condition.operands, List.forall_mem_singleton, hvalue]
    exact hv

theorem conditions_of_lower (t : LeafTables) :
    (∀ command number l next, t.lowerCommand number command = .ok (l, next) →
      List.Forall₂ t.WritesAs command.conditions l.conditions) ∧
    (∀ block number l next, t.lowerBlock number block = .ok (l, next) →
      List.Forall₂ t.WritesAs block.conditions l.conditions) ∧
    ∀ commands number ls next, t.lowerCommands number commands = .ok (ls, next) →
      List.Forall₂ t.WritesAs (conditionsOf commands) (loweredConditions ls) := by
  refine t.lower_induct ?call ?letIn ?branch ?block ?nil ?cons
  case call =>
    intro target call span number v c
    exact .nil
  case letIn =>
    intro target bindings body span number v bs c
    exact .nil
  case branch =>
    intro target condition onTrue onFalse span number v c lt lf mid next hc ht hf
    exact .cons (writesAs_of_lower hc) (List.rel_append ht hf)
  case block =>
    intro commands result span number ls v next h
    exact h
  case nil =>
    intro number
    exact .nil
  case cons =>
    intro command commands number l ls mid next hl hls
    exact List.rel_append hl hls

end LeafTables

theorem DoBlock.conditions_of_lower {body : DoBlock} {t : LeafTables} {leaf : LoweredLeaf}
    (h : body.lower t = .ok leaf) :
    List.Forall₂ t.WritesAs (conditionsOf body.commands) (loweredConditions leaf.commands) := by
  obtain ⟨⟨ls, next⟩, hls, h⟩ := exists_of_bind_eq_ok h
  obtain ⟨returns, -, h⟩ := exists_of_bind_eq_ok h
  cases h
  exact t.conditions_of_lower.2.2 _ _ _ _ hls

namespace Program

/-- The text of an arrow condition has exactly one reading, which is the condition without its
parentheses, and in which no comparison goes on to a further operand. A leaf that was read and
resolved without errors is lowered, and the conditions in it have the same texts, with the code of
its resolution for each operand. -/
theorem conditions_read_back :
    (∀ c : Condition,
      (∀ e, Python.ReadAs (Target.arrowCondition c) e ↔ e = Python.conditionExpression c) ∧
        (Python.conditionExpression c).Unchained ∧
        Target.arrowCondition c = c.written fun operand => (Target.conditionSource operand).code) ∧
    ∀ (source file : String) (registry : Registry) (files : FileTree) (p : Program) (body :
        DoBlock),
      (Parsed.ofSource source).program = some p →
      (∀ f ∈ (Parsed.ofSource source).findings, f.isError = false) →
      p.component.definition = .leaf body →
      (∀ f ∈ (p.resolve file registry files).findings, f.isError = false) →
      ∃ leaf, body.lower (p.resolve file registry files).symbols.tables = .ok leaf ∧
        List.Forall₂ (p.resolve file registry files).symbols.tables.WritesAs
          (conditionsOf body.commands) (loweredConditions leaf.commands) := by
  refine ⟨fun c => ⟨(Target.written_arrowCondition c).readAs_iff,
    Python.unchained_conditionExpression c,
    Target.arrowCondition_eq_written
      c⟩, fun source file registry files p body hp hparsed hleaf hclean => ?_⟩
  have hintact := Parsed.intact_of_clean hp (Parsed.findings_eq_nil_iff.mpr hparsed)
  rw [hleaf] at hintact
  obtain ⟨leaf, hlower, -⟩ := (bodyAgrees_of_clean hleaf hintact.1 hintact.2 hclean).exists_lower
  exact ⟨leaf, hlower, DoBlock.conditions_of_lower hlower⟩

def choosy : String :=
  "import m as m component c inputs a outputs b configuration k "
    ++ "do x <- m.f(a) y <- if x > 1 or a == @k xor x != -2 then return x else "
    ++ "if (a >= x) == true then return a else return x endif return x endif return b <- y"

theorem choosy_conditions_read_back :
    ∃ p body leaf, leafOf? choosy "c.pcl" oneFunction = some (p, body) ∧
      body.lower (p.resolve "c.pcl" oneFunction .empty).symbols.tables = .ok leaf ∧
      (conditionsOf body.commands).length = 2 ∧
      (loweredConditions leaf.commands).map Target.leafCondition =
        ["((____x_0 > 1) or (bool((a['a'] == s['k'])) ^ bool((____x_0 != -2))))",
          "(((a['a'] >= ____x_0)) == True)"] ∧
      List.Forall₂ (p.resolve "c.pcl" oneFunction .empty).symbols.tables.WritesAs
        (conditionsOf body.commands) (loweredConditions leaf.commands) := by
  have hfacts : (leafOf? choosy "c.pcl" oneFunction).bind (fun x =>
      (x.2.lower (x.1.resolve "c.pcl" oneFunction .empty).symbols.tables).toOption.map fun leaf =>
        ((conditionsOf x.2.commands).length,
          (loweredConditions leaf.commands).map Target.leafCondition)) =
      some (2, ["((____x_0 > 1) or (bool((a['a'] == s['k'])) ^ bool((____x_0 != -2))))",
        "(((a['a'] >= ____x_0)) == True)"]) := by
    decide +kernel
  obtain ⟨⟨p, body⟩, hsome, hfacts⟩ := Option.bind_eq_some_iff.mp hfacts
  obtain ⟨hp, hparsed, hdef, hclean⟩ := of_leafOf? hsome
  obtain ⟨leaf, hlower, hconditions⟩ :=
    conditions_read_back.2 choosy "c.pcl" oneFunction .empty p body hp hparsed hdef hclean
  simp only [hlower, Except.toOption, Option.map_some, Prod.mk.injEq, Option.some.injEq] at hfacts
  exact ⟨p, body, leaf, hsome, hlower, hfacts.1, hfacts.2, hconditions⟩

end Program

end PipelineLang
