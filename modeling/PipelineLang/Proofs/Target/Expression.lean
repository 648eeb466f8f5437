import PipelineLang.Proofs.Target.Lexical

/-! Python expressions: the operators by their precedence, the grammar over rows of tokens, and rows
that can be read in one way only. A row in brackets, or a name with brackets behind it, stands for
one expression wherever it is put; two such rows with an operator between them are read as this
operator applied to them. -/

namespace PipelineLang.Python

variable {ts l r : List Token} {o c : Token}

/-- The levels of the grammar from the loosest to the tightest. `links` are comparisons that go
on. -/
inductive Level where
  | disjunction | conjunction | negation | comparison | links
  | bitOr | bitXor | bitAnd | shift | sum | product | sign | power | primary | atom
deriving DecidableEq

def Level.rank : Level → Nat
  | disjunction => 0
  | conjunction => 1
  | negation => 2
  | comparison => 3
  | links => 4
  | bitOr => 5
  | bitXor => 6
  | bitAnd => 7
  | shift => 8
  | sum => 9
  | product => 10
  | sign => 11
  | power => 12
  | primary => 13
  | atom => 14

/-- The operators that take what is on their left first. -/
inductive Operator where
  | or | and | bitOr | bitXor | bitAnd | shiftLeft | shiftRight
  | add | subtract | multiply | multiplyMatrix | divide | divideDown | remainder
deriving DecidableEq

namespace Operator

def level : Operator → Level
  | or => .disjunction
  | and => .conjunction
  | bitOr => .bitOr
  | bitXor => .bitXor
  | bitAnd => .bitAnd
  | shiftLeft | shiftRight => .shift
  | add | subtract => .sum
  | multiply | multiplyMatrix | divide | divideDown | remainder => .product

def token : Operator → Token
  | or => .word "or"
  | and => .word "and"
  | bitOr => .symbol ['|']
  | bitXor => .symbol ['^']
  | bitAnd => .symbol ['&']
  | shiftLeft => .symbol ['<', '<']
  | shiftRight => .symbol ['>', '>']
  | add => .symbol ['+']
  | subtract => .symbol ['-']
  | multiply => .symbol ['*']
  | multiplyMatrix => .symbol ['@']
  | divide => .symbol ['/']
  | divideDown => .symbol ['/', '/']
  | remainder => .symbol ['%']

end Operator

inductive Comparator where
  | eq | ne | lt | gt | le | ge | member | identity
deriving DecidableEq

def Comparator.token : Comparator → Token
  | eq => .symbol ['=', '=']
  | ne => .symbol ['!', '=']
  | lt => .symbol ['<']
  | gt => .symbol ['>']
  | le => .symbol ['<', '=']
  | ge => .symbol ['>', '=']
  | member => .word "in"
  | identity => .word "is"

inductive Sign where
  | minus | plus | invert
deriving DecidableEq

def Sign.token : Sign → Token
  | minus => .symbol ['-']
  | plus => .symbol ['+']
  | invert => .symbol ['~']

/-- What may follow a primary: an argument in parentheses, or a key in brackets. -/
inductive Trailer where
  | call | index
deriving DecidableEq

namespace Trailer

def opening : Trailer → Token
  | call => .symbol ['(']
  | index => .symbol ['[']

def closing : Trailer → Token
  | call => .symbol [')']
  | index => .symbol [']']

end Trailer

inductive Expression where
  | name (text : String)
  | integer (value : Nat)
  | float (chars : List Char)
  | text (value : String)
  | trailed (t : Trailer) (base argument : Expression)
  | power (base exponent : Expression)
  | signed (s : Sign) (operand : Expression)
  | binary (op : Operator) (left right : Expression)
  | compare (op : Comparator) (left right : Expression)
  /-- A comparison that goes on: its last operand is compared once more. -/
  | chain (comparison : Expression) (op : Comparator) (next : Expression)
  | negation (operand : Expression)
deriving DecidableEq

/-- No comparison in the expression goes on to a further operand. -/
def Expression.Unchained : Expression → Prop
  | name _ | integer _ | float _ | text _ => True
  | trailed _ base argument => base.Unchained ∧ argument.Unchained
  | power base exponent => base.Unchained ∧ exponent.Unchained
  | signed _ operand | negation operand => operand.Unchained
  | binary _ left right | compare _ left right => left.Unchained ∧ right.Unchained
  | chain _ _ _ => False

def reserved : List String :=
  ["or", "and", "not", "in", "is", "if", "else", "lambda", "for", "async", "await", "yield", "from",
    "as"]

def notToken : Token := .word "not"

def powerToken : Token := .symbol ['*', '*']

/-- The grammar of expressions, as far as they have one argument in a call and one key in a
subscript, and are neither conditional nor anonymous functions. A row is read at a level if its
loosest operator is at least as tight. -/
inductive Reads : Level → List Token → Expression → Prop where
  | tighter {level level' : Level} {ts : List Token} {e : Expression}
      (hlevel : level.rank < level'.rank)
    (hlinks : level ≠ .links) (h : Reads level' ts e) : Reads level ts e
  | binary (op : Operator) {level : Level} {l r : List Token} {x y : Expression}
    (hlevel : op.level.rank < level.rank) (hl : Reads op.level l x) (hr : Reads level r y) :
    Reads op.level (l ++ op.token :: r) (.binary op x y)
  | negation {ts : List Token} {x : Expression} (h : Reads .negation ts x) :
    Reads .negation (notToken :: ts) (.negation x)
  | compare (op : Comparator) {l r : List Token} {x y : Expression} (hl : Reads .bitOr l x)
      (hr : Reads .bitOr r y) :
    Reads .links (l ++ op.token :: r) (.compare op x y)
  | chain (op : Comparator) {l r : List Token} {x y : Expression} (hl : Reads .links l x)
      (hr : Reads .bitOr r y) :
    Reads .links (l ++ op.token :: r) (.chain x op y)
  | signed (s : Sign) {ts : List Token} {x : Expression} (h : Reads .sign ts x) :
    Reads .sign (s.token :: ts) (.signed s x)
  | power {l r : List Token} {x y : Expression} (hl : Reads .primary l x) (hr : Reads .sign r y) :
    Reads .power (l ++ powerToken :: r) (.power x y)
  | trailed (t : Trailer) {l r : List Token} {x y : Expression} (hl : Reads .primary l x)
    (hr : Reads .disjunction r y) :
    Reads .primary (l ++ t.opening :: (r ++ [t.closing])) (.trailed t x y)
  | name {text : String} (h : text ∉ reserved) : Reads .atom [.word text] (.name text)
  | integer (value : Nat) : Reads .atom [.integer value] (.integer value)
  | float (chars : List Char) : Reads .atom [.float chars] (.float chars)
  | text (value : String) : Reads .atom [.text value] (.text value)
  | paren {ts : List Token} {e : Expression} (h : Reads .disjunction ts e) :
    Reads .atom (.symbol ['('] :: (ts ++ [.symbol [')']])) e

/-- A text is read as an expression if the row of its tokens is, at the loosest level. -/
def ReadAs (text : String) (e : Expression) : Prop :=
  ∃ ts, tokens? text.toList = some ts ∧ Reads .disjunction ts e

theorem Reads.loosen {level level' : Level} {e : Expression} (h : Reads level' ts e)
    (hlevel : level.rank ≤ level'.rank) (hlinks : level ≠ .links) : Reads level ts e := by
  by_cases heq : level = level'
  · exact heq ▸ h
  · have hne : level.rank ≠ level'.rank := by
      intro hrank
      apply heq
      revert hrank
      cases level <;> cases level' <;> decide
    exact .tighter (by omega) hlinks h

def Token.weight (t : Token) : Int :=
  if t = .symbol ['('] ∨ t = .symbol ['['] then 1
  else if t = .symbol [')'] ∨ t = .symbol [']'] then -1
  else 0

/-- How many brackets a row opens and does not close. -/
def depth : List Token → Int
  | [] => 0
  | t :: ts => t.weight + depth ts

theorem depth_append (ts us : List Token) : depth (ts ++ us) = depth ts + depth us := by
  induction ts with
  | nil => simp [depth]
  | cons t ts ih =>
    rw [List.cons_append, depth, depth, ih]
    omega

/-- No part in front of the row closes more than it opens, and the whole row closes all. -/
structure Balanced (ts : List Token) : Prop where
  closed : depth ts = 0
  nonneg : ∀ l r, ts = l ++ r → 0 ≤ depth l

theorem Balanced.append {us : List Token} (hts : Balanced ts) (hus : Balanced us) :
    Balanced (ts ++ us) := by
  refine ⟨by rw [depth_append, hts.closed, hus.closed]; rfl, fun l r h => ?_⟩
  rcases List.append_eq_append_iff.mp h with ⟨w, hl, -⟩ | ⟨w, hts', -⟩
  · have hw : 0 ≤ depth w := hus.nonneg w r (by simp_all)
    rw [hl, depth_append, hts.closed]
    omega
  · exact hts.nonneg l w hts'

theorem balanced_singleton {t : Token} (h : t.weight = 0) : Balanced [t] := by
  refine ⟨by simp [depth, h], fun l r heq => ?_⟩
  cases l with
  | nil => simp [depth]
  | cons a l =>
    have hl : l = [] := by simp_all
    have ha : a = t := by simp_all
    simp [hl, ha, depth, h]

theorem depth_pos_of_enclosed (ho : o.weight = 1) (hts : Balanced ts)
    (h : o :: (ts ++ [c]) = l ++ r) (hl : l ≠ []) (hr : r ≠ []) : 0 < depth l := by
  obtain ⟨a, l, rfl⟩ := List.exists_cons_of_ne_nil hl
  rw [List.cons_append, List.cons.injEq] at h
  obtain ⟨rfl, h⟩ := h
  have hinner : ∃ w, ts = l ++ w := by
    rcases List.append_eq_append_iff.mp h with ⟨w, rfl, hw⟩ | ⟨w, hw, -⟩
    · cases w with
      | nil => exact ⟨[], by simp⟩
      | cons b w =>
        have hr' : r = [] := by simp_all
        exact absurd hr' hr
    · exact ⟨w, hw⟩
  obtain ⟨w, hw⟩ := hinner
  have hl' := hts.nonneg l w hw
  rw [depth, ho]
  omega

theorem Balanced.enclose (ho : o.weight = 1) (hc : c.weight = -1)
    (hts : Balanced ts) : Balanced (o :: (ts ++ [c])) := by
  have hclosed : depth (o :: (ts ++ [c])) = 0 := by
    rw [depth, depth_append, hts.closed, ho, depth, depth, hc]
    rfl
  refine ⟨hclosed, fun l r h => ?_⟩
  by_cases hl : l = []
  · simp [hl, depth]
  by_cases hr : r = []
  · rw [hr, List.append_nil] at h
    exact Int.le_of_eq (h ▸ hclosed.symm)
  · exact Int.le_of_lt (depth_pos_of_enclosed ho hts h hl hr)

/-- The tokens that stand between two operands. -/
def joints : List Token :=
  powerToken :: ([.or, .and, .bitOr, .bitXor, .bitAnd, .shiftLeft, .shiftRight, .add, .subtract,
    .multiply,
      .multiplyMatrix, .divide, .divideDown, .remainder].map Operator.token
    ++ [.eq, .ne, .lt, .gt, .le, .ge, .member, .identity].map Comparator.token)

theorem Operator.mem_joints (op : Operator) : op.token ∈ joints := by cases op <;> decide

theorem Comparator.mem_joints (op : Comparator) : op.token ∈ joints := by cases op <;> decide

theorem weight_of_mem_joints : ∀ t ∈ joints, t.weight = 0 := by decide

/-- The tokens behind which an operand has to come. -/
def operators : List Token := notToken :: Sign.invert.token :: joints

def Token.isOperand : Token → Bool
  | .word w => !reserved.contains w
  | .symbol _ => false
  | _ => true

theorem not_mem_operators {t : Token} (h : t.isOperand = true) : t ∉ operators := by
  have hall : ∀ t ∈ operators, t.isOperand = false := by decide
  intro hmem
  rw [hall t hmem] at h
  cases h

theorem Reads.balanced {level : Level} {e : Expression} (h : Reads level ts e) : Balanced ts := by
  have hjoin : ∀ {l r : List Token} {t : Token}, t ∈ joints → Balanced l → Balanced r →
      Balanced (l ++ t :: r) :=
    fun ht hl hr => hl.append ((balanced_singleton (weight_of_mem_joints _ ht)).append hr)
  induction h with
  | tighter _ _ _ ih => exact ih
  | binary op _ _ _ ihl ihr => exact hjoin op.mem_joints ihl ihr
  | compare op _ _ ihl ihr | chain op _ _ ihl ihr => exact hjoin op.mem_joints ihl ihr
  | power _ _ ihl ihr => exact hjoin (by decide) ihl ihr
  | negation _ ih => exact (balanced_singleton (by decide)).append ih
  | signed s _ ih => exact (balanced_singleton (by cases s <;> decide)).append ih
  | trailed t _ _ ihl ihr =>
    exact ihl.append (ihr.enclose (by cases t <;> decide) (by cases t <;> decide))
  | name _ | integer _ | float _ | text _ => exact balanced_singleton (by simp [Token.weight])
  | paren _ ih => exact ih.enclose (by decide) (by decide)

theorem Reads.ends {level : Level} {e : Expression} (h : Reads level ts e) :
    ∃ init last, ts = init ++ [last] ∧ last ∉ operators := by
  induction h with
  | tighter _ _ _ ih => exact ih
  | @binary op _ l _ _ _ _ _ _ _ ih =>
    obtain ⟨init, last, rfl, hlast⟩ := ih
    exact ⟨l ++ op.token :: init, last, by simp, hlast⟩
  | @compare op l _ _ _ _ _ _ ih | @chain op l _ _ _ _ _ _ ih =>
    obtain ⟨init, last, rfl, hlast⟩ := ih
    exact ⟨l ++ op.token :: init, last, by simp, hlast⟩
  | @power l _ _ _ _ _ _ ih =>
    obtain ⟨init, last, rfl, hlast⟩ := ih
    exact ⟨l ++ powerToken :: init, last, by simp, hlast⟩
  | negation _ ih =>
    obtain ⟨init, last, rfl, hlast⟩ := ih
    exact ⟨notToken :: init, last, by simp, hlast⟩
  | signed s _ ih =>
    obtain ⟨init, last, rfl, hlast⟩ := ih
    exact ⟨s.token :: init, last, by simp, hlast⟩
  | @trailed t l r => exact ⟨l ++ t.opening :: r, t.closing, by simp, by cases t <;> decide⟩
  | @name text h => exact ⟨[], _, rfl, not_mem_operators (by simpa [Token.isOperand] using h)⟩
  | integer _ | float _ | text _ => exact ⟨[], _, rfl, not_mem_operators rfl⟩
  | @paren ts => exact ⟨.symbol ['('] :: ts, .symbol [')'], by simp, by decide⟩

theorem Reads.nonempty {level : Level} {e : Expression} (h : Reads level ts e) : ts ≠ [] := by
  obtain ⟨init, last, rfl, -⟩ := h.ends
  simp

/-- Two ways to cut a row at a token: one is in front of the other, or they are the same. -/
theorem append_cons_cases {x y : List Token} {t u : Token} (h : l ++ t :: r = x ++ u :: y) :
    (∃ w, x = l ++ t :: w ∧ r = w ++ u :: y) ∨ (l = x ∧ t = u ∧ r = y) ∨
    ∃ w, l = x ++ u :: w ∧ y = w ++ t :: r := by
  rcases List.append_eq_append_iff.mp h with ⟨w, rfl, hw⟩ | ⟨w, rfl, hw⟩
  · cases w with
    | nil => simp_all
    | cons a w =>
      rw [List.cons_append, List.cons.injEq] at hw
      obtain ⟨rfl, rfl⟩ := hw
      exact .inl ⟨w, rfl, rfl⟩
  · cases w with
    | nil => simp_all
    | cons a w =>
      rw [List.cons_append, List.cons.injEq] at hw
      obtain ⟨rfl, rfl⟩ := hw
      exact .inr (.inr ⟨w, rfl, rfl⟩)

/-- Outside of brackets, no operator divides the row. -/
def Compact (ts : List Token) : Prop :=
  ∀ l t r, ts = l ++ t :: r → l ≠ [] → depth l = 0 → t ∉ joints

/-- A compact row that ends with an operand. -/
structure Row (ts : List Token) : Prop where
  closed : depth ts = 0
  compact : Compact ts
  ends : ∃ init last, ts = init ++ [last] ∧ last ∉ operators

namespace Row

variable {x y : List Token} {t : Token} {level : Level} {e : Expression}

theorem nonempty (hx : Row x) : x ≠ [] := by
  obtain ⟨init, last, rfl, -⟩ := hx.ends
  simp

theorem tail {s : Token} (h : Row (s :: ts)) (hs : s ∈ operators) (hweight : s.weight = 0) :
    Row ts := by
  refine ⟨?_, fun l t r hts hl hdepth => ?_, ?_⟩
  · have hclosed := h.closed
    rw [depth, hweight] at hclosed
    omega
  · refine h.compact (s :: l) t r (by rw [hts]; rfl) (by simp) ?_
    rw [depth, hweight, hdepth]
    rfl
  · obtain ⟨init, last, heq, hlast⟩ := h.ends
    cases init with
    | nil =>
      rw [List.nil_append, List.cons.injEq] at heq
      exact absurd (heq.1 ▸ hs) hlast
    | cons a init =>
      rw [List.cons_append, List.cons.injEq] at heq
      exact ⟨init, last, heq.2, hlast⟩

theorem not_enclosed (hx : Row x) {w : List Token} (ho : o.weight = 1) (hl : depth l = 0)
    (hxl : x = l ++ o :: w) (hr : Balanced r) (heq : r ++ [c] = w ++ t :: y) : False := by
  have hinner : ∃ v, r = w ++ v := by
    rcases List.append_eq_append_iff.mp heq with ⟨v, hw, hv⟩ | ⟨v, hv, -⟩
    · cases v with
      | nil => exact ⟨[], by simp [hw]⟩
      | cons b v => simp at hv
    · exact ⟨v, hv⟩
  obtain ⟨v, hv⟩ := hinner
  have hnonneg := hr.nonneg w v hv
  have hclosed := hx.closed
  rw [hxl, depth_append, hl, depth, ho] at hclosed
  omega

/-- A row that goes on behind an operator cannot be read as something with a sign, or as something
tighter. -/
theorem rank_lt_sign (hx : Row x) (ht : t ∈ joints) (hpower : t ≠ powerToken)
    (h : Reads level (x ++ t :: y) e) : level.rank < Level.sign.rank := by
  have hopening : ∀ trailer : Trailer, trailer.opening ∉ joints := by
    intro trailer
    cases trailer <;> decide
  generalize hts : x ++ t :: y = ts at h
  induction h generalizing x y with
  | tighter hlevel _ _ ih => exact Nat.lt_trans hlevel (ih hx hts)
  | binary op => cases op <;> decide
  | negation | compare | chain => decide
  | @signed s ts _ h ih =>
    obtain ⟨a, x, rfl⟩ := List.exists_cons_of_ne_nil hx.nonempty
    rw [List.cons_append, List.cons.injEq] at hts
    obtain ⟨rfl, hts⟩ := hts
    exact ih (hx.tail (by cases s <;> decide) (by cases s <;> decide)) hts
  | @power l r _ _ hl _ ih =>
    rcases append_cons_cases hts.symm with ⟨w, hxl, -⟩ | ⟨-, hpower', -⟩ | ⟨w, hlx, -⟩
    · exact absurd (by decide) (hx.compact l powerToken w hxl hl.nonempty hl.balanced.closed)
    · exact absurd hpower'.symm hpower
    · exact absurd (ih hx hlx.symm) (by decide)
  | @trailed trailer l r _ _ hl hr ih =>
    rcases append_cons_cases hts.symm with ⟨w, hxl, hw⟩ | ⟨-, heq, -⟩ | ⟨w, hlx, -⟩
    · exact (hx.not_enclosed (by cases trailer <;> decide) hl.balanced.closed hxl hr.balanced
        hw).elim
    · exact absurd (heq ▸ ht) (hopening trailer)
    · exact absurd (ih hx hlx.symm) (by decide)
  | name | integer | float | text =>
    obtain ⟨a, x, rfl⟩ := List.exists_cons_of_ne_nil hx.nonempty
    simp at hts
  | @paren ts _ h =>
    obtain ⟨a, x, rfl⟩ := List.exists_cons_of_ne_nil hx.nonempty
    rw [List.cons_append, List.cons.injEq] at hts
    obtain ⟨rfl, hts⟩ := hts
    exact (hx.not_enclosed (l := []) (by decide) rfl rfl h.balanced hts.symm).elim

theorem not_links (hx : Row x) : ¬Reads .links x e := by
  intro h
  generalize hlevel : Level.links = level at h
  cases h with
  | tighter _ hlinks => exact hlinks hlevel.symm
  | binary op => cases op <;> cases hlevel
  | @compare op l r _ _ hl | @chain op l r _ _ hl =>
    exact hx.compact l op.token r rfl hl.nonempty hl.balanced.closed op.mem_joints
  | _ => cases hlevel

/-- Two rows with an operator between them are read as this operator applied to what the rows are
read as. -/
theorem reads_join (hx : Row x) (hy : Row y) (hnot : x.head? ≠ some notToken) (ht : t ∈ joints)
    (hpower : t ≠ powerToken) (h : Reads level (x ++ t :: y) e) :
    ∃ level₁ level₂ a b, Reads level₁ x a ∧ Reads level₂ y b ∧
      ((∃ op : Operator, t = op.token ∧ e = .binary op a b) ∨
        ∃ op : Comparator, t = op.token ∧ e = .compare op a b) := by
  -- the row can only be cut at the operator itself
  have hcut : ∀ {u : Token} {l r : List Token} {level' : Level} {a : Expression}, u ∈ joints →
      Reads level' l a → x ++ t :: y = l ++ u :: r → x = l ∧ t = u ∧ y = r := by
    intro u l r level' a hu hl heq
    rcases append_cons_cases heq.symm with ⟨w, hxl, -⟩ | ⟨hlx, hut, hry⟩ | ⟨w, hlx, hyw⟩
    · exact absurd hu (hx.compact l u w hxl hl.nonempty hl.balanced.closed)
    · exact ⟨hlx.symm, hut.symm, hry.symm⟩
    · have hclosed := hl.balanced.closed
      rw [hlx, depth_append, hx.closed, depth, weight_of_mem_joints t ht] at hclosed
      by_cases hw : w = []
      · obtain ⟨init, last, hinit, hlast⟩ := hl.ends
        rw [hlx, hw] at hinit
        have hlast' : t = last := by simpa using (List.append_inj' hinit rfl).2
        exact absurd (hlast' ▸ List.mem_cons_of_mem _ (List.mem_cons_of_mem _ ht)) hlast
      · exact absurd hu (hy.compact w u r hyw hw (by omega))
  have hrank := hx.rank_lt_sign ht hpower h
  generalize hts : x ++ t :: y = ts at h
  induction h with
  | tighter _ _ h ih => exact ih (hx.rank_lt_sign ht hpower (by rwa [hts])) hts
  | binary op hlevel hl hr =>
    obtain ⟨rfl, rfl, rfl⟩ := hcut op.mem_joints hl hts
    exact ⟨_, _, _, _, hl, hr, .inl ⟨op, rfl, rfl⟩⟩
  | compare op hl hr =>
    obtain ⟨rfl, rfl, rfl⟩ := hcut op.mem_joints hl hts
    exact ⟨_, _, _, _, hl, hr, .inr ⟨op, rfl, rfl⟩⟩
  | chain op hl hr =>
    obtain ⟨rfl, rfl, rfl⟩ := hcut op.mem_joints hl hts
    exact absurd hl hx.not_links
  | negation =>
    obtain ⟨a, x, rfl⟩ := List.exists_cons_of_ne_nil hx.nonempty
    rw [List.cons_append, List.cons.injEq] at hts
    exact absurd (by rw [hts.1]; rfl) hnot
  | _ => exact absurd hrank (by decide)

end Row

/-- The row is read as this expression, and at no level as another. -/
structure Means (ts : List Token) (e : Expression) : Prop where
  reads : Reads .disjunction ts e
  unique : ∀ level x, Reads level ts x → x = e

/-- The row means this expression, and can be put as an operand beside any binary operator. -/
structure Stands (ts : List Token) (e : Expression) : Prop where
  reads : Reads .sign ts e
  unique : ∀ level x, Reads level ts x → x = e
  compact : Compact ts
  positive : ts.head? ≠ some notToken

namespace Stands

variable {x y : List Token} {a b : Expression}

theorem means (h : Stands x a) : Means x a := ⟨h.reads.loosen (by decide) (by decide), h.unique⟩

theorem row (h : Stands x a) : Row x := ⟨h.reads.balanced.closed, h.compact, h.reads.ends⟩

theorem binary (hx : Stands x a) (hy : Stands y b) (op : Operator) :
    Means (x ++ op.token :: y) (.binary op a b) := by
  have hlevel : op.level.rank < Level.sign.rank := by cases op <;> decide
  have hlinks : op.level ≠ .links := by cases op <;> decide
  refine ⟨(Reads.binary op hlevel (.tighter hlevel hlinks hx.reads) hy.reads).loosen (Nat.zero_le _)
    (by decide), fun level e h => ?_⟩
  obtain ⟨_, _, a', b', ha, hb, hop⟩ :=
    hx.row.reads_join hy.row hx.positive op.mem_joints (by cases op <;> decide) h
  rcases hop with ⟨op', htoken, rfl⟩ | ⟨op', htoken, -⟩
  · have hsame : op = op' := by
      revert htoken
      cases op <;> cases op' <;> decide
    rw [hsame, hx.unique _ _ ha, hy.unique _ _ hb]
  · exfalso
    revert htoken
    cases op <;> cases op' <;> decide

theorem compare (hx : Stands x a) (hy : Stands y b) (op : Comparator) :
    Means (x ++ op.token :: y) (.compare op a b) := by
  have hloosen : ∀ {ts : List Token} {e : Expression}, Stands ts e → Reads .bitOr ts e :=
    fun h => h.reads.loosen (by decide) (by decide)
  refine ⟨(Reads.compare op (hloosen hx) (hloosen hy)).loosen (by decide) (by decide),
    fun level e h => ?_⟩
  obtain ⟨_, _, a', b', ha, hb, hop⟩ :=
    hx.row.reads_join hy.row hx.positive op.mem_joints (by cases op <;> decide) h
  rcases hop with ⟨op', htoken, -⟩ | ⟨op', htoken, rfl⟩
  · exfalso
    revert htoken
    cases op <;> cases op' <;> decide
  · have hsame : op = op' := by
      revert htoken
      cases op <;> cases op' <;> decide
    rw [hsame, hx.unique _ _ ha, hy.unique _ _ hb]

end Stands

def Token.atom? : Token → Option Expression
  | .word w => some (.name w)
  | .integer n => some (.integer n)
  | .float cs => some (.float cs)
  | .text s => some (.text s)
  | .symbol _ => none

/-- The readings of a compact row: an atom, a sign or `not` with an operand, something with a
trailer, or a row in parentheses. -/
inductive CompactReading : List Token → Expression → Prop where
  | atom {t : Token} {e : Expression} (h : t.atom? = some e) : CompactReading [t] e
  | negation {ts : List Token} {e : Expression} (h : ts ≠ []) :
      CompactReading (notToken :: ts) (.negation e)
  | signed (s : Sign) {ts : List Token} {e : Expression} (h : Reads .sign ts e) :
    CompactReading (s.token :: ts) (.signed s e)
  | trailed (t : Trailer) {l r : List Token} {x y : Expression} (hl : Reads .primary l x)
      (hr : Reads .disjunction r y) :
    CompactReading (l ++ t.opening :: (r ++ [t.closing])) (.trailed t x y)
  | paren {ts : List Token} {e : Expression} (h : Reads .disjunction ts e) :
    CompactReading (.symbol ['('] :: (ts ++ [.symbol [')']])) e

theorem Compact.reading {level : Level} {e : Expression} (hts : Compact ts) (h : Reads level ts e) :
    CompactReading ts e := by
  induction h with
  | tighter _ _ _ ih => exact ih hts
  | binary op _ hl => exact absurd op.mem_joints (hts _ _ _ rfl hl.nonempty hl.balanced.closed)
  | compare op hl | chain op hl =>
    exact absurd op.mem_joints (hts _ _ _ rfl hl.nonempty hl.balanced.closed)
  | power hl => exact absurd (by decide) (hts _ _ _ rfl hl.nonempty hl.balanced.closed)
  | negation h => exact .negation h.nonempty
  | signed s h => exact .signed s h
  | trailed t hl hr => exact .trailed t hl hr
  | name | integer | float | text => exact .atom rfl
  | paren h => exact .paren h

theorem compact_singleton (t : Token) : Compact [t] := by
  intro l u r heq hl
  obtain ⟨a, l, rfl⟩ := List.exists_cons_of_ne_nil hl
  simp at heq

theorem Reads.atom?_eq {level : Level} {t : Token} {e : Expression} (h : Reads level [t] e) :
    t.atom? = some e := by
  have hreading := (compact_singleton t).reading h
  generalize hts : [t] = ts at hreading
  cases hreading with
  | atom h =>
    cases hts
    exact h
  | negation h =>
    cases hts
    exact absurd rfl h
  | signed s h =>
    cases hts
    exact absurd rfl h.nonempty
  | trailed t hl =>
    have hlength := congrArg List.length hts
    simp at hlength
    omega
  | paren => simp at hts

theorem stands_atom {t : Token} {e : Expression} (h : Reads .atom [t] e) (hnot : t ≠ notToken) :
    Stands [t] e :=
  ⟨h.loosen (by decide) (by decide),
    fun _ _ hx => Option.some.inj (hx.atom?_eq.symm.trans h.atom?_eq),
    compact_singleton t, by simpa using hnot⟩

theorem stands_signed (s : Sign) {t : Token} {e : Expression} (h : Reads .atom [t] e) :
    Stands [s.token, t] (.signed s e) := by
  have hs : s.token ≠ notToken ∧ s.token ≠ .symbol ['('] := by cases s <;> decide
  have hlast : t ∉ operators := by
    obtain ⟨init, last, heq, hlast⟩ := h.ends
    cases init with
    | nil => simp_all
    | cons a init => simp at heq
  have hcompact : Compact [s.token, t] := by
    intro l u r heq hl _ hu
    obtain ⟨a, l, rfl⟩ := List.exists_cons_of_ne_nil hl
    cases l with
    | nil =>
      have hut : t = u := by simp_all
      exact hlast (hut ▸ List.mem_cons_of_mem _ (List.mem_cons_of_mem _ hu))
    | cons b l => simp at heq
  refine ⟨.signed s (h.loosen (by decide) (by decide)), fun level x hx => ?_,
    hcompact, by simpa using hs.1⟩
  have hreading := hcompact.reading hx
  generalize hts : [s.token, t] = ts at hreading
  cases hreading with
  | @signed s' ts x hx =>
    obtain ⟨hsign, rfl⟩ : s.token = s'.token ∧ [t] = ts := by simpa using hts
    have hsame : s = s' := by
      revert hsign
      cases s <;> cases s' <;> decide
    rw [hsame, Option.some.inj (hx.atom?_eq.symm.trans h.atom?_eq)]
  | trailed trailer hl =>
    have hlength := congrArg List.length hts
    have hpos := List.length_pos_iff.mpr hl.nonempty
    simp at hlength
    omega
  | negation => exact absurd (by simp_all) hs.1
  | paren => exact absurd (by simp_all) hs.2
  | atom => simp at hts

theorem Means.paren {e : Expression} (h : Means ts e) :
    Stands (.symbol ['('] :: (ts ++ [.symbol [')']])) e := by
  -- in front of its end the row has an open parenthesis
  have hopen : ∀ {l r : List Token}, .symbol ['('] :: (ts ++ [.symbol [')']]) = l ++ r → l ≠ [] →
      r ≠ [] → depth l ≠ 0 := by
    intro l r heq hl hr
    have hpos := depth_pos_of_enclosed (by decide) h.reads.balanced heq hl hr
    omega
  have hcompact : Compact (.symbol ['('] :: (ts ++ [.symbol [')']])) :=
    fun l t r heq hl hdepth => absurd hdepth (hopen heq hl (List.cons_ne_nil _ _))
  refine ⟨Reads.loosen (.paren h.reads) (by decide) (by decide), fun level x hx => ?_, hcompact, ?_⟩
  · have hreading := hcompact.reading hx
    generalize hrow : Token.symbol ['('] :: (ts ++ [.symbol [')']]) = row at hreading
    cases hreading with
    | trailed _ hl =>
      exact absurd hl.balanced.closed (hopen hrow hl.nonempty (List.cons_ne_nil _ _))
    | negation => cases hrow
    | signed s => cases s <;> cases hrow
    | atom => simp at hrow
    | @paren ts' _ h' =>
      have hinner : ts = ts' := by simpa using hrow
      exact h.unique _ _ (hinner ▸ h')
  · rw [List.head?_cons]
    decide

theorem Means.trailed {e : Expression} (h : Means ts e) (trailer : Trailer) {w : String}
    (hw : w ∉ reserved) :
    Stands (.word w :: trailer.opening :: (ts ++ [trailer.closing]))
      (.trailed trailer (.name w) e) := by
  have hname : Reads .atom [.word w] (.name w) := .name hw
  have hnot : Token.word w ≠ notToken := by
    intro hword
    rw [notToken, Token.word.injEq] at hword
    exact hw (by simp [hword, reserved])
  -- in front of the end of the row, only the name has no open bracket
  have hopen : ∀ {l r : List Token}, .word w :: trailer.opening :: (ts ++ [trailer.closing]) = l ++
      r → l ≠ [] → r ≠ [] → depth l = 0 → l = [.word w] := by
    intro l r heq hl hr hdepth
    obtain ⟨a, l, rfl⟩ := List.exists_cons_of_ne_nil hl
    rw [List.cons_append, List.cons.injEq] at heq
    obtain ⟨rfl, heq⟩ := heq
    by_cases hl' : l = []
    · rw [hl']
    · have hpos := depth_pos_of_enclosed (by cases trailer <;> decide) h.reads.balanced heq hl' hr
      rw [depth, show (Token.word w).weight = 0 by simp [Token.weight]] at hdepth
      omega
  have hcompact : Compact (.word w :: trailer.opening :: (ts ++ [trailer.closing])) := by
    intro l t r heq hl hdepth
    rw [hopen heq hl (List.cons_ne_nil _ _) hdepth] at heq
    have ht : trailer.opening = t := by simp_all
    rw [← ht]
    cases trailer <;> decide
  refine ⟨(Reads.trailed trailer (hname.loosen (by decide) (by decide)) h.reads).loosen (by decide)
    (by decide), fun level x hx => ?_, hcompact, by simpa using hnot⟩
  have hreading := hcompact.reading hx
  generalize hrow : Token.word w :: trailer.opening :: (ts ++ [trailer.closing]) = row at hreading
  cases hreading with
  | @trailed trailer' l r base argument hl hr =>
    have hword := hopen hrow hl.nonempty (List.cons_ne_nil _ _) hl.balanced.closed
    subst hword
    obtain ⟨hopening, hclosing⟩ :
        trailer.opening = trailer'.opening ∧ ts ++ [trailer.closing] = r ++ [trailer'.closing] := by
      simpa using hrow
    have hsame : trailer = trailer' := by
      revert hopening
      cases trailer <;> cases trailer' <;> decide
    have hinner : ts = r := (List.append_inj' hclosing rfl).1
    have hbase : base = .name w := Option.some.inj (hl.atom?_eq.symm.trans hname.atom?_eq)
    have hargument : argument = e := h.unique _ _ (hinner ▸ hr)
    rw [hsame, hbase, hargument]
  | negation => exact absurd (by simp_all) hnot
  | signed s => cases s <;> cases hrow
  | atom => simp at hrow
  | paren => cases hrow

end PipelineLang.Python
