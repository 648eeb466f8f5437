import PipelineLang.Program
import PipelineLang.Token

/-! The grammar: which rows of tokens are phrases of each kind, and the tree that each of them
stands for. How phrases are read is not said here. -/

namespace PipelineLang

variable {α : Type}

def extent (ts : List Lexeme) : Span :=
  ⟨(ts.head?.map fun l => l.span.start).getD 0, (ts.getLast?.map fun l => l.span.stop).getD 0⟩

inductive Row (Item : List Lexeme → α → Prop) : List Lexeme → List α → Prop where
  | nil : Row Item [] []
  | cons {a : α} {as : List α} {ts ts' : List Lexeme} :
      Item ts a → Row Item ts' as → Row Item (ts ++ ts') (a :: as)

inductive CommaRow (Item : List Lexeme → α → Prop) : List Lexeme → List α → Prop where
  | single {a : α} {ts : List Lexeme} : Item ts a → CommaRow Item ts [a]
  | cons {a : α} {as : List α} {ts ts' : List Lexeme} {comma : Lexeme} :
      Item ts a → comma.token = .symbol .comma → CommaRow Item ts' as →
      CommaRow Item (ts ++ comma :: ts') (a :: as)

inductive Enclosed (Item : List Lexeme → α → Prop) : List Lexeme → α → Prop where
  | mk {a : α} {ts : List Lexeme} {opening closing : Lexeme} :
      opening.token = .symbol .openParen → Item ts a → closing.token = .symbol .closeParen →
      Enclosed Item (opening :: (ts ++ [closing])) a

inductive MaybeWord (word : Keyword) : List Lexeme → Prop where
  | absent : MaybeWord word []
  | present {l : Lexeme} : l.token = .keyword word → MaybeWord word [l]

inductive IdentPhrase : List Lexeme → Ident → Prop where
  | mk {l : Lexeme} {name : String} : l.token = .ident name → IdentPhrase [l] ⟨name, l.span⟩

inductive LiteralPhrase : List Lexeme → Literal → Prop where
  | mk {l : Lexeme} {value : Constant} : l.token = .constant value →
      LiteralPhrase [l] ⟨value, l.span⟩

inductive SourcePhrase : List Lexeme → Operand → Prop where
  | ident {ts : List Lexeme} {id : Ident} : IdentPhrase ts id → SourcePhrase ts (.ident id)
  | literal {ts : List Lexeme} {lit : Literal} : LiteralPhrase ts lit →
      SourcePhrase ts (.literal lit)

inductive OperandPhrase : List Lexeme → Operand → Prop where
  | source {ts : List Lexeme} {o : Operand} : SourcePhrase ts o → OperandPhrase ts o
  | state {mark : Lexeme} {ts : List Lexeme} {id : Ident} :
      mark.token = .symbol .stateMark → IdentPhrase ts id → OperandPhrase (mark :: ts) (.state id)

inductive MappingPhrase : List Lexeme → Mapping → Prop where
  | mk {ts ts' : List Lexeme} {sign : Lexeme} {source : Operand} {target : Ident} :
      SourcePhrase ts source → sign.token = .symbol .mapsTo → IdentPhrase ts' target →
      MappingPhrase (ts ++ sign :: ts') ⟨source, target, extent (ts ++ sign :: ts')⟩

namespace ConditionOp

def rank : ConditionOp → Nat
  | or => 8
  | and => 7
  | xor => 6
  | eq => 5
  | ne => 4
  | gt => 3
  | lt => 2
  | ge => 1
  | le => 0

def sign : ConditionOp → Token
  | or => .keyword .or
  | and => .keyword .and
  | xor => .keyword .xor
  | eq => .symbol .equal
  | ne => .symbol .notEqual
  | gt => .symbol .greater
  | lt => .symbol .less
  | ge => .symbol .atLeast
  | le => .symbol .atMost

end ConditionOp

/-- Conditions whose operators outside of parentheses have ranks below the given one. What an
operator joins to its left may hold the operator again, what it joins to its right may not. -/
inductive ConditionPhrase : Nat → List Lexeme → Condition → Prop where
  | operand {ts : List Lexeme} {o : Operand} : OperandPhrase ts o →
      ConditionPhrase 0 ts (.terminal o)
  | paren {opening closing : Lexeme} {ts : List Lexeme} {c : Condition} :
      opening.token = .symbol .openParen → ConditionPhrase 9 ts c →
      closing.token = .symbol .closeParen →
      ConditionPhrase 0 (opening :: (ts ++ [closing]))
        (.paren c (extent (opening :: (ts ++ [closing]))))
  | looser {n : Nat} {ts : List Lexeme} {c : Condition} :
      ConditionPhrase n ts c → ConditionPhrase (n + 1) ts c
  | joined {op : ConditionOp} {ts ts' : List Lexeme} {sign : Lexeme} {left right : Condition} :
      ConditionPhrase (op.rank + 1) ts left → sign.token = op.sign →
      ConditionPhrase op.rank ts' right →
      ConditionPhrase (op.rank + 1) (ts ++ sign :: ts')
        (.binary op left right (extent (ts ++ sign :: ts')))

inductive MergeSourcePhrase : List Lexeme → MergeSource → Prop where
  | top {word opening closing : Lexeme} {ts : List Lexeme} {id : Ident} :
      word.token = .keyword .top → opening.token = .symbol .openBracket → IdentPhrase ts id →
      closing.token = .symbol .closeBracket →
      MergeSourcePhrase (word :: opening :: (ts ++ [closing])) (.top id)
  | bottom {word opening closing : Lexeme} {ts : List Lexeme} {id : Ident} :
      word.token = .keyword .bottom → opening.token = .symbol .openBracket → IdentPhrase ts id →
      closing.token = .symbol .closeBracket →
      MergeSourcePhrase (word :: opening :: (ts ++ [closing])) (.bottom id)
  | literal {ts : List Lexeme} {lit : Literal} : LiteralPhrase ts lit →
      MergeSourcePhrase ts (.literal lit)

inductive MergeMappingPhrase : List Lexeme → MergeMapping → Prop where
  | mk {ts ts' : List Lexeme} {sign : Lexeme} {source : MergeSource} {target : Ident} :
      MergeSourcePhrase ts source → sign.token = .symbol .mapsTo → IdentPhrase ts' target →
      MergeMappingPhrase (ts ++ sign :: ts') ⟨source, target, extent (ts ++ sign :: ts')⟩

/-- Expressions by the operators that they may have outside of parentheses: none, `&&&`, also `***`,
and also `>>>`. -/
inductive ArrowLevel where
  | unary | scalar | tuple | expression

inductive ArrowPhrase : ArrowLevel → List Lexeme → Arrow → Prop where
  | first {word : Lexeme} {ts : List Lexeme} {e : Arrow} :
      word.token = .keyword .first → ArrowPhrase .unary ts e →
      ArrowPhrase .unary (word :: ts) (.first e (extent (word :: ts)))
  | second {word : Lexeme} {ts : List Lexeme} {e : Arrow} :
      word.token = .keyword .second → ArrowPhrase .unary ts e →
      ArrowPhrase .unary (word :: ts) (.second e (extent (word :: ts)))
  | split {word : Lexeme} : word.token = .keyword .split →
      ArrowPhrase .unary [word] (.split (extent [word]))
  | merge {word : Lexeme} {ts : List Lexeme} {entries : List MergeMapping} :
      word.token = .keyword .merge → CommaRow MergeMappingPhrase ts entries →
      ArrowPhrase .unary (word :: ts) (.merge entries (extent (word :: ts)))
  | wire {word : Lexeme} {ts : List Lexeme} {entries : List Mapping} :
      word.token = .keyword .wire → CommaRow MappingPhrase ts entries →
      ArrowPhrase .unary (word :: ts) (.wire entries (extent (word :: ts)))
  | wirePair {word comma : Lexeme} {ts ts' : List Lexeme} {top bottom : List Mapping} :
      word.token = .keyword .wire → Enclosed (CommaRow MappingPhrase) ts top →
      comma.token = .symbol .comma → Enclosed (CommaRow MappingPhrase) ts' bottom →
      ArrowPhrase .unary (word :: (ts ++ comma :: ts'))
        (.wirePair top bottom (extent (word :: (ts ++ comma :: ts'))))
  | choose {word : Lexeme} {ts ts₁ ts₂ ts₃ ts₄ : List Lexeme} {c : Condition}
      {onTrue onFalse : Arrow} :
      word.token = .keyword .ifTest → ConditionPhrase 9 ts c → MaybeWord .thenBranch ts₁ →
      ArrowPhrase .unary ts₂ onTrue → MaybeWord .elseBranch ts₃ → ArrowPhrase .unary ts₄ onFalse →
      ArrowPhrase .unary (word :: (ts ++ (ts₁ ++ (ts₂ ++ (ts₃ ++ ts₄)))))
        (.choose c onTrue onFalse (extent (word :: (ts ++ (ts₁ ++ (ts₂ ++ (ts₃ ++ ts₄)))))))
  | use {ts : List Lexeme} {id : Ident} :
      IdentPhrase ts id → ArrowPhrase .unary ts (.use id (extent ts))
  | paren {opening closing : Lexeme} {ts : List Lexeme} {e : Arrow} :
      opening.token = .symbol .openParen → ArrowPhrase .expression ts e →
      closing.token = .symbol .closeParen →
      ArrowPhrase .unary (opening :: (ts ++ [closing]))
        (.paren e (extent (opening :: (ts ++ [closing]))))
  | scalar {ts : List Lexeme} {e : Arrow} : ArrowPhrase .unary ts e → ArrowPhrase .scalar ts e
  | fanOut {ts ts' : List Lexeme} {sign : Lexeme} {left right : Arrow} :
      ArrowPhrase .scalar ts left → sign.token = .symbol .fanOut → ArrowPhrase .unary ts' right →
      ArrowPhrase .scalar (ts ++ sign :: ts') (.fanOut left right (extent (ts ++ sign :: ts')))
  | tuple {ts : List Lexeme} {e : Arrow} : ArrowPhrase .scalar ts e → ArrowPhrase .tuple ts e
  | pairUp {ts ts' : List Lexeme} {sign : Lexeme} {left right : Arrow} :
      ArrowPhrase .tuple ts left → sign.token = .symbol .pairUp → ArrowPhrase .scalar ts' right →
      ArrowPhrase .tuple (ts ++ sign :: ts') (.pairUp left right (extent (ts ++ sign :: ts')))
  | expression {ts : List Lexeme} {e : Arrow} : ArrowPhrase .tuple ts e →
      ArrowPhrase .expression ts e
  | compose {ts ts' : List Lexeme} {sign : Lexeme} {left right : Arrow} :
      ArrowPhrase .expression ts left → sign.token = .symbol .compose →
      ArrowPhrase .tuple ts' right →
      ArrowPhrase .expression (ts ++ sign :: ts') (.compose left right (extent (ts ++ sign :: ts')))

inductive ArgumentsPhrase : List Lexeme → List Operand → Prop where
  | none : ArgumentsPhrase [] []
  | some {ts : List Lexeme} {os : List Operand} : CommaRow OperandPhrase ts os →
      ArgumentsPhrase ts os

/-- A call. The dotted name is that of a function behind that of a package. -/
inductive CallPhrase : List Lexeme → Call → Prop where
  | mk {l : Lexeme} {qualifier name : String} {ts : List Lexeme} {arguments : List Operand} :
      l.token = .qualified qualifier name → Enclosed ArgumentsPhrase ts arguments →
      CallPhrase (l :: ts)
        ⟨⟨qualifier, l.span.start, l.span.start + qualifier.utf8ByteSize⟩,
          ⟨name, l.span.start + qualifier.utf8ByteSize + 1, l.span.stop⟩, arguments,
          extent (l :: ts)⟩

inductive AssigneePhrase : List Lexeme → Ident → Prop where
  | mk {ts : List Lexeme} {sign : Lexeme} {id : Ident} :
      IdentPhrase ts id → sign.token = .symbol .takesFrom → AssigneePhrase (ts ++ [sign]) id

inductive TargetPhrase : List Lexeme → Option Ident → Prop where
  | none : TargetPhrase [] none
  | some {ts : List Lexeme} {id : Ident} : AssigneePhrase ts id → TargetPhrase ts (some id)

inductive LetBindingPhrase : List Lexeme → LetBinding → Prop where
  | mk {ts ts' : List Lexeme} {target : Ident} {call : Call} :
      AssigneePhrase ts target → CallPhrase ts' call →
      LetBindingPhrase (ts ++ ts') ⟨target, call, extent (ts ++ ts')⟩

inductive BranchResultPhrase : List Lexeme → BranchResult → Prop where
  | unit {word opening closing : Lexeme} :
      word.token = .keyword .returnValue → opening.token = .symbol .openParen →
      closing.token = .symbol .closeParen →
      BranchResultPhrase [word, opening, closing] (.unit (extent [opening, closing]))
  | value {word : Lexeme} {ts : List Lexeme} {o : Operand} :
      word.token = .keyword .returnValue → OperandPhrase ts o →
      BranchResultPhrase (word :: ts) (.value o)

mutual

inductive CommandPhrase : List Lexeme → Command → Prop where
  | call {ts ts' : List Lexeme} {target : Option Ident} {c : Call} :
      TargetPhrase ts target → CallPhrase ts' c →
      CommandPhrase (ts ++ ts') (.call target c (extent (ts ++ ts')))
  | letIn {ts ts₁ ts₂ : List Lexeme} {target : Option Ident} {opening separator : Lexeme}
      {bindings : List LetBinding} {body : Call} :
      TargetPhrase ts target → opening.token = .keyword .letBind →
      Row LetBindingPhrase ts₁ bindings →
      bindings ≠ [] → separator.token = .keyword .inBody → CallPhrase ts₂ body →
      CommandPhrase (ts ++ opening :: (ts₁ ++ separator :: ts₂))
        (.letIn target bindings body (extent (ts ++ opening :: (ts₁ ++ separator :: ts₂))))
  | branch {ts ts₁ ts₂ ts₃ : List Lexeme} {target : Option Ident}
      {word onTrueWord onFalseWord closing : Lexeme} {c : Condition} {onTrue onFalse : Block} :
      TargetPhrase ts target → word.token = .keyword .ifTest → ConditionPhrase 9 ts₁ c →
      onTrueWord.token = .keyword .thenBranch → BlockPhrase ts₂ onTrue →
      onFalseWord.token = .keyword .elseBranch → BlockPhrase ts₃ onFalse →
      closing.token = .keyword .endIf →
      CommandPhrase (ts ++ word :: (ts₁ ++
        onTrueWord :: (ts₂ ++ onFalseWord :: (ts₃ ++ [closing])))) (.branch target c onTrue onFalse
          (extent (ts ++ word :: (ts₁ ++
            onTrueWord :: (ts₂ ++ onFalseWord :: (ts₃ ++ [closing]))))))

inductive BlockPhrase : List Lexeme → Block → Prop where
  | mk {ts ts' : List Lexeme} {commands : List Command} {result : BranchResult} :
      Row CommandPhrase ts commands → BranchResultPhrase ts' result →
      BlockPhrase (ts ++ ts') (.mk commands result (extent (ts ++ ts')))

end

inductive ReturnMappingPhrase : List Lexeme → ReturnMapping → Prop where
  | mk {ts ts' : List Lexeme} {target : Ident} {source : Operand} :
      AssigneePhrase ts target → OperandPhrase ts' source →
      ReturnMappingPhrase (ts ++ ts') ⟨target, source, extent (ts ++ ts')⟩

inductive DoBlockPhrase : List Lexeme → DoBlock → Prop where
  | mk {ts ts' : List Lexeme} {word : Lexeme} {commands : List Command}
      {returns : List ReturnMapping} :
      Row CommandPhrase ts commands → word.token = .keyword .returnValue →
      CommaRow ReturnMappingPhrase ts' returns →
      DoBlockPhrase (ts ++ word :: ts') ⟨commands, returns, word.span, extent (ts ++ word :: ts')⟩

inductive SignalClausePhrase : List Lexeme → SignalClause → Prop where
  | flat {ts : List Lexeme} {names : List Ident} :
      CommaRow IdentPhrase ts names → SignalClausePhrase ts (.flat names)
  | pair {ts ts' : List Lexeme} {comma : Lexeme} {top bottom : List Ident} :
      Enclosed (CommaRow IdentPhrase) ts top → comma.token = .symbol .comma →
      Enclosed (CommaRow IdentPhrase) ts' bottom →
      SignalClausePhrase (ts ++ comma :: ts') (.pair top bottom)

inductive WithPhrase : List Lexeme → Option (List Mapping) → Prop where
  | absent : WithPhrase [] none
  | present {word : Lexeme} {ts : List Lexeme} {settings : List Mapping} :
      word.token = .keyword .withMap → CommaRow MappingPhrase ts settings →
      WithPhrase (word :: ts) (some settings)

inductive DeclarationPhrase : List Lexeme → Declaration → Prop where
  | mk {ts ts₁ ts₂ : List Lexeme} {sign word : Lexeme} {name component : Ident}
      {withClause : Option (List Mapping)} :
      IdentPhrase ts name → sign.token = .symbol .assign → word.token = .keyword .new →
      IdentPhrase ts₁ component → WithPhrase ts₂ withClause →
      DeclarationPhrase (ts ++ sign :: word :: (ts₁ ++ ts₂))
        ⟨name, component, withClause, extent (ts ++ sign :: word :: (ts₁ ++ ts₂))⟩

inductive DeclarationsPhrase : List Lexeme → List Declaration → Prop where
  | absent : DeclarationsPhrase [] []
  | present {word : Lexeme} {ts : List Lexeme} {ds : List Declaration} :
      word.token = .keyword .declare → Row DeclarationPhrase ts ds → ds ≠ [] →
      DeclarationsPhrase (word :: ts) ds

inductive DefinitionPhrase : List Lexeme → List Declaration → Definition → Prop where
  | arrow {ts ts' : List Lexeme} {word : Lexeme} {ds : List Declaration} {e : Arrow} :
      DeclarationsPhrase ts ds → word.token = .keyword .aliasAs → ArrowPhrase .expression ts' e →
      DefinitionPhrase (ts ++ word :: ts') ds (.arrow e)
  | leaf {word : Lexeme} {ts : List Lexeme} {body : DoBlock} :
      word.token = .keyword .doBlock → DoBlockPhrase ts body →
      DefinitionPhrase (word :: ts) [] (.leaf body)

inductive ConfigurationPhrase : List Lexeme → List Ident → Prop where
  | absent : ConfigurationPhrase [] []
  | present {word : Lexeme} {ts : List Lexeme} {names : List Ident} :
      word.token = .keyword .configuration → CommaRow IdentPhrase ts names →
      ConfigurationPhrase (word :: ts) names

def componentTokens (word : Lexeme) (name : List Lexeme) (inputsWord : Lexeme)
    (inputs : List Lexeme) (outputsWord : Lexeme) (outputs configuration definition : List Lexeme) :
    List Lexeme :=
  word :: (name ++ inputsWord :: (inputs ++
      outputsWord :: (outputs ++ (configuration ++ definition))))

inductive ComponentPhrase : List Lexeme → Component → Prop where
  | mk {word inputsWord outputsWord : Lexeme} {ts ts₁ ts₂ ts₃ ts₄ : List Lexeme} {name : Ident}
      {inputs outputs : SignalClause} {configuration : List Ident} {declarations : List Declaration}
      {definition : Definition} :
      word.token = .keyword .component → IdentPhrase ts name → inputsWord.token = .keyword .inputs →
      SignalClausePhrase ts₁ inputs → outputsWord.token = .keyword .outputs →
      SignalClausePhrase ts₂ outputs →
      ConfigurationPhrase ts₃ configuration → DefinitionPhrase ts₄ declarations definition →
      ComponentPhrase (componentTokens word ts inputsWord ts₁ outputsWord ts₂ ts₃ ts₄)
        ⟨name, inputs, outputs, configuration, declarations, definition,
          extent (componentTokens word ts inputsWord ts₁ outputsWord ts₂ ts₃ ts₄)⟩

inductive ModulePathPhrase : List Lexeme → Ident → Prop where
  | plain {ts : List Lexeme} {id : Ident} : IdentPhrase ts id → ModulePathPhrase ts id
  | dotted {l : Lexeme} {qualifier name : String} :
      l.token = .qualified qualifier name → ModulePathPhrase [l] ⟨qualifier ++ "." ++ name, l.span⟩

inductive ImportPhrase : List Lexeme → Import → Prop where
  | mk {word aliasWord : Lexeme} {ts ts' : List Lexeme} {path localName : Ident} :
      word.token = .keyword .importModule → ModulePathPhrase ts path →
      aliasWord.token = .keyword .aliasAs → IdentPhrase ts' localName →
      ImportPhrase (word :: (ts ++ aliasWord :: ts'))
        ⟨path, localName, extent (word :: (ts ++ aliasWord :: ts'))⟩

inductive ProgramPhrase : List Lexeme → Program → Prop where
  | mk {ts ts' : List Lexeme} {imports : List Import} {component : Component} :
      Row ImportPhrase ts imports → ComponentPhrase ts' component →
      ProgramPhrase (ts ++ ts') ⟨imports, component, extent (ts ++ ts')⟩

end PipelineLang
