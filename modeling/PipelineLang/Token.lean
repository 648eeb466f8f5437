import PipelineLang.Constant
import PipelineLang.Text.Span

/-! The words and signs of which a program consists. -/

namespace PipelineLang

inductive Keyword where
  | component | inputs | outputs | configuration | declare | new | withMap | aliasAs | importModule
  | wire | merge | split | first | second | top | bottom
  | doBlock | ifTest | thenBranch | elseBranch | endIf | letBind | inBody | returnValue
  | and | or | xor
deriving DecidableEq

namespace Keyword

def text : Keyword → String
  | component => "component"
  | inputs => "inputs"
  | outputs => "outputs"
  | configuration => "configuration"
  | declare => "declare"
  | new => "new"
  | withMap => "with"
  | aliasAs => "as"
  | importModule => "import"
  | wire => "wire"
  | merge => "merge"
  | split => "split"
  | first => "first"
  | second => "second"
  | top => "top"
  | bottom => "bottom"
  | doBlock => "do"
  | ifTest => "if"
  | thenBranch => "then"
  | elseBranch => "else"
  | endIf => "endif"
  | letBind => "let"
  | inBody => "in"
  | returnValue => "return"
  | and => "and"
  | or => "or"
  | xor => "xor"

def all : List Keyword :=
  [component, inputs, outputs, configuration, declare, new, withMap, aliasAs, importModule,
   wire, merge, split, first, second, top, bottom,
   doBlock, ifTest, thenBranch, elseBranch, endIf, letBind, inBody, returnValue, and, or, xor]

/-- Signal clauses may also be opened by the singular. -/
def ofText? (word : String) : Option Keyword :=
  if word = "input" then some inputs
  else if word = "output" then some outputs
  else all.find? fun k => k.text = word

end Keyword

inductive Symbol where
  | assign | mapsTo | takesFrom | compose | pairUp | fanOut
  | equal | notEqual | atLeast | atMost | greater | less
  | comma | openParen | closeParen | openBracket | closeBracket | stateMark
deriving DecidableEq

namespace Symbol

def text : Symbol → String
  | assign => ":="
  | mapsTo => "->"
  | takesFrom => "<-"
  | compose => ">>>"
  | pairUp => "***"
  | fanOut => "&&&"
  | equal => "=="
  | notEqual => "!="
  | atLeast => ">="
  | atMost => "<="
  | greater => ">"
  | less => "<"
  | comma => ","
  | openParen => "("
  | closeParen => ")"
  | openBracket => "["
  | closeBracket => "]"
  | stateMark => "@"

def all : List Symbol :=
  [compose, pairUp, fanOut, assign, mapsTo, takesFrom, equal, notEqual, atLeast, atMost,
   greater, less, comma, openParen, closeParen, openBracket, closeBracket, stateMark]

def leading? (cs : List Char) : Option Symbol := all.find? fun s => s.text.toList.isPrefixOf cs

end Symbol

inductive Token where
  | keyword (word : Keyword)
  | symbol (sign : Symbol)
  | constant (value : Constant)
  | ident (name : String)
  /-- A dotted name, cut at its last dot. -/
  | qualified (qualifier name : String)
deriving DecidableEq

namespace Token

def describe : Token → String
  | keyword word => word.text
  | symbol sign => sign.text
  | constant (.float x) => NumeralStyle.plain.text x
  | constant value => value.describe
  | ident _ => "<identifier>"
  | qualified _ _ => "<qualified identifier>"

end Token

/-- A token where it stands, with the text that spells it. -/
structure Lexeme where
  token : Token
  text : String
  span : Span
deriving DecidableEq

end PipelineLang
