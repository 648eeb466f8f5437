import PipelineLang.Program

/-! Python texts of constants, lists and dictionaries. -/

namespace PipelineLang

namespace Target

/-- The characters of a quoted text; what would end it or its line is escaped. -/
def escapeChar (c : Char) : List Char :=
  if c = '\\' then ['\\', '\\']
  else if c = '\'' then ['\\', '\'']
  else if c = '\n' then ['\\', 'n']
  else if c = '\t' then ['\\', 't']
  else if c = '\r' then ['\\', 'r']
  else [c]

def quoteChars (cs : List Char) : List Char := '\'' :: (cs.flatMap escapeChar ++ ['\''])

def quote (s : String) : String := String.ofList (quoteChars s.toList)

def constant : Constant → String
  | .integer n => NumeralStyle.integerText n
  | .float x => NumeralStyle.literal.text x
  | .text s => quote s
  | .boolean b => Constant.booleanText b

def commaList (items : List String) : String := ", ".intercalate items

def list (names : List String) : String := "[" ++ commaList (names.map quote) ++ "]"

def signalList : SignalClause → String
  | .flat names => list (names.map Ident.name)
  | .pair top bottom =>
    "(" ++ list (top.map Ident.name) ++ ", " ++ list (bottom.map Ident.name) ++ ")"

abbrev DictEntry : Type := String × String

def dictEntry (e : DictEntry) : String := quote e.1 ++ " : " ++ e.2

def dictionary (entries : List DictEntry) : String :=
  "\x7b" ++ commaList (entries.map dictEntry) ++ "\x7d"

def lookup (dict key : String) : String := dict ++ "[" ++ quote key ++ "]"

/-- The name under which an imported module is known in generated code. -/
def moduleName (localName : String) : String := "____" ++ localName

def opText : ConditionOp → String
  | .xor => "^"
  | op => op.text

/-- Operands always stand in parentheses, so that no precedence matters. -/
def binary (op : ConditionOp) (left right : String) : String :=
  if op = .xor then "(bool(" ++ left ++ ") ^ bool(" ++ right ++ "))"
  else "(" ++ left ++ " " ++ opText op ++ " " ++ right ++ ")"

end Target

end PipelineLang
