/-! JSON values, and their compact and indented texts. -/

namespace PipelineLang

/-- A JSON value. A number keeps the text that spells it. -/
inductive Json where
  | null
  | boolean (value : Bool)
  | number (numeral : String)
  | string (value : String)
  | array (items : List Json)
  | object (fields : List (String × Json))
  /-- A text or object that is well formed, but in which an escape names half a character. -/
  | unreadable
deriving Inhabited

namespace Json

def hexDigits (n : Nat) : List Char :=
  let ds := Nat.toDigits 16 n
  List.replicate (4 - ds.length) '0' ++ ds

/-- Quotes, backslashes and control characters are escaped; all else stands for itself. -/
def escapeChar (c : Char) : List Char :=
  if c = '"' then ['\\', '"']
  else if c = '\\' then ['\\', '\\']
  else if c = '\n' then ['\\', 'n']
  else if c = '\r' then ['\\', 'r']
  else if c = '\t' then ['\\', 't']
  else if c.toNat = 8 then ['\\', 'b']
  else if c.toNat = 12 then ['\\', 'f']
  else if c.toNat < 32 then '\\' :: 'u' :: hexDigits c.toNat
  else [c]

def quote (s : String) : String := "\"" ++ String.ofList (s.toList.flatMap escapeChar) ++ "\""

mutual

def compact : Json → String
  | null => "null"
  | boolean b => if b then "true" else "false"
  | number numeral => numeral
  | string s => quote s
  | array items => "[" ++ ",".intercalate (compactItems items) ++ "]"
  | object fields => "\x7b" ++ ",".intercalate (compactFields fields) ++ "\x7d"
  | unreadable => "null"

def compactItems : List Json → List String
  | [] => []
  | v :: vs => v.compact :: compactItems vs

def compactFields : List (String × Json) → List String
  | [] => []
  | (k, v) :: fields => (quote k ++ ":" ++ v.compact) :: compactFields fields

end

def block (opening closing margin : String) (lines : List String) : String :=
  if lines.isEmpty then opening ++ closing
  else
    let inner := margin ++ "  "
    opening ++ "\n" ++ inner ++ (",\n" ++ inner).intercalate lines ++ "\n" ++ margin ++ closing

mutual

/-- The value with one item to a line, items two blanks deeper than `margin`. -/
def indented (margin : String) : Json → String
  | array items => block "[" "]" margin (indentedItems (margin ++ "  ") items)
  | object fields => block "\x7b" "\x7d" margin (indentedFields (margin ++ "  ") fields)
  | v => v.compact

def indentedItems (margin : String) : List Json → List String
  | [] => []
  | v :: vs => v.indented margin :: indentedItems margin vs

def indentedFields (margin : String) : List (String × Json) → List String
  | [] => []
  | (k, v) :: fields => (quote k ++ ": " ++ v.indented margin) :: indentedFields margin fields

end

def pretty (v : Json) : String := v.indented ""

def ofOption {α : Type} (f : α → Json) : Option α → Json
  | none => null
  | some a => f a

def ofNat (n : Nat) : Json := number (String.ofList (Nat.toDigits 10 n))

def field? (name : String) : Json → Option Json
  | object fields => (fields.reverse.find? fun f => f.1 = name).map Prod.snd
  | _ => none

end Json

end PipelineLang
