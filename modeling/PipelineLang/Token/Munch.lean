import PipelineLang.Token

/-! The longest piece of text that can be read at one place. -/

namespace PipelineLang

inductive LexicalFault where
  | illegal (c : Char)
  | outOfRange (numeral : String)
deriving DecidableEq

namespace LexicalFault

def message : LexicalFault → String
  | illegal c => "illegal character [" ++ c.toString ++ "]"
  | outOfRange numeral => "integer literal " ++ numeral ++ " out of range"

end LexicalFault

inductive Found where
  | blank
  | token (t : Token)
  | fault (f : LexicalFault)
deriving DecidableEq

/-- What is found at a place, and how many characters it takes beyond the first. -/
structure Munch where
  more : Nat
  found : Found

namespace Munch

def isBlank (c : Char) : Bool := c = ' ' || c = '\t' || c = '\r' || c = '\n'

def isWordStart (c : Char) : Bool := c.isAlpha || c = '_'

def isWordPart (c : Char) : Bool := c.isAlphanum || c = '_'

/-- The words that continue a dotted name, each behind a dot. -/
def dottedWords : List Char → List (List Char)
  | '.' :: c :: cs =>
    if isWordStart c then (c :: cs.takeWhile isWordPart) :: dottedWords (cs.dropWhile isWordPart)
    else []
  | _ => []
termination_by cs => cs.length
decreasing_by
  have := (List.dropWhile_sublist isWordPart (l := cs)).length_le
  simp only [List.length_cons]
  omega

/-- A single word: truth values in any case come before keywords, and those before names. -/
def plainWord (word : String) : Token :=
  if word.toLower = "true" then .constant (.boolean true)
  else if word.toLower = "false" then .constant (.boolean false)
  else match Keyword.ofText? word with
    | some k => .keyword k
    | none => .ident word

def joinDots : List (List Char) → List Char
  | [] => []
  | [word] => word
  | word :: words => word ++ '.' :: joinDots words

/-- The words at the front of a text, joined by dots. In front of a dot that leads to no further
word, a single word is a name, whatever it spells. -/
def word (c : Char) (cs : List Char) : Munch :=
  let head := c :: cs.takeWhile isWordPart
  let rest := cs.dropWhile isWordPart
  let tail := dottedWords rest
  let more := head.length - 1 + tail.foldr (fun w n => w.length + 1 + n) 0
  let token := match tail.getLast? with
    | none =>
      if rest.head? = some '.' then .ident (String.ofList head) else plainWord (String.ofList head)
    | some last =>
      .qualified (String.ofList (joinDots (head :: tail.dropLast))) (String.ofList last)
  ⟨more, .token token⟩

def digitsValue (ds : List Char) : Nat := ds.foldl (fun n d => 10 * n + (d.toNat - '0'.toNat)) 0

def exponent : List Char → Nat × Int
  | [] => (0, 0)
  | e :: cs =>
    if e = 'e' || e = 'E' then
      let (signed, negative, ds) := match cs with
        | '-' :: ds => (1, true, ds)
        | '+' :: ds => (1, false, ds)
        | ds => (0, false, ds)
      let digits := ds.takeWhile Char.isDigit
      if digits.isEmpty then (0, 0)
      else
        let value : Int := digitsValue digits
        (1 + signed + digits.length, if negative then -value else value)
    else (0, 0)

def integer (negative : Bool) (digits : List Char) : Found :=
  let value : Int := if negative then -(digitsValue digits : Int) else digitsValue digits
  if Constant.inRange value then .token (.constant (.integer value))
  else .fault (.outOfRange (String.ofList (if negative then '-' :: digits else digits)))

/-- A numeral without its sign, which begins with a digit: how long it is, and what it is. A
fraction needs a digit behind its point, and only a numeral with a fraction has an exponent. -/
def numeral (negative : Bool) (cs : List Char) : Nat × Found :=
  let whole := cs.takeWhile Char.isDigit
  let fraction := match cs.dropWhile Char.isDigit with
    | '.' :: rest => rest.takeWhile Char.isDigit
    | _ => []
  if fraction.isEmpty then (whole.length, integer negative whole)
  else
    let length := whole.length + 1 + fraction.length
    let (size, power) := exponent (cs.drop length)
    let value := Double.ofDecimal negative (digitsValue (whole ++ fraction))
      (power - fraction.length)
    (length + size, .token (.constant (.float value)))

/-- The body of a quoted text: how many characters it takes, and whether the closing quote is among
them. A backslash takes the next character along, unless that is a line feed. -/
def quotedBody : List Char → Nat × Bool
  | [] => (0, false)
  | '"' :: _ => (1, true)
  | '\\' :: c :: cs =>
    if c = '\n' then (0, false)
    else
      let (n, closed) := quotedBody cs
      (n + 2, closed)
  | ['\\'] => (0, false)
  | _ :: cs =>
    let (n, closed) := quotedBody cs
    (n + 1, closed)

def unescape : List Char → List Char
  | '\\' :: c :: cs =>
    (match c with
      | 'n' => '\n'
      | 't' => '\t'
      | 'r' => '\r'
      | c => c) :: unescape cs
  | c :: cs => c :: unescape cs
  | [] => []

def quoted (cs : List Char) : Munch :=
  let (n, closed) := quotedBody cs
  if closed then ⟨n, .token (.constant (.text (String.ofList (unescape (cs.take (n - 1))))))⟩
  else ⟨n, .fault (.illegal '"')⟩

def symbol (c : Char) (cs : List Char) : Munch :=
  match Symbol.leading? (c :: cs) with
  | some s => ⟨s.text.length - 1, .token (.symbol s)⟩
  | none => ⟨0, .fault (.illegal c)⟩

/-- The longest piece at the front of a text that begins with `c`. -/
def front (c : Char) (cs : List Char) : Munch :=
  if isBlank c then ⟨(cs.takeWhile isBlank).length, .blank⟩
  else if c = '#' then ⟨(cs.takeWhile (· != '\n')).length, .blank⟩
  else if isWordStart c then word c cs
  else if c = '"' then quoted cs
  else if c.isDigit then
    let (n, found) := numeral false (c :: cs)
    ⟨n - 1, found⟩
  else if c = '-' && (cs.head?.map Char.isDigit).getD false then
    let (n, found) := numeral true cs
    ⟨n, found⟩
  else symbol c cs

end Munch

end PipelineLang
