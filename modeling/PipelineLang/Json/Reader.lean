import PipelineLang.Json.Value

/-! Reading JSON strictly: one value, blanks around it, and nothing else. -/

namespace PipelineLang

namespace Json

inductive Mark where
  | openArray | closeArray | openObject | closeObject | comma | colon
  | value (v : Json)
deriving Inhabited

def hexValue? (c : Char) : Option Nat :=
  if c.isDigit then some (c.toNat - '0'.toNat)
  else if 'a' ≤ c && c ≤ 'f' then some (c.toNat - 'a'.toNat + 10)
  else if 'A' ≤ c && c ≤ 'F' then some (c.toNat - 'A'.toNat + 10)
  else none

def codeUnit? (a b c d : Char) : Option Nat := do
  return (((← hexValue? a) * 16 + (← hexValue? b)) * 16 + (← hexValue? c)) * 16 + (← hexValue? d)

def escaped? (c : Char) : Option Nat :=
  if c = '"' || c = '\\' || c = '/' then some c.toNat
  else if c = 'b' then some 8
  else if c = 'f' then some 12
  else if c = 'n' then some 10
  else if c = 'r' then some 13
  else if c = 't' then some 9
  else none

/-- The body of a text up to its closing quote: how many characters it takes, quote included, and
its code units. -/
def textBody : List Char → Option (Nat × List Nat)
  | '"' :: _ => some (1, [])
  | '\\' :: 'u' :: a :: b :: c :: d :: cs => do
    let unit ← codeUnit? a b c d
    let (n, units) ← textBody cs
    return (n + 6, unit :: units)
  | '\\' :: c :: cs => do
    let unit ← escaped? c
    let (n, units) ← textBody cs
    return (n + 2, unit :: units)
  | c :: cs =>
    if c.toNat < 32 then none
    else do
      let (n, units) ← textBody cs
      return (n + 1, c.toNat :: units)
  | [] => none

/-- Joins the halves of characters beyond the first plane; a half alone is refused. -/
def joinUnits : List Nat → Option (List Char)
  | [] => some []
  | u :: us =>
    if 0xD800 ≤ u ∧ u < 0xDC00 then
      match us with
      | v :: rest =>
        if 0xDC00 ≤ v ∧ v < 0xE000 then
          (joinUnits rest).map (Char.ofNat (0x10000 + (u - 0xD800) * 0x400 + (v - 0xDC00)) :: ·)
        else none
      | [] => none
    else if 0xDC00 ≤ u ∧ u < 0xE000 then none
    else (joinUnits us).map (Char.ofNat u :: ·)

def digitRun (cs : List Char) : Nat := (cs.takeWhile Char.isDigit).length

/-- The length of the numeral at the front: no needless zero before, digits on both sides of a point
and in an exponent. -/
def numeralLength (cs : List Char) : Option Nat := do
  let sign := if cs.head? = some '-' then 1 else 0
  let afterSign := cs.drop sign
  let whole := digitRun afterSign
  if whole = 0 || (whole > 1 && afterSign.head? = some '0') then none
  let afterWhole := afterSign.drop whole
  let fraction ← if afterWhole.head? = some '.' then
      let n := digitRun (afterWhole.drop 1)
      if n = 0 then none else some (n + 1)
    else some 0
  let afterFraction := afterWhole.drop fraction
  let power ← match afterFraction with
    | e :: rest =>
      if e = 'e' || e = 'E' then
        let signed := if rest.head? = some '-' || rest.head? = some '+' then 1 else 0
        let n := digitRun (rest.drop signed)
        if n = 0 then none else some (1 + signed + n)
      else some 0
    | [] => some 0
  return sign + whole + fraction + power

def keywords : List (String × Json) :=
  [("true", boolean true), ("false", boolean false), ("null", null)]

/-- The mark at the front of a text that begins with `c`, and its length beyond the first
character. -/
def mark? (c : Char) (cs : List Char) : Option (Mark × Nat) :=
  if c = '[' then some (.openArray, 0)
  else if c = ']' then some (.closeArray, 0)
  else if c.toNat = 0x7B then some (.openObject, 0)
  else if c.toNat = 0x7D then some (.closeObject, 0)
  else if c = ',' then some (.comma, 0)
  else if c = ':' then some (.colon, 0)
  else if c = '"' then do
    let (n, units) ← textBody cs
    let v := match joinUnits units with
      | some chars => string (String.ofList chars)
      | none => unreadable
    return (.value v, n)
  else match keywords.find? fun w => w.1.toList.isPrefixOf (c :: cs) with
    | some (word, v) => some (.value v, word.length - 1)
    | none => do
      let n ← numeralLength (c :: cs)
      return (.value (number (String.ofList ((c :: cs).take n))), n - 1)

def isJsonBlank (c : Char) : Bool := c = ' ' || c = '\n' || c = '\t' || c = '\r'

def marks : List Char → Option (List Mark)
  | [] => some []
  | c :: cs =>
    if isJsonBlank c then marks cs
    else
      match mark? c cs with
      | some (m, n) => (marks (cs.drop n)).map (m :: ·)
      | none => none
termination_by cs => cs.length
decreasing_by
  · simp
  · simp only [List.length_drop, List.length_cons]
    omega

/-- A container that is still open, its finished items in reverse. -/
inductive Frame where
  | array (items : List Json)
  | object (fields : List (Json × Json)) (key : Json)

inductive Expecting where
  | value
  | itemOrClose
  | key
  | keyOrClose
  | colon
  | separator

/-- The open containers, innermost first, and what may come next; or the finished value. -/
inductive Reading where
  | open (frames : List Frame) (next : Expecting)
  | done (v : Json)

def keyText? : Json → Option String
  | string s => some s
  | _ => none

def closeFields (fields : List (Json × Json)) : Json :=
  match fields.reverse.mapM fun f => (keyText? f.1).map fun k => (k, f.2) with
  | some fields => object fields
  | none => unreadable

/-- Adds a finished value to the innermost open container. -/
def Reading.supply (v : Json) : List Frame → Reading
  | [] => .done v
  | .array items :: frames => .open (.array (v :: items) :: frames) .separator
  | .object fields key :: frames => .open (.object ((key, v) :: fields) null :: frames) .separator

def Reading.step (m : Mark) : Reading → Option Reading
  | .done _ => none
  | .open frames .value => value m frames
  | .open frames .itemOrClose =>
    match m, frames with
    | .closeArray, .array items :: frames => some (supply (.array items.reverse) frames)
    | m, frames => value m frames
  | .open frames .key => key m frames
  | .open frames .keyOrClose =>
    match m, frames with
    | .closeObject, .object fields _ :: frames => some (supply (closeFields fields) frames)
    | m, frames => key m frames
  | .open frames .colon =>
    match m with
    | .colon => some (.open frames .value)
    | _ => none
  | .open frames .separator =>
    match m, frames with
    | .comma, .array items :: frames => some (.open (.array items :: frames) .value)
    | .comma, .object fields k :: frames => some (.open (.object fields k :: frames) .key)
    | .closeArray, .array items :: frames => some (supply (.array items.reverse) frames)
    | .closeObject, .object fields _ :: frames => some (supply (closeFields fields) frames)
    | _, _ => none
where
  value (m : Mark) (frames : List Frame) : Option Reading :=
    match m with
    | .value v => some (supply v frames)
    | .openArray => some (.open (.array [] :: frames) .itemOrClose)
    | .openObject => some (.open (.object [] null :: frames) .keyOrClose)
    | _ => none
  key (m : Mark) (frames : List Frame) : Option Reading :=
    match m, frames with
    | .value k, .object fields _ :: frames =>
      match k with
      | .string _ | .unreadable => some (.open (.object fields k :: frames) .colon)
      | _ => none
    | _, _ => none

def read? (text : String) : Option Json := do
  let ms ← marks text.toList
  match ← ms.foldlM (fun r m => r.step m) (Reading.open [] .value) with
  | .done v => some v
  | .open _ _ => none

end Json

end PipelineLang
