/-! Texts without the characters that would steer a terminal. -/

namespace PipelineLang

/-- How far a terminal is into a control sequence. -/
inductive ControlSequence where
  /-- In none: characters are shown. -/
  | outside
  | escape
  /-- Behind an escape and signs that call for a final character. -/
  | escapeSigns
  /-- Behind an escape and a bracket, up to the letter that is the command. -/
  | command
  /-- A command to the system, up to a bell. -/
  | systemCommand
  /-- The start of a device string, with nothing of its head yet. -/
  | deviceHead
  | deviceNumbers
  | deviceSigns
  /-- A string of any characters, up to its terminator. -/
  | string
deriving DecidableEq

namespace ControlSequence

private def within (first last : Nat) (c : Char) : Bool := first ≤ c.toNat && c.toNat ≤ last

def isSign (c : Char) : Bool := within 0x20 0x2F c

def isParameter (c : Char) : Bool := within 0x30 0x3F c

/-- Is this the letter or sign that ends a command? -/
def isFinal (c : Char) : Bool := within 0x40 0x7E c

/-- A string ends at the byte `9C`, even where it is one of several that encode a character. -/
def endsString (c : Char) : Bool := (String.utf8EncodeChar c).contains 0x9C

/-- Where the next character leads, apart from those that lead to one place from everywhere. -/
def advance (s : ControlSequence) (c : Char) : ControlSequence :=
  match s with
  | outside => outside
  | escape =>
    if isSign c then escapeSigns
    else if c = '[' then command
    else if c = ']' then systemCommand
    else if c = 'P' then deviceHead
    else if c = 'X' || c = '^' || c = '_' then string
    else if isParameter c || isFinal c then outside
    else escape
  | escapeSigns => if isParameter c || isFinal c then outside else escapeSigns
  | command => if isFinal c then outside else command
  | systemCommand => if c.toNat = 0x07 then outside else systemCommand
  | deviceHead =>
    if isSign c then deviceSigns
    else if isParameter c then deviceNumbers
    else if isFinal c then string
    else deviceHead
  | deviceNumbers =>
    if isSign c then deviceSigns
    else if within 0x3C 0x3F c || isFinal c then string
    else deviceNumbers
  | deviceSigns => if isParameter c || isFinal c then string else deviceSigns
  | string => if endsString c then outside else string

/-- Where the next character leads. Two controls cancel every sequence, and an escape begins one. -/
def next (s : ControlSequence) (c : Char) : ControlSequence :=
  if c.toNat = 0x18 || c.toNat = 0x1A then outside
  else if c.toNat = 0x1B then escape
  else s.advance c

/-- The controls that only move on: tab, line feed, form feed and carriage return. -/
def isBlankControl (c : Char) : Bool := c = '\t' || c = '\n' || c.toNat = 0x0C || c = '\r'

/-- Is the next character shown? Outside of sequences all are but the controls, and blank ones are
shown in a sequence as well, unless it holds a string. -/
def shows (s : ControlSequence) (c : Char) : Bool :=
  match s with
  | outside => isBlankControl c || (0x20 ≤ c.toNat && c.toNat ≠ 0x7F)
  | escape | escapeSigns | command => isBlankControl c
  | systemCommand | deviceHead | deviceNumbers | deviceSigns | string => false

/-- The characters of a text that are shown. After one that is, those behind it are shown too, up to
the next control. Only there an open sequence goes on, unless a character beyond ASCII has ended
it. -/
def shown (s : ControlSequence) (showing : Bool) : List Char → List Char
  | [] => []
  | c :: cs =>
    if showing && outside.shows c then
      c :: shown (if c.toNat < 0x80 then s else outside) true cs
    else if s.shows c then c :: shown (s.next c) true cs
    else shown (s.next c) false cs

end ControlSequence

/-- A text without control sequences and without controls, those apart that only move on. -/
def withoutControls (text : String) : String :=
  String.ofList (ControlSequence.outside.shown false text.toList)

end PipelineLang
