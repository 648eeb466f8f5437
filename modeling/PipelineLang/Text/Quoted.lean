import PipelineLang.Text.Hidden

/-! Texts between double quotes on one line, for people to read. -/

namespace PipelineLang

namespace Quoted

/-- A character by its code point. -/
def codePoint (c : Char) : List Char :=
  ['\\', 'u', Char.ofNat 0x7B] ++ Nat.toDigits 16 c.toNat ++ [Char.ofNat 0x7D]

/-- How a character is written between double quotes. A code point stands for each that could not be
seen there. -/
def char (c : Char) : List Char :=
  if c.toNat = 0 then ['\\', '0']
  else if c = '\t' then ['\\', 't']
  else if c = '\r' then ['\\', 'r']
  else if c = '\n' then ['\\', 'n']
  else if c = '"' || c = '\\' then ['\\', c]
  else if isHidden c then codePoint c
  else [c]

def text (s : String) : String := String.ofList ('"' :: s.toList.flatMap char ++ ['"'])

end Quoted

end PipelineLang
