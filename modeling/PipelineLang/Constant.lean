import PipelineLang.Number.Style

/-! The constants that a program can write. -/

namespace PipelineLang

inductive Constant where
  | integer (value : Int)
  | float (value : Double)
  | text (value : String)
  | boolean (value : Bool)
deriving DecidableEq, Inhabited

namespace Constant

/-- The integers that may be written: those of 64 bits. -/
def inRange (n : Int) : Bool := -9223372036854775808 ≤ n && n ≤ 9223372036854775807

def booleanText (b : Bool) : String := if b then "True" else "False"

/-- The constant as a message names it; a text stands between quotes as it is. -/
def describe : Constant → String
  | integer n => NumeralStyle.integerText n
  | float x => NumeralStyle.literal.text x
  | text s => "\"" ++ s ++ "\""
  | boolean b => booleanText b

end Constant

end PipelineLang
