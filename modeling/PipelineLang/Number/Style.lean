import PipelineLang.Number.Shortest

/-! Texts of doubles: the shortest digits, laid out by a style. -/

namespace PipelineLang

structure NumeralStyle where
  /-- Is a fraction written even when it is zero? -/
  wholeFraction : Bool
  /-- Is a value whose leading digit stands at place `point` written with an exponent? -/
  withExponent : (point : Int) → Bool

namespace NumeralStyle

/-- Plain digits with a fraction between `10 ^ (-4)` and `10 ^ 16`, and an exponent beyond. -/
def literal : NumeralStyle := ⟨true, fun point => point < -3 || 16 < point⟩

/-- Plain digits always, with a fraction only where there is one. -/
def plain : NumeralStyle := ⟨false, fun _ => false⟩

def decimalDigits (n : Nat) : String := String.ofList (Nat.toDigits 10 n)

def integerText (n : Int) : String :=
  if n < 0 then "-" ++ decimalDigits n.natAbs else decimalDigits n.natAbs

private def zeros (n : Nat) : List Char := List.replicate n '0'

/-- The digits with a point behind the first of them, and the exponent. -/
private def scientific (digits : List Char) (point : Int) : List Char :=
  let fraction := digits.drop 1
  digits.take 1 ++ (if fraction.isEmpty then [] else '.' :: fraction)
    ++ 'e' :: (integerText (point - 1)).toList

private def positional (style : NumeralStyle) (digits : List Char) (point : Int) : List Char :=
  let whole :=
    if point ≤ 0 then ['0'] else digits.take point.toNat ++ zeros (point.toNat - digits.length)
  let fraction := if point ≤ 0 then zeros (-point).toNat ++ digits else digits.drop point.toNat
  if fraction.isEmpty then whole ++ (if style.wholeFraction then ['.', '0'] else [])
  else whole ++ '.' :: fraction

def unsigned (style : NumeralStyle) (d : Double) : List Char :=
  if d.magnitude = 0 then style.positional ['0'] 1
  else
    let decimal := d.shortest
    let digits := Nat.toDigits 10 decimal.digits
    if style.withExponent decimal.point then scientific digits decimal.point
    else style.positional digits decimal.point

def text (style : NumeralStyle) (d : Double) : String :=
  if !d.isNumber then "NaN"
  else
    let sign := if d.negative then "-" else ""
    sign ++ if d.isInfinite then "inf" else String.ofList (style.unsigned d)

end NumeralStyle

end PipelineLang
