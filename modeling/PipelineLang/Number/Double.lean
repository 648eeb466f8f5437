/-! Double precision values by their bits, and how decimal numerals round to them. -/

namespace PipelineLang

/-- A sign and the 63 bits below it. Read as a number, `magnitude` orders the absolute values; from
`Double.infinity` on come infinity and the values that are no numbers. -/
structure Double where
  negative : Bool
  magnitude : Nat
deriving DecidableEq, Inhabited

namespace Double

def infiniteMagnitude : Nat := 2047 * Nat.pow 2 52

def isInfinite (d : Double) : Bool := d.magnitude == infiniteMagnitude

def isNumber (d : Double) : Bool := d.magnitude ≤ infiniteMagnitude

def ofBits (bits : Nat) : Double := ⟨bits / Nat.pow 2 63 % 2 == 1, bits % Nat.pow 2 63⟩

/-- A finite value is `significand * 2 ^ scale`. -/
def significand (d : Double) : Nat :=
  if d.magnitude < Nat.pow 2 52 then d.magnitude
  else d.magnitude % Nat.pow 2 52 + Nat.pow 2 52

def scale (d : Double) : Int :=
  if d.magnitude < Nat.pow 2 52 then -1074 else (d.magnitude / Nat.pow 2 52 : Nat) - 1075

/-- The natural number nearest to a quotient, the even one when two are equally near. -/
def roundToEven (num den : Nat) : Nat :=
  let q := num / den
  let r := num % den
  if 2 * r < den then q
  else if den < 2 * r then q + 1
  else if q % 2 = 0 then q else q + 1

/-- The magnitude nearest to `num / den`. A scale is chosen that leaves 53 binary digits of the
quotient, or fewer where no smaller scale exists; a carry out of the significand moves on to the
next scale by itself. -/
def nearestMagnitude (num den : Nat) : Nat :=
  let low : Int := max ((Nat.log2 num : Int) - Nat.log2 den - 53) (-1074)
  let quotientAt (s : Int) : Nat × Nat := (num * Nat.pow 2 (-s).toNat, den * Nat.pow 2 s.toNat)
  let (n, d) := quotientAt low
  let s := if n / d < Nat.pow 2 53 then low else low + 1
  let (n, d) := quotientAt s
  min ((s + 1074).toNat * Nat.pow 2 52 + roundToEven n d) infiniteMagnitude

/-- The value nearest to `digits * 10 ^ exponent`. Numerals above `10 ^ 309` are infinite and those
below `10 ^ (-330)` are zero, whatever their digits. -/
def ofDecimal (negative : Bool) (digits : Nat) (exponent : Int) : Double :=
  let length : Int := (Nat.toDigits 10 digits).length
  let magnitude :=
    if digits = 0 then 0
    else if 310 < length + exponent then infiniteMagnitude
    else if length + exponent < -330 then 0
    else nearestMagnitude (digits * Nat.pow 10 exponent.toNat) (Nat.pow 10 (-exponent).toNat)
  ⟨negative, magnitude⟩

end Double

end PipelineLang
