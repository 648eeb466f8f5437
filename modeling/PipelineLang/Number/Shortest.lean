import PipelineLang.Number.Double

/-! The decimal numeral with the fewest digits that reads back to a given double. -/

namespace PipelineLang

/-- The value `0.d₁d₂… * 10 ^ point` for the decimal digits `d₁d₂…` of `digits`. -/
structure Decimal where
  digits : Nat
  point : Int
deriving DecidableEq

namespace Double

/-- The numbers that round to a positive value `value / unit`: those between `lower / unit` and
`upper / unit`, the ends included when `closed`. -/
structure RoundingInterval where
  lower : Nat
  value : Nat
  upper : Nat
  unit : Nat
  closed : Bool

def roundingInterval (d : Double) : RoundingInterval :=
  let m := d.significand
  let up := Nat.pow 2 (d.scale - 2).toNat
  let narrow := m = Nat.pow 2 52 ∧ d.magnitude ≠ Nat.pow 2 52
  { lower := (if narrow then 4 * m - 1 else 4 * m - 2) * up
    value := 4 * m * up
    upper := (4 * m + 2) * up
    unit := Nat.pow 2 (2 - d.scale).toNat
    closed := m % 2 = 0 }

namespace RoundingInterval

/-- Does `num / den` round to the value? -/
def covers (i : RoundingInterval) (num den : Nat) : Bool :=
  if i.closed then i.lower * den ≤ num * i.unit && num * i.unit ≤ i.upper * den
  else i.lower * den < num * i.unit && num * i.unit < i.upper * den

/-- The place of the leading digit: the value lies in `[10 ^ (p - 1), 10 ^ p)`. -/
def point (i : RoundingInterval) : Int :=
  (Nat.toDigits 10 (i.value * Nat.pow 10 400 / i.unit)).length - 400

/-- The multiple of `10 ^ (p - n)` next to the value that rounds to it, if there is one; of two the
nearer, and the larger when both are equally near. -/
def onGrid (i : RoundingInterval) (p : Int) (n : Nat) : Option Nat :=
  let grid := p - n
  let tens := Nat.pow 10 grid.toNat
  let tenths := Nat.pow 10 (-grid).toNat
  let below := i.value * tenths / (i.unit * tens)
  let above := below + 1
  let low := i.covers (below * tens) tenths
  let high := i.covers (above * tens) tenths
  let nearerBelow := 2 * (i.value * tenths) < (2 * below + 1) * (i.unit * tens)
  if low && (nearerBelow || !high) then some below
  else if high then some above
  else none

/-- The numeral of `n` digits, where one fits. A round one may have carried into one place more. -/
def numeral? (i : RoundingInterval) (p : Int) (n : Nat) : Option Decimal :=
  (i.onGrid p n).map fun digits =>
    if digits = Nat.pow 10 n then ⟨1, p + 1⟩ else ⟨digits, p⟩

end RoundingInterval

/-- Seventeen digits suffice for every finite value that is not zero. -/
def shortest (d : Double) : Decimal :=
  let i := d.roundingInterval
  ((List.range 17).findSome? fun n => i.numeral? i.point (n + 1)).getD ⟨0, 1⟩

end Double

end PipelineLang
