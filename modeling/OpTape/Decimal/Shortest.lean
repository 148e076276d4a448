/-
  Shortest decimal digits. A number that stands for an interval of reals, such as a rounded
  one, is written with as few digits as an interval point can have, and among the points with
  that many digits as the one nearest to the number. All arithmetic is exact.
-/
namespace OpTape.Decimal

/-- The number `digits · 10 ^ exponent`. -/
structure Scientific where
  digits : Nat
  exponent : Int
  deriving DecidableEq

/-- A positive number `middle / den` and the ends of the interval it stands for, over the same
denominator. -/
structure Interval where
  low : Nat
  middle : Nat
  high : Nat
  den : Nat
  /-- The ends belong to the interval. -/
  closed : Bool

namespace Interval

/-- The step `10 ^ exponent` of a decimal grid, as a fraction. -/
def gridNum (exponent : Int) : Nat := Nat.pow 10 exponent.toNat

def gridDen (exponent : Int) : Nat := Nat.pow 10 (-exponent).toNat

/-- The grid point `d · 10 ^ exponent` lies in the interval. -/
def Contains (x : Interval) (d : Nat) (exponent : Int) : Prop :=
  let point := d * gridNum exponent * x.den
  let low := x.low * gridDen exponent
  let high := x.high * gridDen exponent
  if x.closed then low ≤ point ∧ point ≤ high else low < point ∧ point < high

instance (x : Interval) (d : Nat) (exponent : Int) : Decidable (x.Contains d exponent) := by
  unfold Contains; exact inferInstanceAs (Decidable (ite _ _ _))

/-- The last grid point that is not above the middle. -/
def gridFloor (x : Interval) (exponent : Int) : Nat :=
  x.middle * gridDen exponent / (gridNum exponent * x.den)

/-- The middle is strictly closer to grid point `d` than to its successor. -/
def Closer (x : Interval) (d : Nat) (exponent : Int) : Prop :=
  2 * (x.middle * gridDen exponent) < (2 * d + 1) * (gridNum exponent * x.den)

instance (x : Interval) (d : Nat) (exponent : Int) : Decidable (x.Closer d exponent) :=
  inferInstanceAs (Decidable (_ < _))

/-- The point of the grid that lies in the interval, nearest to the middle; of two equally
near ones, the upper. -/
def onGrid? (x : Interval) (exponent : Int) : Option Scientific :=
  let d := x.gridFloor exponent
  match decide (x.Contains d exponent), decide (x.Contains (d + 1) exponent) with
  | true, true => some ⟨if x.Closer d exponent then d else d + 1, exponent⟩
  | true, false => some ⟨d, exponent⟩
  | false, true => some ⟨d + 1, exponent⟩
  | false, false => none

/-- The number of decimal digits of a natural number. -/
def digitCount (n : Nat) : Nat := (toString n).length

/-- The least `k` with the middle below `10 ^ k`. From one on, that is the number of digits
before the point. Below one, `middle / den < 10 ^ (-j)` says that the whole part of
`(den - 1) / middle` is at least `10 ^ j`. -/
def order (x : Interval) : Int :=
  if x.den ≤ x.middle then digitCount (x.middle / x.den)
  else 1 - digitCount ((x.den - 1) / x.middle)

/-- The shortest digits of the interval, trying one digit, then two, and so on up to `limit`. -/
def shortest (x : Interval) (limit : Nat) : Option Scientific :=
  let k := x.order
  (List.range limit).findSome? fun (n : Nat) => x.onGrid? (k - (n + 1))

end Interval

namespace Scientific

def zeros (n : Nat) : String := "".pushn '0' n

/-- The same number without the zero that rounding up to the next power of ten leaves. -/
def trim (s : Scientific) : Scientific := if s.digits = 10 then ⟨1, s.exponent + 1⟩ else s

/-- The digits with the point at its place and no exponent. -/
def positional (s : Scientific) : String :=
  let text := toString s.digits
  if 0 ≤ s.exponent then text ++ zeros s.exponent.toNat
  else
    let places := (-s.exponent).toNat
    if places < text.length then
      let whole := text.length - places
      String.ofList (text.toList.take whole) ++ "." ++ String.ofList (text.toList.drop whole)
    else "0." ++ zeros (places - text.length) ++ text

end Scientific

end OpTape.Decimal
