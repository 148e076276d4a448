/-
  The exponential less one and the logarithm of one plus a number, for numbers near zero, where
  the plain formulas lose their digits. Both take a multiple of the logarithm of two out first
  and evaluate a fixed approximation on the small rest, so the last bits are fixed as well: the
  operations and their order are part of the definition.
-/
namespace OpTape.Binary64.Exponential

/-- The leading bits of the logarithm of two. Their product with the power of a double is
exact. -/
def ln2High : Float := .ofBits 0x3fe62e42fee00000

/-- What the leading bits leave of the logarithm of two. -/
def ln2Low : Float := .ofBits 0x3dea39ef35793c76

def ln2Inverse : Float := .ofBits 0x3ff71547652b82fe

/-- The exponential of a larger number overflows. -/
def expLimit : Float := .ofBits 0x40862e42fefa39ef

/-- Below this magnitude a number is its own exponential less one, and its own logarithm of one
plus it. -/
def negligible : Float := .ofBits 0x3c90000000000000

/-- An argument of the exponential as a multiple of the logarithm of two and a rest. -/
structure Reduced where
  power : Int
  rest : Float
  /-- What `rest` lost to rounding. -/
  lost : Float

/-- The whole number nearest to `x` over the logarithm of two. -/
def powerOf (x : Float) : Int :=
  if x.abs < .ofBits 0x3fd62e4300000000 then 0
  else if x.abs < .ofBits 0x3ff0a2b200000000 then if 0 < x then 1 else -1
  else (ln2Inverse * x + if 0 < x then 0.5 else -0.5).toInt64.toInt

def reduce (x : Float) : Reduced :=
  let power := powerOf x
  if power = 0 then ⟨0, x, 0⟩
  else
    let high := x - Float.ofInt power * ln2High
    let low := Float.ofInt power * ln2Low
    let rest := high - low
    ⟨power, rest, high - rest - low⟩

/-- How much the rest of a reduced argument exceeds its exponential less one, by a rational
approximation in the square of the rest. -/
def excess (r : Reduced) : Float :=
  let half := 0.5 * r.rest
  let z := r.rest * half
  let z2 := z * z
  let low := 1 + z * .ofBits 0xbfa11111111110f4
  let middle := .ofBits 0x3f5a01a019fe5585 + z * .ofBits 0xbf14ce199eaadbb7
  let high := .ofBits 0x3ed0cfca86e65239 + z * .ofBits 0xbe8afdb76e09c32d
  let q := low + z2 * middle + z2 * z2 * high
  let t := 3 - q * half
  let e := z * ((q - t) / (6 - r.rest * t))
  r.rest * (e - r.lost) - r.lost - z

/-- The exponential less one from the reduced argument. One is taken off before or after
scaling, where it loses less. -/
def assemble (r : Reduced) : Float :=
  let x := r.rest
  let e := excess r
  let k := r.power
  if k = 0 then x - e
  else if k = -1 then 0.5 * (x - e) - 0.5
  else if k = 1 then if x < -0.25 then -2 * (e - (x + 0.5)) else 1 + 2 * (x - e)
  else if k < 0 ∨ 56 < k then (1 - (e - x)).scaleB k - 1
  else
    let unit := (1 : Float).scaleB (-k)
    if k < 20 then (1 - unit - (e - x)).scaleB k else (x - (e + unit) + 1).scaleB k

/-- The exponential less one. -/
def expm1 (x : Float) : Float :=
  if x.isNaN then x
  else if expLimit < x then 1 / 0
  else if x ≤ .ofBits 0xc043687a00000000 then -1
  else if x.abs < negligible then x
  else assemble (reduce x)

/-- One plus an argument of the logarithm as a power of two times a number near one. -/
structure Scaled where
  power : Int
  /-- The number near one, less one. -/
  fraction : Float
  /-- What one plus the argument lost to rounding, relative to it. -/
  lost : Float
  /-- The fraction is so small that three terms of the series are enough. -/
  short : Bool

/-- A positive sum of one and an argument, with the number near one between the square root of
two and half of it. -/
def scale (x : Float) : Scaled :=
  let isLarge := .ofBits 0x4340000000000000 ≤ x
  let sum := if isLarge then x else 1 + x
  let (half, k) := sum.frExp
  let lost := if isLarge then 0 else (if 1 < k then 1 - (sum - x) else x - (sum - 1)) / sum
  if 2 * half < .ofBits 0x3ff6a09e00000000 then
    ⟨k - 1, 2 * half - 1, lost, 2 * half < .ofBits 0x3ff0000100000000⟩
  else ⟨k, half - 1, lost, .ofBits 0x3feffffd00000000 ≤ half⟩

/-- How much the fraction exceeds half its square and its logarithm together, by a polynomial in
the square of the fraction over the fraction plus two. -/
def series (s : Float) : Float :=
  let z := s * s
  let z2 := z * z
  let z4 := z2 * z2
  let q1 := z * .ofBits 0x3fe5555555555593
  let q2 := .ofBits 0x3fd999999997fa04 + z * .ofBits 0x3fd2492494229359
  let q3 := .ofBits 0x3fcc71c51d8e78af + z * .ofBits 0x3fc7466496cb03de
  let q4 := .ofBits 0x3fc39a09d078c69f + z * .ofBits 0x3fc2f112df3e5244
  q1 + z2 * q2 + z4 * q3 + z4 * z2 * q4

/-- The logarithm of the scaled number. -/
def logOf (u : Scaled) : Float :=
  let k := Float.ofInt u.power
  let f := u.fraction
  let half := 0.5 * f * f
  if u.short then
    if f == 0 then if u.power = 0 then 0 else k * ln2High + (u.lost + k * ln2Low)
    else
      let r := half * (1 - .ofBits 0x3fe5555555555555 * f)
      if u.power = 0 then f - r else k * ln2High - (r - (k * ln2Low + u.lost) - f)
  else
    let s := f / (2 + f)
    let r := s * (half + series s)
    if u.power = 0 then f - (half - r)
    else k * ln2High - (half - (r + (k * ln2Low + u.lost)) - f)

/-- The logarithm of one plus `x`. -/
def log1p (x : Float) : Float :=
  if x.isNaN then x
  else if x ≤ -1 then if x == -1 then -1 / 0 else 0 / 0
  else if !x.isFinite then x
  else if x.abs < negligible then x
  else if x.abs < .ofBits 0x3e20000000000000 then x - x * x * 0.5
  else if .ofBits 0xbfd2bec400000000 < x ∧ x < .ofBits 0x3fda827a00000000 then
    logOf ⟨0, x, 0, false⟩
  else logOf (scale x)

end OpTape.Binary64.Exponential
