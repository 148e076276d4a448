import OpTape.Scalar
import OpTape.Binary64.Exponential
import OpTape.Decimal.Shortest
/-
  Double precision numbers as scalars, and their text.
-/
namespace OpTape.Binary64

open Decimal

/-- One with the sign of `x`; positive zero for both zeros. -/
def sign (x : Float) : Float :=
  if 0 < x then 1 else if x < 0 then -1 else if x.isNaN then x else 0

def unary : UnaryOp → Float → Float
  | .neg, x => -x
  | .abs, x => x.abs
  | .sign, x => sign x
  | .sqrt, x => x.sqrt
  | .exp, x => x.exp
  | .expm1, x => Exponential.expm1 x
  | .log, x => x.log
  | .log1p, x => Exponential.log1p x
  | .sin, x => x.sin
  | .cos, x => x.cos
  | .tan, x => x.tan
  | .asin, x => x.asin
  | .acos, x => x.acos
  | .atan, x => x.atan
  | .sinh, x => x.sinh
  | .cosh, x => x.cosh
  | .tanh, x => x.tanh

def binary : BinaryOp → Float → Float → Float
  | .add, x, y => x + y
  | .sub, x, y => x - y
  | .mul, x, y => x * y
  | .div, x, y => x / y
  | .pow, x, y => x.pow y

/-- Truncates toward zero; the representable positions are those of 64-bit words. -/
def subscript (x : Float) : Subscript :=
  if !x.isFinite then .undefined
  else if -1 < x && x < 18446744073709551616 then .cell x.toUInt64.toNat
  else .outside

/-- The number of values of the fraction field of a double. -/
def fractionRange : Nat := 4503599627370496

/-- The number of values of the exponent field of a double. -/
def exponentRange : Nat := 2048

/-- The interval of reals that round to the double with fraction field `fraction` and exponent
field `exponent`, which are not both zero. The lower neighbour is half as far away as the upper
one at a power of two. -/
def interval (fraction exponent : Nat) : Interval :=
  let mantissa := if exponent = 0 then fraction else fraction + fractionRange
  let power : Int := (max exponent 1 : Nat) - 1075
  let below := if fraction = 0 ∧ 1 < exponent then 1 else 2
  let scale := Nat.pow 2 power.toNat
  { low := (4 * mantissa - below) * scale
    middle := 4 * mantissa * scale
    high := (4 * mantissa + 2) * scale
    den := 4 * Nat.pow 2 (-power).toNat
    closed := mantissa % 2 = 0 }

/-- The digits of a finite double without its sign: as few as read back to the same double,
with no exponent. -/
def magnitude (fraction exponent : Nat) : String :=
  if fraction = 0 ∧ exponent = 0 then "0"
  else
    match (interval fraction exponent).shortest 17 with
    | some s => s.trim.positional
    | none => ""

def text (x : Float) : String :=
  let bits := x.toBits.toNat
  let fraction := bits % fractionRange
  let exponent := bits / fractionRange % exponentRange
  let sign := if bits / fractionRange / exponentRange = 1 then "-" else ""
  if exponent + 1 = exponentRange then
    if fraction = 0 then sign ++ "inf" else "NaN"
  else sign ++ magnitude fraction exponent

example : text (.ofBits 0x3fb999999999999a) = "0.1" := by decide +kernel
example : text (.ofBits 0x444b1ae4d6e2ef50) = "1000000000000000000000" := by decide +kernel
example : text (.ofBits 0x3e7ad7f29abcaf48) = "0.0000001" := by decide +kernel
example : text (.ofBits 0x4059000000000000) = "100" := by decide +kernel
example : text (.ofBits 0x8000000000000000) = "-0" := by decide +kernel
example : text (.ofBits 0xfff0000000000000) = "-inf" := by decide +kernel
example : text (.ofBits 0x7ff8000000000000) = "NaN" := by decide +kernel

instance : Scalar Float where
  zero := 0
  nan := 0 / 0
  unary := unary
  binary := binary
  eq x y := x == y
  lt x y := x < y
  le x y := x ≤ y
  subscript := subscript
  text := text

end OpTape.Binary64
