import OpTape.Kind
/-
  The numbers a tape computes with. A scalar type brings its arithmetic, its three order
  tests, the reading of a value as a position in a dynamic vector, and the text of a value.
  Nothing is assumed about them here: rounded and exact arithmetic are both instances.
-/
namespace OpTape

/-- What a value says when it is used as an index into a dynamic vector. -/
inductive Subscript
  /-- The value is not finite, so it names no cell and no error either. -/
  | undefined
  /-- The value is finite, but truncating it toward zero gives no representable position. -/
  | outside
  /-- Truncating the value toward zero gives position `n`. -/
  | cell (n : Nat)
  deriving DecidableEq

/-- A type of numbers that tapes can compute with. -/
class Scalar (V : Type) where
  zero : V
  /-- The value of results that nothing defines. -/
  nan : V
  unary : UnaryOp → V → V
  binary : BinaryOp → V → V → V
  /-- Numeric equality, which need not be identity. -/
  eq : V → V → Bool
  lt : V → V → Bool
  le : V → V → Bool
  subscript : V → Subscript
  text : V → String

end OpTape
