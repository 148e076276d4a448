import OpTape.Binary64
/-
  Laws of rounded arithmetic. A sum and a product of doubles are computed from the exact ones,
  and rounding sees the result only, so the order of two operands does not show. Invalid
  operations give the one value that is not a number.
-/
namespace OpTape.Binary64

open Float.Model

theorem unpacked_add_comm (spec : Format) (x y : UnpackedFloat) : x.add spec y = y.add spec x := by
  cases x with
  | notANumber => cases y <;> rfl
  | infinity s =>
    cases y with
    | infinity s' => cases s <;> cases s' <;> rfl
    | _ => rfl
  | zero s =>
    cases y with
    | zero s' => cases s <;> cases s' <;> rfl
    | _ => rfl
  | finite s m e =>
    cases y with
    | finite s' m' e' =>
      show UnpackedFloat.normalize spec
          (s.apply (UnpackedFloat.decreaseExponent m e (min e e')).1
            + s'.apply (UnpackedFloat.decreaseExponent m' e' (min e e')).1) (min e e') .positive
        = UnpackedFloat.normalize spec
          (s'.apply (UnpackedFloat.decreaseExponent m' e' (min e' e)).1
            + s.apply (UnpackedFloat.decreaseExponent m e (min e' e)).1) (min e' e) .positive
      rw [Int.min_comm e e', Int.add_comm (s.apply _)]
    | _ => rfl

theorem unpacked_mul_comm (spec : Format) (x y : UnpackedFloat) : x.mul spec y = y.mul spec x := by
  have hsign (s s' : UnpackedFloat.Sign) : s * s' = s' * s := by
    cases s <;> cases s' <;> rfl
  cases x with
  | notANumber => cases y <;> rfl
  | infinity s =>
    cases y with
    | infinity s' | finite s' => exact congrArg UnpackedFloat.infinity (hsign s s')
    | _ => rfl
  | zero s =>
    cases y with
    | zero s' | finite s' => exact congrArg UnpackedFloat.zero (hsign s s')
    | _ => rfl
  | finite s m e =>
    cases y with
    | infinity s' => exact congrArg UnpackedFloat.infinity (hsign s s')
    | zero s' => exact congrArg UnpackedFloat.zero (hsign s s')
    | finite s' m' e' =>
      show UnpackedFloat.roundWithAccuracy spec (s * s') (m * m') (e + e') .exact
        = UnpackedFloat.roundWithAccuracy spec (s' * s) (m' * m) (e' + e) .exact
      rw [hsign s s', Nat.mul_comm m m', Int.add_comm e e']
    | notANumber => rfl

theorem add_comm (x y : Float) : x + y = y + x :=
  congrArg (fun z => Float.ofModel (Float.Model.pack z)) (unpacked_add_comm .binary64 _ _)

theorem mul_comm (x y : Float) : x * y = y * x :=
  congrArg (fun z => Float.ofModel (Float.Model.pack z)) (unpacked_mul_comm .binary64 _ _)

/-- Zero is not positive. -/
theorem zero_not_lt : Scalar.lt (Scalar.zero : Float) Scalar.zero = false := by
  decide +kernel

end OpTape.Binary64
