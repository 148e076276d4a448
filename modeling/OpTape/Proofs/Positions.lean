import OpTape.Binary64
import OpTape.Capacity
import Mathlib.Algebra.Order.Field.Power
import Mathlib.Algebra.Order.Floor.Ring
import Mathlib.Data.Rat.Floor
import Mathlib.Tactic.Linarith
import Mathlib.Tactic.NormNum
/-
  The number behind an index. Scalars say for themselves which position an index names; where
  they stand for rational numbers, the position is the number without its fraction, and the
  positions are the words (`Scalar.Truncates`). Doubles are read this way
  (`Binary64.truncates`): their comparison with a power of two looks at the exponents first, which
  is right because the mantissas of normal doubles have the same length (`Fields.lt_iff`).
-/
namespace OpTape

/-! ## Truncation -/

/-- The number without its fraction, so rounded toward zero. -/
def truncate (q : Rat) : Int := if 0 ≤ q then ⌊q⌋ else ⌈q⌉

theorem truncate_neg (q : Rat) : truncate (-q) = -truncate q := by
  rcases lt_trichotomy q 0 with h | rfl | h
  · rw [truncate, if_pos (by linarith), truncate, if_neg (not_le.mpr h), Int.floor_neg]
  · rfl
  · rw [truncate, if_neg (by linarith), truncate, if_pos h.le, Int.ceil_neg]

theorem truncate_nonneg_iff {q : Rat} : 0 ≤ truncate q ↔ -1 < q := by
  unfold truncate
  split
  · rename_i h
    exact ⟨fun _ => by linarith, fun _ => Int.floor_nonneg.mpr h⟩
  · have hceil : (-1 : Int) < ⌈q⌉ ↔ ((-1 : Int) : Rat) < q := Int.lt_ceil
    rw [← Int.add_one_le_iff] at hceil
    simpa using hceil

/-- Truncating keeps a number below a positive bound. -/
theorem truncate_lt_iff {q : Rat} {n : Nat} (hn : 0 < n) : truncate q < n ↔ q < n := by
  have hpos : (0 : Rat) < n := Nat.cast_pos.mpr hn
  unfold truncate
  split
  · rw [Int.floor_lt, Int.cast_natCast]
  · rename_i h
    have hneg : q ≤ ((0 : Int) : Rat) := by
      rw [Int.cast_zero]
      exact (not_le.mp h).le
    have hceil : ⌈q⌉ ≤ 0 := Int.ceil_le.mpr hneg
    exact ⟨fun _ => by linarith [not_le.mp h], fun _ => by omega⟩

namespace Scalar

variable {V : Type} [Scalar V]

/-- Indices are read as numbers: one without a number is not finite, a number between -1 and
the count of words names the position that truncating gives, and any other number names none. -/
structure Truncates (number : V → Option Rat) : Prop where
  undefined {a : V} (h : number a = none) : subscript a = .undefined
  cell {a : V} {q : Rat} (h : number a = some q) (hlow : -1 < q) (hhigh : q < wordCount) :
    subscript a = .cell (truncate q).toNat
  outside {a : V} {q : Rat} (h : number a = some q) (hout : ¬(-1 < q ∧ q < wordCount)) :
    subscript a = .outside

end Scalar

/-! ## Doubles -/

namespace Binary64

open Float.Model Float.Model.UnpackedFloat

/-- The number that an unpacked double stands for. -/
def value : UnpackedFloat → Option Rat
  | .notANumber | .infinity _ => none
  | .zero _ => some 0
  | .finite s m e _ => some (s.apply m * 2 ^ e)

/-- The number that a double stands for; none unless it is finite. -/
def number (x : Float) : Option Rat := value x.toModel.unpack

/-- The mantissa and the exponent of a finite double: the mantissa has full length unless the
exponent is the least one. -/
structure Fields (m : Nat) (e : Int) : Prop where
  lt : m < 2 ^ 53
  least : -1074 ≤ e
  full : e = -1074 ∨ 2 ^ 52 ≤ m

theorem fields_of_unpack {b : BitVec 64} {s : Sign} {m : Nat} {e : Int} {hm : 0 < m}
    (h : UnpackedFloat.unpack .binary64 b = .finite s m e hm) : Fields m e := by
  have hfraction : (@unpackMantissa .binary64 b).toNat < 2 ^ 52 :=
    (@unpackMantissa .binary64 b).isLt
  have hbias : Format.exponentBias .binary64 = 1023 := rfl
  -- Opened by hand: nothing is to be rewritten below the proof that `finite` carries.
  delta UnpackedFloat.unpack at h
  dsimp only at h
  by_cases hspecial : @unpackExponent .binary64 b = -1#_
  · rw [if_pos hspecial] at h
    by_cases hempty : @unpackMantissa .binary64 b = 0#_
    · rw [if_pos hempty] at h
      cases h
    · rw [if_neg hempty] at h
      cases h
  · rw [if_neg hspecial] at h
    by_cases hexponent : @unpackExponent .binary64 b = 0#_
    · rw [if_pos hexponent] at h
      have hzero : (@unpackExponent .binary64 b).toNat = 0 := by
        rw [hexponent]
        rfl
      by_cases hempty : @unpackMantissa .binary64 b = 0#_
      · rw [dif_pos hempty] at h
        cases h
      · rw [dif_neg hempty] at h
        cases h
        exact ⟨by omega, by omega, .inl (by omega)⟩
    · rw [if_neg hexponent] at h
      have hpos : (@unpackExponent .binary64 b).toNat ≠ 0 := fun hzero =>
        hexponent (BitVec.eq_of_toNat_eq (hzero.trans rfl))
      have happend : (1#1 ++ @unpackMantissa .binary64 b).toNat
          = 2 ^ 52 + (@unpackMantissa .binary64 b).toNat := by
        rw [BitVec.toNat_append, ← Nat.shiftLeft_add_eq_or_of_lt hfraction]
        rfl
      cases h
      exact ⟨by omega, by omega, .inr (by omega)⟩

theorem apply_negative_mul (m : Nat) (e : Int) :
    ((Sign.apply .negative m : Int) : Rat) * 2 ^ e = -(m * 2 ^ e) := by
  rw [Sign.apply, Int.cast_neg, Int.cast_natCast, neg_mul]

theorem mul_zpow_pos {m : Nat} (hm : 0 < m) (e : Int) : (0 : Rat) < m * 2 ^ e :=
  mul_pos (Nat.cast_pos.mpr hm) (zpow_pos two_pos e)

/-- A double is below a power of two if its exponent is, or if it is the same and the mantissa is
not of full length. -/
theorem Fields.lt_iff {m : Nat} {e c : Int} (h : Fields m e) (hc : -1074 < c) :
    (m : Rat) * 2 ^ e < 2 ^ (52 + c) ↔ e < c ∨ e = c ∧ m < 2 ^ 52 := by
  have htwo : (2 : Rat) ≠ 0 := two_ne_zero
  have hscale : (0 : Rat) < 2 ^ e := zpow_pos two_pos e
  have hpower (n : Nat) : ((2 ^ n : Nat) : Rat) * 2 ^ e = 2 ^ ((n : Int) + e) := by
    rw [zpow_add₀ htwo, Nat.cast_pow, zpow_natCast]
    rfl
  rcases lt_trichotomy e c with hlt | rfl | hlt
  · have hm : (m : Rat) * 2 ^ e < ((2 ^ 53 : Nat) : Rat) * 2 ^ e :=
      mul_lt_mul_of_pos_right (Nat.cast_lt.mpr h.lt) hscale
    rw [hpower] at hm
    have hle : (2 : Rat) ^ (((53 : Nat) : Int) + e) ≤ 2 ^ (52 + c) :=
      zpow_le_zpow_right₀ one_le_two (by omega)
    exact ⟨fun _ => .inl hlt, fun _ => hm.trans_le hle⟩
  · have hbound : (2 : Rat) ^ (52 + e) = ((2 ^ 52 : Nat) : Rat) * 2 ^ e := (hpower 52).symm
    rw [hbound, mul_lt_mul_iff_left₀ hscale, Nat.cast_lt]
    simp
  · have hfull : 2 ^ 52 ≤ m := h.full.resolve_left (by omega)
    have hm : ((2 ^ 52 : Nat) : Rat) * 2 ^ e ≤ (m : Rat) * 2 ^ e :=
      mul_le_mul_of_nonneg_right (Nat.cast_le.mpr hfull) hscale.le
    rw [hpower] at hm
    have hle : (2 : Rat) ^ (52 + c) ≤ 2 ^ (((52 : Nat) : Int) + e) :=
      zpow_le_zpow_right₀ one_le_two (by omega)
    refine ⟨fun hbelow => absurd (hle.trans hm) (not_le.mpr hbelow), fun hor => ?_⟩
    omega

/-- Comparing doubles of negative sign with -1. -/
theorem lt_negative_iff {m : Nat} {e : Int} (hm : 0 < m) :
    UnpackedFloat.lt (.finite .negative (2 ^ 52) (-52) (by decide)) (.finite .negative m e hm)
      = true ↔ e < -52 ∨ e = -52 ∧ m < 2 ^ 52 := by
  show (some ((compare (-52) e).then (compare (2 ^ 52) m)).swap == some Ordering.lt) = true ↔ _
  simp only [beq_iff_eq, Option.some.injEq, Ordering.swap_eq_lt, Ordering.then_eq_gt,
    Int.compare_eq_gt, Int.compare_eq_eq, Nat.compare_eq_gt]
  omega

/-- Comparing doubles of positive sign with the count of words. -/
theorem lt_positive_iff {m : Nat} {e : Int} (hm : 0 < m) :
    UnpackedFloat.lt (.finite .positive m e hm) (.finite .positive (2 ^ 52) 12 (by decide))
      = true ↔ e < 12 ∨ e = 12 ∧ m < 2 ^ 52 := by
  show (some ((compare e 12).then (compare m (2 ^ 52))) == some Ordering.lt) = true ↔ _
  simp only [beq_iff_eq, Option.some.injEq, Ordering.then_eq_lt, Int.compare_eq_lt,
    Int.compare_eq_eq, Nat.compare_eq_lt]

theorem mantissa_shiftRight (em : ExtendedMantissa) (n : Nat) :
    (em >>> n).mantissa = em.mantissa / 2 ^ n := by
  induction n with
  | zero => exact (Nat.div_one _).symm
  | succ n ih =>
    show (em >>> n).mantissa / 2 = _
    rw [ih, Nat.div_div_eq_div_mul, Nat.pow_succ]

theorem truncate_mul_zpow (m : Nat) (e : Int) :
    truncate (m * 2 ^ e) = (((m <<< e.toNat) / 2 ^ (-e).toNat : Nat) : Int) := by
  have hnonneg : (0 : Rat) ≤ m * 2 ^ e := mul_nonneg (Nat.cast_nonneg m) (zpow_pos two_pos e).le
  have hquotient : (m : Rat) * 2 ^ e
      = ((m <<< e.toNat : Nat) : Rat) / ((2 ^ (-e).toNat : Nat) : Rat) := by
    rw [Nat.shiftLeft_eq, Nat.cast_mul, Nat.cast_pow, Nat.cast_pow]
    rcases le_total 0 e with he | he
    · obtain ⟨n, rfl⟩ := Int.eq_ofNat_of_zero_le he
      simp
    · obtain ⟨n, hn⟩ := Int.eq_ofNat_of_zero_le (Int.neg_nonneg.mpr he)
      obtain rfl : e = -n := by omega
      simp [div_eq_mul_inv]
  rw [truncate, if_pos hnonneg, hquotient, Rat.floor_natCast_div_natCast, Int.natCast_div]

/-- A double is converted to a whole number by truncating. -/
theorem roundToInt_eq (s : Sign) (m : Nat) (e : Int) :
    roundToInt s m e = truncate (s.apply m * 2 ^ e) := by
  have hexponent : ((0 : Int) - (e - e.toNat)).toNat = (-e).toNat := by omega
  have hround : roundToInt s m e = s.apply (truncate (m * 2 ^ e)) := by
    rw [truncate_mul_zpow]
    simp only [roundToInt, decreaseExponent, shiftToExponent, mantissa_shiftRight, Int.sub_zero,
      hexponent]
    rfl
  rw [hround]
  cases s with
  | positive => rw [Sign.apply, Sign.apply, Int.cast_natCast]
  | negative => rw [apply_negative_mul, truncate_neg, Sign.apply]

section

variable {x : Float} {q : Rat}

theorem isFinite_iff : x.isFinite = true ↔ ∃ q, number x = some q := by
  show x.toModel.unpack.isFinite = true ↔ ∃ q, value x.toModel.unpack = some q
  cases x.toModel.unpack with
  | zero s => exact iff_of_true rfl ⟨0, rfl⟩
  | finite s m e hm => exact iff_of_true rfl ⟨_, rfl⟩
  | _ => exact iff_of_false Bool.false_ne_true fun ⟨_, h⟩ => nomatch h

/-- A double with a number is a zero or has a mantissa and an exponent. -/
theorem unpack_of_number (h : number x = some q) :
    (∃ s, x.toModel.unpack = .zero s ∧ q = 0) ∨
      ∃ s m e hm, x.toModel.unpack = .finite s m e hm ∧ Fields m e ∧ q = s.apply m * 2 ^ e := by
  unfold number at h
  cases hx : x.toModel.unpack with
  | notANumber =>
    rw [hx] at h
    cases h
  | infinity s =>
    rw [hx] at h
    cases h
  | zero s =>
    rw [hx] at h
    exact .inl ⟨s, rfl, (Option.some.inj h).symm⟩
  | finite s m e hm =>
    rw [hx] at h
    exact .inr ⟨s, m, e, hm, rfl, fields_of_unpack hx, (Option.some.inj h).symm⟩

theorem lt_iff_unpack (x y : Float) :
    x < y ↔ x.toModel.unpack.lt y.toModel.unpack = true := decide_eq_true_iff

theorem unpack_neg_one : (-1 : Float).toModel.unpack
    = .finite .negative (2 ^ 52) (-52) (by decide) := by
  with_unfolding_all rfl

theorem unpack_wordCount : (18446744073709551616 : Float).toModel.unpack
    = .finite .positive (2 ^ 52) 12 (by decide) := by
  with_unfolding_all rfl

/-- A double is compared with -1 as the number that it stands for. -/
theorem neg_one_lt_iff (hx : number x = some q) : (-1 : Float) < x ↔ -1 < q := by
  rw [lt_iff_unpack, unpack_neg_one]
  rcases unpack_of_number hx with ⟨s, hunpack, rfl⟩ | ⟨s, m, e, hm, hunpack, hfields, rfl⟩
  · rw [hunpack]
    exact ⟨fun _ => neg_one_lt_zero, fun _ => rfl⟩
  · rw [hunpack]
    cases s with
    | positive => exact ⟨fun _ => neg_one_lt_zero.trans (mul_zpow_pos hm e), fun _ => rfl⟩
    | negative =>
      have hpower : (2 : Rat) ^ (52 + -52 : Int) = 1 := rfl
      rw [lt_negative_iff, ← hfields.lt_iff (by decide), hpower, apply_negative_mul,
        neg_lt_neg_iff]

/-- A double is compared with the count of words as the number that it stands for. -/
theorem lt_wordCount_iff (hx : number x = some q) :
    x < (18446744073709551616 : Float) ↔ q < wordCount := by
  have hwords : (0 : Rat) < wordCount := Nat.cast_pos.mpr (by decide)
  rw [lt_iff_unpack, unpack_wordCount]
  rcases unpack_of_number hx with ⟨s, hunpack, rfl⟩ | ⟨s, m, e, hm, hunpack, hfields, rfl⟩
  · rw [hunpack]
    exact ⟨fun _ => hwords, fun _ => rfl⟩
  · rw [hunpack]
    cases s with
    | positive =>
      have hpower : (2 : Rat) ^ (52 + 12 : Int) = wordCount := by norm_num [wordCount]
      rw [lt_positive_iff, ← hfields.lt_iff (by decide), hpower, Sign.apply, Int.cast_natCast]
    | negative =>
      rw [apply_negative_mul]
      have hneg : -((m : Rat) * 2 ^ e) < 0 := neg_lt_zero.mpr (mul_zpow_pos hm e)
      exact ⟨fun _ => hneg.trans hwords, fun _ => rfl⟩

/-- Within the words, a double is converted to a word by truncating. -/
theorem toNat_toUInt64 (hx : number x = some q) (hhigh : q < wordCount) :
    x.toUInt64.toNat = (truncate q).toNat := by
  have hlt : (truncate q).toNat < UInt64.size := by
    have hwords := (truncate_lt_iff (q := q) (n := wordCount) (by decide)).mpr hhigh
    have hsize : UInt64.size = wordCount := rfl
    have hpos : 0 < wordCount := by decide
    omega
  have hconvert : x.toModel.unpack.toInt 0 (UInt64.size - 1) = truncate q := by
    rcases unpack_of_number hx with ⟨s, hunpack, rfl⟩ | ⟨s, m, e, hm, hunpack, -, rfl⟩
    · rw [hunpack]
      rfl
    · rw [hunpack]
      exact roundToInt_eq s m e
  show (UInt64.ofNatClamp (x.toModel.unpack.toInt 0 (UInt64.size - 1)).toNat).toNat = _
  rw [hconvert, UInt64.toNat_ofNatClamp_of_lt hlt]

end

/-- An index that is a double names the position that truncating the double gives. -/
theorem truncates : Scalar.Truncates number where
  undefined {x} h := by
    have hfinite : x.isFinite = false := by
      rw [Bool.eq_false_iff, ne_eq, isFinite_iff, h]
      simp
    show subscript x = _
    rw [subscript, hfinite]
    rfl
  cell {x q} h hlow hhigh := by
    have hfinite := isFinite_iff.mpr ⟨q, h⟩
    show subscript x = _
    rw [subscript, hfinite, if_neg (by simp), if_pos (by
      simp [neg_one_lt_iff h, lt_wordCount_iff h, hlow, hhigh]), toNat_toUInt64 h hhigh]
  outside {x q} h hout := by
    have hfinite := isFinite_iff.mpr ⟨q, h⟩
    show subscript x = _
    rw [subscript, hfinite, if_neg (by simp), if_neg (by
      simpa [neg_one_lt_iff h, lt_wordCount_iff h] using hout)]

end Binary64

end OpTape
