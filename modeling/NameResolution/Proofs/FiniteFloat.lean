import Mathlib.Algebra.GroupWithZero.Nat
import NameResolution.Literal

/-!
# Finite doubles

A whole number of a literal that does not fit into 64 bits with a sign is read as a double. That double is finite:
rounding a number of 64 bits raises its exponent by a few places at most, and the doubles whose exponent is below that
of the infinities are the finite ones.
-/
namespace NameResolution.FiniteFloat
open Float.Model.Format Float.Model.UnpackedFloat
open Float.Model (UnpackedFloat totalExponent)

/-- The value is zero, or its exponent is one that a double can have. -/
def InRange : UnpackedFloat → Prop
  | .zero _ => True
  | .finite _ _ exponent _ => exponent ≤ 971
  | .infinity _ | .notANumber => False

theorem not_isFinite_unpack {b : BitVec binary64.numBits} (h : unpackExponent b = -1#_) :
    (unpack binary64 b).isFinite = false := by
  unfold unpack
  rw [if_pos h]
  by_cases hmantissa : unpackMantissa b = 0#_
  · rw [if_pos hmantissa]
    rfl
  · rw [if_neg hmantissa]
    rfl

/-- An exponent that has not all its bits set is at most 2046. -/
theorem finite_unpack {b : BitVec binary64.numBits} (h : unpackExponent b ≠ -1#_) :
    (unpack binary64 b).isFinite = true ∧ InRange (unpack binary64 b) := by
  have hlt : (unpackExponent b).toNat < 2048 := (unpackExponent b).isLt
  have hne : (unpackExponent b).toNat ≠ 2047 := fun heq => h (BitVec.eq_of_toNat_eq heq)
  unfold unpack
  rw [if_neg h]
  by_cases hexponent : unpackExponent b = 0#_
  · have hzero : (unpackExponent b).toNat = 0 := congrArg BitVec.toNat hexponent
    rw [if_pos hexponent]
    by_cases hmantissa : unpackMantissa b = 0#_
    · rw [dif_pos hmantissa]
      exact ⟨rfl, trivial⟩
    · rw [dif_neg hmantissa]
      refine ⟨rfl, ?_⟩
      change (unpackExponent b).toNat - (1023 + 52) + 1 ≤ (971 : Int)
      omega
  · rw [if_neg hexponent]
    refine ⟨rfl, ?_⟩
    change (unpackExponent b).toNat - (1023 + 52) ≤ (971 : Int)
    omega

theorem inRange_unpack {b : BitVec binary64.numBits} (h : (unpack binary64 b).isFinite = true) :
    InRange (unpack binary64 b) := by
  by_cases hones : unpackExponent b = -1#_
  · rw [not_isFinite_unpack hones] at h
    cases h
  · exact (finite_unpack hones).2

theorem isFinite_pack {u : UnpackedFloat} (h : InRange u) : (unpack binary64 (pack binary64 u)).isFinite = true := by
  refine (finite_unpack ?_).1
  fun_cases pack with
  | case1 | case2 => cases h
  | case3 => simp [packedZero]
  | case4 _ _ e _ _ hlt =>
    have hbias : 2048 ≤ (e + 1023 + 52).toNat + 1 := hlt
    change e ≤ 971 at h
    omega
  | case5 _ _ _ _ _ _ hlt =>
    rw [unpackExponent_packComponents]
    intro heq
    have hones := congrArg BitVec.toNat heq
    simp at hones hlt
    omega
  | case6 => simp

theorem InRange.neg {u : UnpackedFloat} (h : InRange u) : InRange u.neg := by
  cases u <;> exact h

theorem mantissa_shiftRight_le (em : ExtendedMantissa) (n : Nat) : (em >>> n).mantissa ≤ em.mantissa := by
  change (n.repeat ExtendedMantissa.shiftRightOne em).mantissa ≤ _
  induction n with
  | zero => exact Nat.le_refl _
  | succ n ih => exact Nat.le_trans (Nat.div_le_self ..) ih

theorem roundedMantissa_le (em : ExtendedMantissa) : em.roundedMantissa ≤ em.mantissa + 1 := by
  unfold ExtendedMantissa.roundedMantissa
  cases em.accuracy with
  | exact => exact Nat.le_succ _
  | inexact half =>
    cases half <;> simp only [Accuracy.roundToNearestEven] <;> omega

section
variable {m k : Nat}

theorem mantissa_shiftToTargetExponent_le (m : Nat) (e : Int) :
    (shiftToTargetExponent binary64 m e .exact).1.mantissa ≤ m := mantissa_shiftRight_le _ _

theorem exponent_shiftToTargetExponent_le (h : m < 2 ^ k) (e : Int) :
    (shiftToTargetExponent binary64 m e .exact).2 ≤ max e 0 + k := by
  have hlog : m = 0 ∨ m.log2 < k := (eq_or_ne m 0).imp_right fun hne => (Nat.log2_lt hne).mpr h
  change e + (max (m.log2 + 1 + e - 53) (-1074) - e).toNat ≤ max e 0 + k
  rcases hlog with rfl | hlog
  · rw [Nat.log2_zero]
    omega
  · omega

/-- Each of the two shifts of rounding adds at most as many places as the mantissa has. -/
theorem inRange_roundWithAccuracy (s : Sign) {e : Int} (hm : m < 2 ^ k) (hk : k ≤ 400) (he : e ≤ 0) :
    InRange (roundWithAccuracy binary64 s m e .exact) := by
  have hfirst := exponent_shiftToTargetExponent_le hm e
  have hrounded := Nat.le_trans (roundedMantissa_le (shiftToTargetExponent binary64 m e .exact).1)
    (Nat.succ_le_succ (mantissa_shiftToTargetExponent_le m e))
  rw [roundWithAccuracy]
  generalize shiftToTargetExponent binary64 m e .exact = shifted at hfirst hrounded ⊢
  have hlt : shifted.1.roundedMantissa < 2 ^ (k + 1) := by
    rw [pow_succ]
    omega
  have hsecond := exponent_shiftToTargetExponent_le hlt shifted.2
  dsimp only
  generalize shiftToTargetExponent binary64 _ shifted.2 .exact = again at hsecond ⊢
  by_cases hzero : again.1.mantissa = 0
  · rw [dif_pos hzero]
    trivial
  · rw [dif_neg hzero]
    change again.2 ≤ (971 : Int)
    push_cast at hsecond
    omega

end

theorem inRange_ofNat {n : Nat} (h : n < 2 ^ 64) : InRange (UnpackedFloat.ofNat binary64 n) := by
  rw [UnpackedFloat.ofNat, ofInt, UnpackedFloat.normalize]
  split
  next hlt =>
    have hneg : (n : Int) < 0 := Int.compare_eq_lt.mp hlt
    omega
  next => trivial
  next =>
    rw [Int.toNat_natCast, UnpackedFloat.round, decreaseExponent]
    have hshift : ((0 : Int) - binary64.targetExponent (totalExponent n 0)).toNat ≤ 52 := by
      change ((0 : Int) - max ((n.log2 : Int) + 1 + 0 - 53) (-1074)).toNat ≤ 52
      omega
    generalize ((0 : Int) - binary64.targetExponent (totalExponent n 0)).toNat = shift at hshift ⊢
    apply inRange_roundWithAccuracy (k := 64 + shift)
    · rw [Nat.shiftLeft_eq, pow_add]
      exact Nat.mul_lt_mul_of_pos_right h (Nat.two_pow_pos shift)
    · omega
    · omega

theorem isFinite_toFloat (n : UInt64) : n.toFloat.isFinite = true := isFinite_pack (inRange_ofNat n.toNat_lt)

theorem isFinite_neg {x : Float} (h : x.isFinite = true) : (-x).isFinite = true :=
  isFinite_pack (inRange_unpack h).neg

/-- The double nearest to a whole number is finite. -/
theorem isFinite_floatOfInt (n : Int) : (LiteralValue.floatOfInt n).isFinite = true := by
  cases n with
  | ofNat n => exact isFinite_toFloat _
  | negSucc n => exact isFinite_neg (isFinite_toFloat _)

end NameResolution.FiniteFloat
