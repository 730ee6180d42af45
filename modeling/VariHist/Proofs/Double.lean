import Mathlib
import VariHist.Histogram.Exact

/-!
# Doubles

Facts about doubles that statements about histograms rest on.

* `Double.beq_self` — a double equals itself unless it is not a number.
* `Double.le_zero_iff` — what is not a number is neither greater than zero nor at most zero.
* `Double.unpack_eq` — a double taken apart into its sign, its exponent and its mantissa.
* `Double.isZero_exact` — the fraction of a double is zero exactly when the double is.
-/

namespace VariHist.Double

open Float.Model UnpackedFloat

/-! ## Comparison -/

theorem compare_self (u : UnpackedFloat) :
    u.compare u = if u.isNaN then none else some .eq := by
  cases u with
  | notANumber => rfl
  | infinity s => cases s <;> rfl
  | zero s => cases s <;> rfl
  | finite s m e h =>
    cases s with
    | negative => simp [UnpackedFloat.compare, UnpackedFloat.isNaN]
    | positive => simp [UnpackedFloat.compare, UnpackedFloat.isNaN]

/-- A double equals itself unless it is not a number. -/
theorem beq_self (x : Float) : (x == x) = !x.isNaN := by
  change (x.toModel.unpack.compare x.toModel.unpack == some .eq) = !x.toModel.unpack.isNaN
  rw [compare_self]
  cases x.toModel.unpack.isNaN <;> rfl

/-- Nothing is less than what is not a number. -/
theorem not_lt_of_isNaN {x y : Float} (h : y.isNaN = true) : ¬ x < y := by
  have hy : y.toModel.unpack = .notANumber := by
    change y.toModel.unpack.isNaN = true at h
    revert h
    cases y.toModel.unpack with
    | notANumber => intro _; rfl
    | _ => intro h; cases h
  intro hlt
  have hmodel : x.toModel < y.toModel := of_decide_eq_true hlt
  change x.toModel.unpack.lt y.toModel.unpack = true at hmodel
  rw [hy] at hmodel
  cases hx : x.toModel.unpack <;> rw [hx] at hmodel <;> cases hmodel

/-- A double that is not greater than zero is at most zero, unless it is not a number. -/
theorem le_zero_iff (x : Float) : x ≤ 0 ↔ ¬ 0 < x ∧ x.isNaN = false := by
  have hle : x ≤ 0 ↔ x.toModel.unpack.le (.zero .positive) = true := decide_eq_true_iff
  have hlt : 0 < x ↔ (UnpackedFloat.zero .positive).lt x.toModel.unpack = true :=
    decide_eq_true_iff
  have hnan : x.isNaN = x.toModel.unpack.isNaN := rfl
  rw [hle, hlt, hnan]
  cases x.toModel.unpack with
  | notANumber => decide
  | infinity s => cases s <;> decide
  | zero s => cases s <;> decide
  | finite s m e h =>
    cases s <;>
      simp [UnpackedFloat.le, UnpackedFloat.lt, UnpackedFloat.compare, UnpackedFloat.isNaN]

/-! ## The parts of a double -/

/-- The bits of a double. -/
abbrev bits (x : Float) : BitVec Format.binary64.numBits :=
  x.toBits.toBitVec

/-- The stored exponent. -/
def field (x : Float) : Nat :=
  x.toBits.toNat / 0x10000000000000 % 0x800

/-- The stored bits of the mantissa. -/
def fraction (x : Float) : Nat :=
  x.toBits.toNat % 0x10000000000000

/-- The sign. -/
def sign (x : Float) : Sign :=
  if x.toBits ≥ 0x8000000000000000 then .negative else .positive

theorem unpackMantissa_toNat (x : Float) :
    (unpackMantissa (bits x)).toNat = fraction x := by
  simp [unpackMantissa, fraction, Float.toBits]

theorem unpackExponent_toNat (x : Float) :
    (unpackExponent (bits x)).toNat = field x := by
  simp [unpackExponent, field, Float.toBits, Nat.shiftRight_eq_div_pow]

theorem ofBitVec_unpackSign (x : Float) :
    Sign.ofBitVec (unpackSign (bits x)) = sign x := by
  have hbit : (unpackSign (bits x)).toNat = x.toBits.toNat / 0x8000000000000000 := by
    have := x.toBits.toNat_lt
    simp [unpackSign, Nat.shiftRight_eq_div_pow]
    omega
  unfold sign Sign.ofBitVec
  refine ite_congr ?_ (fun _ => rfl) (fun _ => rfl) |>.trans (ite_not _ _ _)
  rw [← BitVec.toNat_inj, hbit, ge_iff_le, UInt64.le_iff_toNat_le, eq_iff_iff, not_le]
  change x.toBits.toNat / 0x8000000000000000 = 0 ↔ x.toBits.toNat < 0x8000000000000000
  omega

/-- A double taken apart. -/
theorem unpack_eq (x : Float) : x.toModel.unpack =
    if field x = 0x7FF then if fraction x = 0 then .infinity (sign x) else .notANumber
    else if field x = 0 then
      if h : fraction x = 0 then .zero (sign x)
      else .finite (sign x) (fraction x) (-1074) (Nat.pos_of_ne_zero h)
    else .finite (sign x) (fraction x + 0x10000000000000) (Int.ofNat (field x) - 1075)
      (by omega) := by
  have hm := unpackMantissa_toNat x
  have he := unpackExponent_toNat x
  have hm0 : unpackMantissa (bits x) = 0#_ ↔ fraction x = 0 := by
    rw [← hm, ← BitVec.toNat_inj]
    rfl
  have he0 : unpackExponent (bits x) = 0#_ ↔ field x = 0 := by
    rw [← he, ← BitVec.toNat_inj]
    rfl
  have he1 : unpackExponent (bits x) = -1#_ ↔ field x = 0x7FF := by
    rw [← he, ← BitVec.toNat_inj]
    rfl
  have hone : (1#1 ++ unpackMantissa (bits x)).toNat = fraction x + 0x10000000000000 := by
    rw [BitVec.toNat_append, hm]
    change 2 ^ 52 ||| fraction x = _
    have hlt : fraction x < 2 ^ 52 := Nat.mod_lt _ (by decide)
    rw [Nat.or_comm, Nat.or_two_pow_eq_add_of_lt hlt]
  change UnpackedFloat.unpack Format.binary64 (bits x) = _
  simp only [UnpackedFloat.unpack, hm0, he0, he1, ofBitVec_unpackSign, hm, he]
  split
  · rfl
  · split
    case isTrue hf =>
      split
      · rfl
      · congr
        rw [hf]
        rfl
    case isFalse =>
      congr

/-- A double equals zero exactly when all its bits below the sign are zero. -/
theorem beq_zero_iff (x : Float) : (x == 0) = true ↔ field x = 0 ∧ fraction x = 0 := by
  have hz : (x == 0) = true ↔ ∃ s, x.toModel.unpack = .zero s := by
    change (x.toModel.unpack.compare (.zero .positive) == some .eq) = true ↔ _
    cases x.toModel.unpack with
    | notANumber => simp [UnpackedFloat.compare]
    | infinity s => cases s <;> simp [UnpackedFloat.compare]
    | zero s => simp [UnpackedFloat.compare]
    | finite s m e h => cases s <;> simp [UnpackedFloat.compare]
  rw [hz, unpack_eq]
  by_cases hinf : field x = 0x7FF
  · rw [if_pos hinf]
    split <;> simp [hinf]
  · rw [if_neg hinf]
    by_cases hf : field x = 0
    · rw [if_pos hf]
      split
      · simp [*]
      · simp [*]
    · rw [if_neg hf]
      simp [hf]

/-! ## Doubles as fractions -/

theorem mantissa_ofFloat (x : Float) : (Decimal.Binary.ofFloat x).mantissa =
    if field x = 0 then fraction x else fraction x + 0x10000000000000 := by
  unfold Decimal.Binary.ofFloat
  change (if field x = 0 then _ else _ : Decimal.Binary).mantissa = _
  split <;> rfl

theorem exact_num_eq_zero_iff (x : Float) :
    (Exact.ofFloat x).num = 0 ↔ field x = 0 ∧ fraction x = 0 := by
  have hsize : (Exact.ofFloat x).num = 0 ↔ (Decimal.Binary.ofFloat x).mantissa = 0 := by
    have hden : ∀ n : Nat, Nat.pow 2 n ≠ 0 := fun n => Nat.pos_iff_ne_zero.1 (Nat.two_pow_pos n)
    rw [Rat.num_eq_zero, Exact.ofFloat, Rat.mkRat_eq_zero (hden _)]
    split
    · simp [Int.negOfNat_eq]
    · simp
  rw [hsize, mantissa_ofFloat]
  by_cases hf : field x = 0
  · simp [hf]
  · simp [hf]

/-- The fraction of a double is zero exactly when the double is. -/
theorem isZero_exact (x : Float) : ((Exact.ofFloat x).num == 0) = (x == 0) := by
  rw [Bool.eq_iff_iff, beq_iff_eq, exact_num_eq_zero_iff, beq_zero_iff]

end VariHist.Double
