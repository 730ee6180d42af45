import Mathlib
import VariHist.Proofs.DoubleExact

/-!
# Adding doubles to zero

Zero added to a double gives the double back, bit by bit, unless it is the negative zero.  Sums of
squares are never negative, so that they are not the negative zero either.

* `pack_unpack` — a double is taken apart and packed again unchanged.
* `zero_add_of_ne_zero`, `zero_add_of_positive` — what zero is added to without any change.
* `sign_add`, `sign_mul_self` — squares and their sums have the positive sign.
-/

namespace VariHist.Double

open Float.Model UnpackedFloat

variable {x y : Float}

/-! ## Taking apart and packing -/

theorem toNat_toBitVec_sign (x : Float) :
    (sign x).toBitVec.toNat = x.toBits.toNat / 0x8000000000000000 := by
  have hlt := x.toBits.toNat_lt
  unfold sign
  by_cases h : x.toBits ≥ 0x8000000000000000
  · have h' : 0x8000000000000000 ≤ x.toBits.toNat := UInt64.le_iff_toNat_le.1 h
    rw [if_pos h]
    change 1 = _
    omega
  · have h' : ¬0x8000000000000000 ≤ x.toBits.toNat := fun h' => h (UInt64.le_iff_toNat_le.2 h')
    rw [if_neg h]
    change 0 = _
    omega

theorem toNat_packComponents (s : Sign) (exponent : BitVec 11) (mantissa : BitVec 52) :
    (packComponents Format.binary64 s exponent mantissa).toNat =
      (s.toBitVec.toNat * 2 ^ 11 + exponent.toNat) * 2 ^ 52 + mantissa.toNat := by
  change (s.toBitVec ++ exponent ++ mantissa).toNat = _
  rw [BitVec.toNat_append, ← Nat.shiftLeft_add_eq_or_of_lt mantissa.isLt, BitVec.toNat_append,
    ← Nat.shiftLeft_add_eq_or_of_lt exponent.isLt, Nat.shiftLeft_eq, Nat.shiftLeft_eq]

/-- The parts of a double make up its bits. -/
theorem packComponents_parts {exponent : BitVec 11} {mantissa : BitVec 52}
    (he : exponent.toNat = field x) (hm : mantissa.toNat = fraction x) :
    packComponents Format.binary64 (sign x) exponent mantissa = bits x := by
  apply BitVec.eq_of_toNat_eq
  rw [toNat_packComponents, toNat_toBitVec_sign, he, hm]
  change _ = x.toBits.toNat
  unfold field fraction
  have := x.toBits.toNat_lt
  omega

/-- A double is taken apart and packed again unchanged. -/
theorem pack_unpack (x : Float) : Float.ofModel (.pack x.toModel.unpack) = x := by
  suffices h : UnpackedFloat.pack Format.binary64 x.toModel.unpack = bits x by
    obtain ⟨model⟩ := x
    obtain ⟨word, valid⟩ := model
    have hword : UInt64.ofBitVec (UnpackedFloat.pack Format.binary64
        (Float.Model.unpack ⟨word, valid⟩)) = word := by
      rw [h]
      rfl
    simp only [Float.Model.pack, hword]
  have hfield : field x < 2 ^ 11 := Nat.mod_lt _ (by decide)
  have hfraction : fraction x < 2 ^ 52 := Nat.mod_lt _ (by decide)
  rw [unpack_eq]
  split_ifs with hinf hzero hfield0 hfraction0
  · exact packComponents_parts (hinf ▸ rfl) (hzero ▸ rfl)
  · refine (x.toModel.valid.eq_packedNaN ?_ ?_).symm
    · rw [← BitVec.toNat_inj]
      exact (unpackExponent_toNat x).trans hinf
    · rw [ne_eq, ← BitVec.toNat_inj]
      exact fun h => hzero ((unpackMantissa_toNat x).symm.trans h)
  · exact packComponents_parts (hfield0 ▸ rfl) (hfraction0 ▸ rfl)
  · -- a mantissa that is not normal has no bit in the highest place
    have hlog : (fraction x).log2 + 1 ≠ Format.binary64.mantissaBits := by
      have hlt := (Nat.log2_lt hfraction0).2 hfraction
      change _ ≠ 53
      omega
    simp only [UnpackedFloat.pack]
    rw [if_neg (by decide), if_neg hlog]
    refine packComponents_parts (show 0 = field x from hfield0.symm) ?_
    rw [BitVec.toNat_ofNat]
    exact Nat.mod_eq_of_lt hfraction
  · have hlog : (fraction x + 0x10000000000000).log2 + 1 = Format.binary64.mantissaBits := by
      have hbounds : 2 ^ 52 ≤ fraction x + 0x10000000000000 ∧
          fraction x + 0x10000000000000 < 2 ^ (52 + 1) := by omega
      rw [(Nat.log2_eq_iff (by omega)).2 hbounds]
      rfl
    have hbiased : (Int.ofNat (field x) - 1075 + Format.binary64.exponentBias +
        (Format.binary64.mantissaBitsWithoutImplicit : Nat)).toNat = field x := by
      change (Int.ofNat (field x) - 1075 + 1023 + 52).toNat = field x
      rw [Int.ofNat_eq_natCast]
      omega
    simp only [UnpackedFloat.pack, hbiased]
    rw [if_neg (show ¬2 ^ 11 ≤ field x + 1 by omega), if_pos hlog]
    refine packComponents_parts ?_ ?_
    · rw [BitVec.toNat_ofNat]
      exact Nat.mod_eq_of_lt hfield
    · rw [BitVec.toNat_ofNat]
      omega

/-! ## Zero -/

theorem add_eq (x y : Float) : x + y =
    .ofModel (.pack (UnpackedFloat.add Format.binary64 x.toModel.unpack y.toModel.unpack)) := rfl

/-- Zero adds nothing to what is no zero. -/
theorem zero_add_of_ne_zero (h : (x == 0) = false) : 0 + x = x := by
  have hzero : ∀ s, x.toModel.unpack ≠ .zero s := by
    intro s hs
    have hpositive : (x == 0) = (x.toModel.unpack.compare (.zero .positive) == some .eq) := rfl
    rw [hpositive, hs] at h
    cases h
  have hadd : UnpackedFloat.add Format.binary64 (.zero .positive) x.toModel.unpack =
      x.toModel.unpack := by
    cases hx : x.toModel.unpack with
    | zero s => exact absurd hx (hzero s)
    | _ => rfl
  rw [add_eq]
  change Float.ofModel (.pack (UnpackedFloat.add Format.binary64 (.zero .positive) _)) = x
  rw [hadd, pack_unpack]

/-- Zero adds nothing to what has the positive sign. -/
theorem zero_add_of_positive (h : sign x = .positive) : 0 + x = x := by
  have hadd : UnpackedFloat.add Format.binary64 (.zero .positive) x.toModel.unpack =
      x.toModel.unpack := by
    cases hx : x.toModel.unpack with
    | zero s =>
      rw [unpack_eq, h] at hx
      split_ifs at hx
      rw [← UnpackedFloat.zero.inj hx]
      rfl
    | _ => rfl
  rw [add_eq]
  change Float.ofModel (.pack (UnpackedFloat.add Format.binary64 (.zero .positive) _)) = x
  rw [hadd, pack_unpack]

/-! ## Signs -/

/-- The sign of a double that was taken apart, the positive one for what is not a number. -/
def signOf : UnpackedFloat → Sign
  | .notANumber => .positive
  | .infinity s => s
  | .zero s => s
  | .finite s _ _ _ => s

theorem ofBitVec_toBitVec (s : Sign) : Sign.ofBitVec s.toBitVec = s := by
  cases s <;> rfl

theorem sign_pack (f : UnpackedFloat) : sign (.ofModel (.pack f)) = signOf f := by
  rw [← ofBitVec_unpackSign]
  change Sign.ofBitVec (unpackSign (UnpackedFloat.pack Format.binary64 f)) = signOf f
  cases f with
  | notANumber => rfl
  | infinity s => exact (congrArg _ (unpackSign_packComponents s _ _)).trans (ofBitVec_toBitVec s)
  | zero s => exact (congrArg _ (unpackSign_packComponents s _ _)).trans (ofBitVec_toBitVec s)
  | finite s m e h =>
    simp only [UnpackedFloat.pack]
    split_ifs
    · exact (congrArg _ (unpackSign_packComponents s _ _)).trans (ofBitVec_toBitVec s)
    · exact (congrArg _ (unpackSign_packComponents s _ _)).trans (ofBitVec_toBitVec s)
    · exact (congrArg _ (unpackSign_packComponents s _ _)).trans (ofBitVec_toBitVec s)

theorem signOf_unpack (x : Float) : signOf x.toModel.unpack = sign x := by
  rw [← sign_pack, pack_unpack]

/-- Rounding keeps the sign. -/
theorem signOf_roundWithAccuracy (s : Sign) (m : Nat) (e : Int) (accuracy : Accuracy) :
    signOf (roundWithAccuracy Format.binary64 s m e accuracy) = s := by
  unfold roundWithAccuracy
  dsimp only
  split <;> rfl

/-- A number that is not negative is given the positive sign. -/
theorem signOf_normalize {n : Int} (hn : 0 ≤ n) (e : Int) :
    signOf (UnpackedFloat.normalize Format.binary64 n e .positive) = .positive := by
  unfold UnpackedFloat.normalize
  split
  · rename_i hlt
    exact absurd (compare_lt_iff_lt.1 hlt) (by omega)
  · rfl
  · exact signOf_roundWithAccuracy _ _ _ _

/-- The sum of doubles of positive sign has the positive sign. -/
theorem sign_add (hx : sign x = .positive) (hy : sign y = .positive) :
    sign (x + y) = .positive := by
  rw [add_eq, sign_pack]
  rw [← signOf_unpack] at hx hy
  generalize x.toModel.unpack = f at hx
  generalize y.toModel.unpack = g at hy
  cases f with
  | notANumber => rfl
  | infinity s =>
    obtain rfl : s = .positive := hx
    cases g with
    | infinity s' =>
      obtain rfl : s' = .positive := hy
      rfl
    | _ => rfl
  | zero s =>
    obtain rfl : s = .positive := hx
    cases g with
    | zero s' =>
      obtain rfl : s' = .positive := hy
      rfl
    | _ => exact hy
  | finite s m e h =>
    obtain rfl : s = .positive := hx
    cases g with
    | finite s' m' e' h' =>
      obtain rfl : s' = .positive := hy
      exact signOf_normalize (Int.add_nonneg (Int.natCast_nonneg _) (Int.natCast_nonneg _)) _
    | zero s' => rfl
    | _ => exact hy

/-- A square has the positive sign. -/
theorem sign_mul_self (x : Float) : sign (x * x) = .positive := by
  have hmul : x * x = .ofModel (.pack
    (UnpackedFloat.mul Format.binary64 x.toModel.unpack x.toModel.unpack)) := rfl
  have hself : ∀ s : Sign, s * s = .positive := fun s => by cases s <;> rfl
  rw [hmul, sign_pack]
  cases x.toModel.unpack with
  | notANumber => rfl
  | infinity s => exact hself s
  | zero s => exact hself s
  | finite s m e h => exact (signOf_roundWithAccuracy _ _ _ _).trans (hself s)

end VariHist.Double
