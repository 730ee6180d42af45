import Mathlib
import VariHist.Proofs.Double

/-!
# Doubles that are not rounded

Counts up to `2 ^ 53`, and half less than a count up to `2 ^ 52`, are doubles as they are.

* `round_exact` — rounding keeps a number whose mantissa has at most 53 bits, trailing zeros apart.
* `unpack_pack` — a normal double is packed and taken apart again unchanged.
* `exact_toFloat`, `exact_toFloat_sub_half` — the fractions of `n` and `n - 1/2`.
-/

namespace VariHist.Double

open Float.Model UnpackedFloat

/-! ## Fractions of doubles taken apart -/

theorem mkRat_scaled (n : Int) (e : Int) :
    mkRat (n * (Nat.pow 2 e.toNat : Nat)) (Nat.pow 2 (-e).toNat) = n * 2 ^ e := by
  rw [Rat.mkRat_eq_div]
  obtain ⟨k, rfl | rfl⟩ := e.eq_nat_or_neg
  · simp
  · simp [div_eq_mul_inv]

/-- The fraction of a double is its mantissa with its sign, scaled by its exponent. -/
theorem exact_eq (x : Float) : Exact.ofFloat x =
    ((sign x).apply (Decimal.Binary.ofFloat x).mantissa : Rat) *
      2 ^ (Decimal.Binary.ofFloat x).exponent := by
  rw [← mkRat_scaled, Exact.ofFloat, sign]
  refine congrArg (fun n => mkRat n _) ?_
  by_cases h : x.toBits ≥ 0x8000000000000000
  · rw [if_pos h, if_pos h, Int.negOfNat_eq]
    simp [Sign.apply]
  · rw [if_neg h, if_neg h]
    simp [Sign.apply]

/-- The fraction of a double that was taken apart. -/
theorem exact_of_unpack {x : Float} {s : Sign} {m : Nat} {e : Int} {hm : 0 < m}
    (h : x.toModel.unpack = .finite s m e hm) : Exact.ofFloat x = (s.apply m : Rat) * 2 ^ e := by
  have hparts : Decimal.Binary.ofFloat x = if field x = 0 then ⟨fraction x, -1074, false⟩
    else ⟨fraction x + 0x10000000000000, Int.ofNat (field x) - 1075,
      fraction x = 0 && field x ≠ 1⟩ := rfl
  rw [unpack_eq] at h
  rw [exact_eq, hparts]
  split_ifs at h with h1 h2 h3 h4
  · obtain ⟨rfl, rfl, rfl⟩ := UnpackedFloat.finite.inj h
    rw [if_pos h3]
  · obtain ⟨rfl, rfl, rfl⟩ := UnpackedFloat.finite.inj h
    rw [if_neg h3]

/-! ## Rounding -/

theorem targetExponent_eq {m : Nat} {e : Int} (h : -1022 ≤ m.log2 + e) :
    Format.binary64.targetExponent (totalExponent m e) = m.log2 + e - 52 := by
  simp only [Format.targetExponent, totalExponent, Format.mantissaBits, Format.minExponent]
  omega

theorem log2_mul_two_pow {m : Nat} (hm : m ≠ 0) (n : Nat) : (m * 2 ^ n).log2 = m.log2 + n := by
  have hpos : m * 2 ^ n ≠ 0 := Nat.mul_ne_zero hm (Nat.two_pow_pos n).ne'
  obtain ⟨hle, hlt⟩ := (Nat.log2_eq_iff hm).1 rfl
  refine (Nat.log2_eq_iff hpos).2 ⟨?_, ?_⟩
  · rw [Nat.pow_add]
    exact Nat.mul_le_mul_right _ hle
  · rw [Nat.add_right_comm, Nat.pow_add]
    exact Nat.mul_lt_mul_of_pos_right hlt (Nat.two_pow_pos n)

theorem repeat_shiftRightOne (m n : Nat) :
    n.repeat ExtendedMantissa.shiftRightOne ⟨m * 2 ^ n, false, false⟩ = ⟨m, false, false⟩ := by
  induction n generalizing m with
  | zero => simp [Nat.repeat]
  | succ n ih =>
    have hstep := ih (m * 2)
    rw [Nat.mul_assoc, ← Nat.pow_succ'] at hstep
    rw [Nat.repeat, hstep]
    simp [ExtendedMantissa.shiftRightOne]

/-- Trailing zeros are shifted out without a trace. -/
theorem shiftToTargetExponent_eq {m n : Nat} {e : Int} (hm : m.log2 = 52) (hpos : m ≠ 0)
    (h : -1074 ≤ e) :
    shiftToTargetExponent Format.binary64 (m * 2 ^ n) (e - n) .exact = (⟨m, false, false⟩, e) := by
  have hlog : (m * 2 ^ n).log2 = 52 + n := by
    rw [log2_mul_two_pow hpos, hm]
  have htarget := targetExponent_eq (m := m * 2 ^ n) (e := e - n) (by rw [hlog]; push_cast; omega)
  have hamount : (((m * 2 ^ n).log2 : Int) + (e - n) - 52 - (e - n)).toNat = n := by
    rw [hlog]
    push_cast
    omega
  simp only [shiftToTargetExponent, shiftToExponent, htarget, hamount]
  refine Prod.ext ?_ (by simp)
  exact repeat_shiftRightOne m n

/-- A mantissa of 53 bits is kept, trailing zeros apart. -/
theorem roundWithAccuracy_eq {s : Sign} {m n : Nat} {e : Int} (hm : m.log2 = 52) (hpos : 0 < m)
    (h : -1074 ≤ e) :
    roundWithAccuracy Format.binary64 s (m * 2 ^ n) (e - n) .exact = .finite s m e hpos := by
  have hagain := shiftToTargetExponent_eq (n := 0) hm hpos.ne' h
  rw [Nat.pow_zero, Nat.mul_one, Nat.cast_zero, sub_zero] at hagain
  rw [roundWithAccuracy, shiftToTargetExponent_eq hm hpos.ne' h]
  simp only [ExtendedMantissa.roundedMantissa, ExtendedMantissa.accuracy,
    Accuracy.roundToNearestEven, hagain]
  rw [dif_neg hpos.ne']

/-- Rounding keeps a number whose mantissa has at most 53 bits, trailing zeros apart. -/
theorem round_exact {s : Sign} {q j : Nat} {e : Int} (hq : 0 < q) (hlog : q.log2 ≤ 52)
    (h : -1022 ≤ q.log2 + j + e) :
    round Format.binary64 s (q * 2 ^ j) e =
      .finite s (q * 2 ^ (52 - q.log2)) (e + j + q.log2 - 52)
        (Nat.mul_pos hq (Nat.two_pow_pos _)) := by
  have hall : (q * 2 ^ j).log2 = q.log2 + j := log2_mul_two_pow hq.ne' _
  have hnormal : (q * 2 ^ (52 - q.log2)).log2 = 52 := by
    rw [log2_mul_two_pow hq.ne' _]
    omega
  have htarget := targetExponent_eq (m := q * 2 ^ j) (e := e) (by rw [hall]; push_cast; omega)
  have hround := fun n => roundWithAccuracy_eq (s := s) (n := n) (e := e + j + q.log2 - 52) hnormal
    (Nat.mul_pos hq (Nat.two_pow_pos _)) (by omega)
  unfold UnpackedFloat.round decreaseExponent
  rw [htarget, hall]
  dsimp only
  by_cases hshort : q.log2 + j ≤ 52
  · have hamount : (e - (((q.log2 + j : Nat) : Int) + e - 52)).toNat = 52 - (q.log2 + j) := by
      push_cast
      omega
    have hmantissa : (q * 2 ^ j) <<< (52 - (q.log2 + j)) = q * 2 ^ (52 - q.log2) * 2 ^ 0 := by
      rw [Nat.shiftLeft_eq, Nat.mul_assoc, ← Nat.pow_add, Nat.pow_zero, Nat.mul_one]
      congr 2
      omega
    have hexponent : e - ((52 - (q.log2 + j) : Nat) : Int) =
        e + j + q.log2 - 52 - ((0 : Nat) : Int) := by omega
    rw [hamount, hmantissa, hexponent, hround]
  · have hamount : (e - (((q.log2 + j : Nat) : Int) + e - 52)).toNat = 0 := by
      push_cast
      omega
    have hmantissa : (q * 2 ^ j) <<< 0 =
        q * 2 ^ (52 - q.log2) * 2 ^ (q.log2 + j - 52) := by
      rw [Nat.shiftLeft_zero, Nat.mul_assoc, ← Nat.pow_add]
      congr 2
      omega
    have hexponent : e - ((0 : Nat) : Int) =
        e + j + q.log2 - 52 - ((q.log2 + j - 52 : Nat) : Int) := by omega
    rw [hamount, hmantissa, hexponent, hround]

/-! ## Packing -/

theorem unpackSign_packComponents (s : Sign) (exponent : BitVec 11) (mantissa : BitVec 52) :
    unpackSign (packComponents Format.binary64 s exponent mantissa) = s.toBitVec := by
  ext i hi
  have htop : (s.toBitVec ++ exponent ++ mantissa).getLsbD (63 + i) = s.toBitVec[i] := by
    rw [BitVec.getLsbD_append, if_neg (by omega), BitVec.getLsbD_append, if_neg (by omega),
      ← BitVec.getLsbD_eq_getElem hi]
    congr 1
    omega
  rw [← htop]
  simp [unpackSign, packComponents]

/-- A normal double is packed and taken apart again unchanged. -/
theorem unpack_pack {s : Sign} {m : Nat} {e : Int} (hm : m.log2 = 52) (hpos : 0 < m)
    (hlo : -1074 ≤ e) (hhi : e ≤ 971) :
    unpack Format.binary64 (pack Format.binary64 (.finite s m e hpos)) = .finite s m e hpos := by
  have hm' : 2 ^ 52 ≤ m ∧ m < 2 ^ 53 := (Nat.log2_eq_iff hpos.ne').1 hm
  have hbiased : (e + Format.binary64.exponentBias +
      (Format.binary64.mantissaBitsWithoutImplicit : Nat)).toNat = (e + 1075).toNat := by
    change (e + 1023 + 52).toNat = _
    omega
  have hfield : (BitVec.ofNat 11 (e + 1075).toNat).toNat = (e + 1075).toNat := by
    rw [BitVec.toNat_ofNat]
    exact Nat.mod_eq_of_lt (by omega)
  have hpack : pack Format.binary64 (.finite s m e hpos) =
      packComponents Format.binary64 s (BitVec.ofNat 11 (e + 1075).toNat) (BitVec.ofNat 52 m) := by
    simp only [UnpackedFloat.pack, hbiased, hm]
    rw [if_neg (show ¬2 ^ 11 ≤ (e + 1075).toNat + 1 by omega)]
    exact if_pos rfl
  have htop : BitVec.ofNat 11 (e + 1075).toNat ≠ -1#_ := fun h => by
    have := congrArg BitVec.toNat h
    rw [hfield] at this
    change (e + 1075).toNat = 2047 at this
    omega
  have hlow : BitVec.ofNat 11 (e + 1075).toNat ≠ 0#_ := fun h => by
    have := congrArg BitVec.toNat h
    rw [hfield] at this
    change (e + 1075).toNat = 0 at this
    omega
  have hmantissa : (1#1 ++ BitVec.ofNat 52 m).toNat = m := by
    rw [BitVec.toNat_append, BitVec.toNat_ofNat]
    change 2 ^ 52 ||| m % 2 ^ 52 = m
    rw [Nat.or_comm, Nat.or_two_pow_eq_add_of_lt (Nat.mod_lt _ (Nat.two_pow_pos _))]
    omega
  have hsign : Sign.ofBitVec s.toBitVec = s := by cases s <;> rfl
  rw [hpack, UnpackedFloat.unpack]
  simp only [unpackMantissa_packComponents, unpackExponent_packComponents,
    unpackSign_packComponents, hsign]
  rw [if_neg htop, if_neg hlow]
  congr 1
  rw [hfield]
  change ((e + 1075).toNat : Int) - (1023 + 52) = e
  omega

/-- A double that came about by rounding a number that is exact, taken apart again. -/
theorem unpack_pack_round {s : Sign} {q j : Nat} {e : Int} (hq : 0 < q) (hlog : q.log2 ≤ 52)
    (hlo : -1022 ≤ q.log2 + j + e) (hhi : q.log2 + j + e ≤ 1023) :
    (Float.ofModel (.pack (UnpackedFloat.round Format.binary64 s (q * 2 ^ j) e))).toModel.unpack =
      .finite s (q * 2 ^ (52 - q.log2)) (e + j + q.log2 - 52)
        (Nat.mul_pos hq (Nat.two_pow_pos _)) := by
  have hnormal : (q * 2 ^ (52 - q.log2)).log2 = 52 := by
    rw [log2_mul_two_pow hq.ne' _]
    omega
  rw [round_exact hq hlog hlo]
  exact unpack_pack hnormal _ (by omega) (by omega)

/-- Its fraction is the number. -/
theorem exact_pack_round {s : Sign} {q j : Nat} {e : Int} (hq : 0 < q) (hlog : q.log2 ≤ 52)
    (hlo : -1022 ≤ q.log2 + j + e) (hhi : q.log2 + j + e ≤ 1023) :
    Exact.ofFloat (.ofModel (.pack (UnpackedFloat.round Format.binary64 s (q * 2 ^ j) e))) =
      (s.apply q : Rat) * 2 ^ (e + j) := by
  have happly : ((s.apply (q * 2 ^ (52 - q.log2) : Nat) : Int) : Rat) =
      s.apply q * 2 ^ ((52 - q.log2 : Nat) : Int) := by
    cases s <;> simp [Sign.apply]
  have hexponent : ((52 - q.log2 : Nat) : Int) + (e + j + q.log2 - 52) = e + j := by omega
  rw [exact_of_unpack (unpack_pack_round hq hlog hlo hhi), happly, mul_assoc,
    ← zpow_add₀ (by decide), hexponent]

/-! ## Counts -/

theorem normalize_eq {n : Nat} (hn : 0 < n) (e : Int) (z : Sign) :
    UnpackedFloat.normalize Format.binary64 n e z =
      UnpackedFloat.round Format.binary64 .positive n e := by
  have hcompare : compare (n : Int) 0 = .gt := compare_gt_iff_gt.2 (by omega)
  unfold UnpackedFloat.normalize
  rw [hcompare]
  rfl

theorem toFloat_eq {n : Nat} (hn : 0 < n) (h : n < 2 ^ 64) : n.toUInt64.toFloat =
    .ofModel (.pack (UnpackedFloat.round Format.binary64 .positive (n * 2 ^ 0) 0)) := by
  have hword : n.toUInt64.toNat = n := UInt64.toNat_ofNat_of_lt' h
  have hofNat : UnpackedFloat.ofUInt64 Format.binary64 n.toUInt64 =
      UnpackedFloat.normalize Format.binary64 n.toUInt64.toNat 0 .positive := rfl
  rw [hword, normalize_eq hn] at hofNat
  rw [Nat.pow_zero, Nat.mul_one, ← hofNat]
  rfl

theorem log2_le {n k : Nat} (hn : 0 < n) (h : n < 2 ^ (k + 1)) : n.log2 ≤ k :=
  Nat.lt_succ_iff.1 ((Nat.log2_lt hn.ne').2 h)

/-- Counts up to `2 ^ 53` are doubles as they are. -/
theorem exact_toFloat {n : Nat} (h : n < 2 ^ 53) : Exact.ofFloat n.toUInt64.toFloat = n := by
  rcases Nat.eq_zero_or_pos n with rfl | hn
  · decide +kernel
  · have hlog := log2_le hn h
    rw [toFloat_eq hn (h.trans (by decide)), exact_pack_round hn hlog (by omega) (by omega)]
    simp [Sign.apply]

theorem unpack_half : (0.5 : Float).toModel.unpack =
    .finite .positive (2 ^ 52) (-53) (Nat.two_pow_pos 52) := by
  rw [unpack_eq]
  have hfield : field 0.5 = 1022 := by decide +kernel
  have hfraction : fraction 0.5 = 0 := by decide +kernel
  have hsign : sign 0.5 = .positive := if_neg (by decide +kernel)
  simp only [hfield, hfraction, hsign]
  rfl

/-- Half less than a count, before it is rounded. -/
theorem toFloat_sub_half_eq {n : Nat} (hn : 0 < n) (h : n ≤ 2 ^ 52) :
    n.toUInt64.toFloat - 0.5 = .ofModel (.pack
      (UnpackedFloat.round Format.binary64 .positive ((2 * n - 1) * 2 ^ 52) (-53))) := by
  have hlog := log2_le (k := 52) hn (by omega)
  change Float.ofModel (.pack (UnpackedFloat.sub Format.binary64
    n.toUInt64.toFloat.toModel.unpack (0.5 : Float).toModel.unpack)) = _
  rw [toFloat_eq hn (by omega), unpack_pack_round hn hlog (by omega) (by omega), unpack_half]
  have hamount : (0 + ((0 : Nat) : Int) + n.log2 - 52 - -53).toNat = n.log2 + 1 := by omega
  have hmin : min (0 + ((0 : Nat) : Int) + n.log2 - 52) (-53) = -53 := by omega
  have hscale : n * 2 ^ (52 - n.log2) * 2 ^ (n.log2 + 1) = n * 2 ^ 53 := by
    rw [Nat.mul_assoc, ← Nat.pow_add]
    congr 2
    omega
  have hmantissa : ((n * 2 ^ 53 : Nat) : Int) - ((2 ^ 52 : Nat) : Int) =
      (((2 * n - 1) * 2 ^ 52 : Nat) : Int) := by
    omega
  rw [← normalize_eq (Nat.mul_pos (by omega) (Nat.two_pow_pos 52)) _ .positive, ← hmantissa,
    ← hscale]
  unfold UnpackedFloat.sub decreaseExponent
  dsimp only
  rw [hmin, hamount, Nat.shiftLeft_eq]
  rfl

/-- Half less than a count up to `2 ^ 52` is a double as it is. -/
theorem exact_toFloat_sub_half {n : Nat} (hn : 0 < n) (h : n ≤ 2 ^ 52) :
    Exact.ofFloat (n.toUInt64.toFloat - 0.5) = n - 1 / 2 := by
  have hlog := log2_le (n := 2 * n - 1) (k := 52) (by omega) (by omega)
  rw [toFloat_sub_half_eq hn h, exact_pack_round (by omega) hlog (by omega) (by omega)]
  have hcast : ((2 * n - 1 : Nat) : Rat) = 2 * n - 1 := by
    rw [Nat.cast_sub (by omega)]
    push_cast
    rfl
  have hpow : (2 : Rat) ^ (-53 + ((52 : Nat) : Int)) = 1 / 2 := by norm_num
  rw [hpow, Sign.apply, Int.cast_natCast, hcast]
  ring

theorem exact_neg_half : Exact.ofFloat (-0.5) = -(1 / 2) := by
  decide +kernel

end VariHist.Double
