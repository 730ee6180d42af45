import Mathlib
import VariHist.Proofs.DoubleOrder

/-!
# Doubles that are rounded

A product or a quotient that lies well within the range of doubles is rounded by less than one part
in `2 ^ 52`.  That is enough to tell its whole part when it lies near the middle between two counts.

* `Normal` — a positive double that uses all bits of its mantissa, with its fraction.
* `normal_of_round` — rounding, with the bound on what it changes; `Normal.mul` and `Normal.div`.
* `exists_normal_toFloat`, `Normal.sub_half` — a count, and half less, however it is rounded.
* `Normal.toUInt64_eq` — the whole part of such a double.
-/

namespace VariHist.Double

open Float.Model UnpackedFloat

/-- A positive double that uses all 53 bits of its mantissa, and the fraction that it is. -/
def Normal (x : Float) (v : Rat) : Prop :=
  ∃ (m : Nat) (e : Int) (hm : 0 < m), x.toModel.unpack = .finite .positive m e hm ∧
    m.log2 = 52 ∧ v = m * 2 ^ e

variable {x y : Float} {v w : Rat}

/-! ## The highest bit -/

/-- The position of the highest bit bounds a number from both sides. -/
theorem log2_bounds {m : Nat} (hm : 0 < m) : 2 ^ m.log2 ≤ m ∧ m < 2 ^ (m.log2 + 1) :=
  (Nat.log2_eq_iff hm.ne').1 rfl

theorem bounds_of_log2 {m : Nat} (hm : 0 < m) (h : m.log2 = 52) :
    (2 : Rat) ^ 52 ≤ m ∧ (m : Rat) < 2 ^ 53 := by
  have hb := log2_bounds hm
  rw [h] at hb
  exact ⟨by exact_mod_cast hb.1, by exact_mod_cast hb.2⟩

/-! ## Comparison -/

theorem Normal.isFinite (h : Normal x v) : x.isFinite = true := by
  obtain ⟨m, e, hm, hunpack, -, -⟩ := h
  change x.toModel.unpack.isFinite = true
  rw [hunpack]
  rfl

theorem Normal.exact (h : Normal x v) : Exact.ofFloat x = v := by
  obtain ⟨m, e, hm, hunpack, -, rfl⟩ := h
  rw [exact_of_unpack hunpack]
  rfl

theorem Normal.pos (h : Normal x v) : 0 < v := by
  obtain ⟨m, e, hm, -, -, rfl⟩ := h
  exact mul_pos (Nat.cast_pos.2 hm) (two_zpow_pos e)

/-- Doubles with all bits in their mantissas compare like their fractions. -/
theorem Normal.lt_iff (hx : Normal x v) (hy : Normal y w) : x < y ↔ v < w := by
  rw [lt_iff_exact hx.isFinite hy.isFinite, hx.exact, hy.exact]

theorem Normal.zero_lt (h : Normal x v) : 0 < x := by
  have hzero : Exact.ofFloat 0 = 0 := by decide +kernel
  rw [lt_iff_exact (by decide +kernel) h.isFinite, hzero, h.exact]
  exact h.pos

theorem Normal.not_le_neg_half (h : Normal x v) : ¬x ≤ -0.5 := by
  rw [le_iff_exact h.isFinite (by decide +kernel), exact_neg_half, h.exact, not_le]
  linarith [h.pos]

theorem Normal.not_lt_neg_half (h : Normal x v) : ¬x < -0.5 := by
  rw [lt_iff_exact h.isFinite (by decide +kernel), exact_neg_half, h.exact, not_lt]
  linarith [h.pos]

/-! ## Doubles that are not rounded -/

/-- A number with at most 53 bits, trailing zeros apart, is a double as it is. -/
theorem normal_pack_round {q j : Nat} {e : Int} (hq : 0 < q) (hlog : q.log2 ≤ 52)
    (hlo : -1022 ≤ q.log2 + j + e) (hhi : q.log2 + j + e ≤ 1023) :
    Normal (.ofModel (.pack (UnpackedFloat.round Format.binary64 .positive (q * 2 ^ j) e)))
      (q * 2 ^ (e + j)) := by
  have hnormal : (q * 2 ^ (52 - q.log2)).log2 = 52 := by
    rw [log2_mul_two_pow hq.ne']
    omega
  refine ⟨_, _, _, unpack_pack_round hq hlog hlo hhi, hnormal, ?_⟩
  have hpow := two_zpow_add_nat (e + j + q.log2 - 52) (52 - q.log2)
  rw [show e + j + q.log2 - 52 + (52 - q.log2 : Nat) = e + j by omega] at hpow
  rw [hpow]
  push_cast
  ring

theorem normal_toFloat {n : Nat} (hn : 0 < n) (h : n < 2 ^ 53) : Normal n.toUInt64.toFloat n := by
  have hround := normal_pack_round (j := 0) (e := 0) hn (log2_le hn h) (by omega)
    (by have := log2_le hn h; omega)
  rw [← toFloat_eq hn (h.trans (by decide))] at hround
  simpa using hround

theorem normal_toFloat_sub_half {n : Nat} (hn : 0 < n) (h : n ≤ 2 ^ 52) :
    Normal (n.toUInt64.toFloat - 0.5) ((2 * n - 1 : Nat) / 2) := by
  have hlog := log2_le (n := 2 * n - 1) (k := 52) (by omega) (by omega)
  have hround := normal_pack_round (j := 52) (e := -53) (by omega) hlog (by omega) (by omega)
  rw [← toFloat_sub_half_eq hn h] at hround
  have hpow : (2 : Rat) ^ (-53 + ((52 : Nat) : Int)) = 1 / 2 := by norm_num
  rwa [hpow, mul_one_div] at hround

theorem unpack_neg_half : (-0.5 : Float).toModel.unpack =
    .finite .negative (2 ^ 52) (-53) (Nat.two_pow_pos 52) := by
  rw [unpack_eq]
  have hfield : field (-0.5) = 1022 := by decide +kernel
  have hfraction : fraction (-0.5) = 0 := by decide +kernel
  have hsign : sign (-0.5) = .negative := if_pos (by decide +kernel)
  simp only [hfield, hfraction, hsign]
  rfl

theorem normal_half : Normal 0.5 (1 / 2) :=
  ⟨2 ^ 52, -53, _, unpack_half, by decide +kernel, by norm_num⟩

/-- Half more than a number of halves is a double as it is. -/
theorem Normal.sub_neg_half {q : Nat} (hx : Normal x (q / 2)) (hq : q < 2 ^ 52) :
    Normal (x - -0.5) ((q + 1 : Nat) / 2) := by
  obtain ⟨m, e, hm, hunpack, hlog, hv⟩ := hx
  have hb := bounds_of_log2 hm hlog
  have hqpos : 0 < q := by
    have hpos : (0 : Rat) < q / 2 := hv ▸ mul_pos (Nat.cast_pos.2 hm) (two_zpow_pos e)
    exact Nat.cast_pos.1 (by linarith : (0 : Rat) < q)
  have he : -53 ≤ e := by
    by_contra hsmall
    have hle := two_zpow_le (show e ≤ -54 by omega)
    have hone : (1 : Rat) ≤ q := by exact_mod_cast hqpos
    have hprod : (m : Rat) * 2 ^ e < 2 ^ 53 * 2 ^ (-54 : Int) :=
      mul_lt_mul hb.2 hle (two_zpow_pos e) (by positivity)
    have hvalue : (2 : Rat) ^ 53 * 2 ^ (-54 : Int) = 1 / 2 := by norm_num
    rw [hvalue, ← hv] at hprod
    linarith
  obtain ⟨n, rfl⟩ : ∃ n : Nat, e = -53 + n := ⟨(e + 53).toNat, by omega⟩
  have hscaled : m * 2 ^ n = q * 2 ^ 52 := by
    rw [two_zpow_add_nat] at hv
    have hcast : (m : Rat) * 2 ^ n = q * 2 ^ 52 := by
      have hpow : (2 : Rat) ^ (-53 : Int) = 1 / 2 ^ 53 := by norm_num
      rw [hpow] at hv
      linarith
    exact_mod_cast hcast
  have hsum : x - -0.5 = .ofModel (.pack
      (UnpackedFloat.round Format.binary64 .positive ((q + 1) * 2 ^ 52) (-53))) := by
    change Float.ofModel (.pack (UnpackedFloat.sub Format.binary64 x.toModel.unpack
      (-0.5 : Float).toModel.unpack)) = _
    have hmin : min (-53 + (n : Int)) (-53) = -53 := by omega
    have hamount : (-53 + (n : Int) - -53).toNat = n := by omega
    have hmantissa : ((q * 2 ^ 52 : Nat) : Int) - -((2 ^ 52 : Nat) : Int) =
        (((q + 1) * 2 ^ 52 : Nat) : Int) := by
      omega
    rw [hunpack, unpack_neg_half,
      ← normalize_eq (Nat.mul_pos (Nat.succ_pos q) (Nat.two_pow_pos 52)) _ .positive, ← hmantissa,
      ← hscaled]
    unfold UnpackedFloat.sub decreaseExponent
    dsimp only
    rw [hmin, hamount, Nat.shiftLeft_eq]
    rfl
  have hlog' := log2_le (n := q + 1) (k := 52) (by omega) (by omega)
  have hround := normal_pack_round (j := 52) (e := -53) (q := q + 1) (Nat.succ_pos q) hlog'
    (by omega) (by omega)
  rw [← hsum] at hround
  have hpow : (2 : Rat) ^ (-53 + ((52 : Nat) : Int)) = 1 / 2 := by norm_num
  rwa [hpow, mul_one_div] at hround

/-! ## Rounding -/

theorem roundedMantissa_cases (em : ExtendedMantissa) :
    em.roundedMantissa = em.mantissa ∨ em.roundedMantissa = em.mantissa + 1 := by
  obtain ⟨m, round, sticky⟩ := em
  cases round with
  | false =>
    cases sticky with
    | false => exact .inl rfl
    | true => exact .inl rfl
  | true =>
    cases sticky with
    | false =>
      -- a tie goes to the even neighbour
      show m + m % 2 = m ∨ m + m % 2 = m + 1
      omega
    | true => exact .inr rfl

theorem mantissa_repeat_shiftRightOne (em : ExtendedMantissa) (n : Nat) :
    (n.repeat ExtendedMantissa.shiftRightOne em).mantissa = em.mantissa / 2 ^ n := by
  induction n with
  | zero => simp [Nat.repeat]
  | succ n ih =>
    rw [Nat.repeat, ExtendedMantissa.shiftRightOne, ih, Nat.div_div_eq_div_mul, Nat.pow_succ]

theorem roundWithAccuracy_of_shift {s : Sign} {m r n : Nat} {e f : Int} {accuracy : Accuracy}
    {em : ExtendedMantissa}
    (hshift : shiftToTargetExponent Format.binary64 m e accuracy = (em, f))
    (hr : em.roundedMantissa = r * 2 ^ n) (hlog : r.log2 = 52) (hpos : 0 < r)
    (h : -1074 ≤ f + n) :
    roundWithAccuracy Format.binary64 s m e accuracy = .finite s r (f + n) hpos := by
  have hagain := shiftToTargetExponent_eq (n := n) hlog hpos.ne' h
  rw [show f + n - n = f by omega] at hagain
  rw [roundWithAccuracy, hshift]
  simp only [hr, hagain]
  rw [dif_neg hpos.ne']

/-- Rounding cuts a number down to 53 bits, and then adds one or does not. -/
theorem roundWithAccuracy_cases {m j : Nat} {e : Int} (s : Sign) (accuracy : Accuracy)
    (hpos : 0 < m) (hlog : m.log2 = 52 + j) (hlo : -1074 ≤ e + j) :
    ∃ (m' n : Nat) (hm' : 0 < m'), roundWithAccuracy Format.binary64 s m e accuracy =
        .finite s m' (e + j + n) hm' ∧ m'.log2 = 52 ∧ n ≤ 1 ∧
      (m' * 2 ^ n = m / 2 ^ j ∨ m' * 2 ^ n = m / 2 ^ j + 1) := by
  have htarget := targetExponent_eq (m := m) (e := e) (by omega)
  have hamount : ((m.log2 : Int) + e - 52 - e).toNat = j := by omega
  obtain ⟨em, hem, hshift⟩ : ∃ em : ExtendedMantissa, em.mantissa = m / 2 ^ j ∧
      shiftToTargetExponent Format.binary64 m e accuracy = (em, e + j) := by
    refine ⟨j.repeat ExtendedMantissa.shiftRightOne (.ofMantissaAndAccuracy m accuracy), ?_, ?_⟩
    · rw [mantissa_repeat_shiftRightOne]
      cases accuracy with
      | exact => rfl
      | inexact place => cases place <;> rfl
    · simp only [shiftToTargetExponent, shiftToExponent, htarget, hamount]
      rfl
  have hbounds := log2_bounds hpos
  rw [hlog, Nat.pow_add, Nat.add_right_comm, Nat.pow_add] at hbounds
  have hlow : 2 ^ 52 ≤ m / 2 ^ j := (Nat.le_div_iff_mul_le (Nat.two_pow_pos j)).2 hbounds.1
  have hhigh : m / 2 ^ j < 2 ^ 53 := (Nat.div_lt_iff_lt_mul (Nat.two_pow_pos j)).2 hbounds.2
  have hrounded := roundedMantissa_cases em
  rw [hem] at hrounded
  by_cases hover : em.roundedMantissa = 2 ^ 53
  · -- one more was added to a mantissa of ones
    refine ⟨2 ^ 52, 1, Nat.two_pow_pos 52, ?_, by decide +kernel, le_refl 1, ?_⟩
    · exact roundWithAccuracy_of_shift hshift (hover.trans (by decide)) (by decide +kernel) _
        (by omega)
    · rw [hover] at hrounded
      exact hrounded
  · have hr : 2 ^ 52 ≤ em.roundedMantissa ∧ em.roundedMantissa < 2 ^ 53 := by omega
    have hpos' : 0 < em.roundedMantissa := by omega
    have hlog' : em.roundedMantissa.log2 = 52 := (Nat.log2_eq_iff hpos'.ne').2 hr
    refine ⟨em.roundedMantissa, 0, hpos', ?_, hlog', by omega, ?_⟩
    · exact roundWithAccuracy_of_shift hshift (by simp) hlog' hpos' (by omega)
    · simpa using hrounded

/-- A number that lies between two neighbours is rounded by less than one part in `2 ^ 52`. -/
theorem normal_of_round {m : Nat} {e : Int} (accuracy : Accuracy) (hpos : 0 < m)
    (hlog : 52 ≤ m.log2) (hv : m * 2 ^ e ≤ v) (hv' : v ≤ (m + 1) * 2 ^ e)
    (hlo : (2 : Rat) ^ (-200 : Int) ≤ v) (hhi : v ≤ 2 ^ (200 : Int)) :
    ∃ w, Normal (.ofModel (.pack (roundWithAccuracy Format.binary64 .positive m e accuracy))) w ∧
      |w - v| * 2 ^ 52 ≤ v := by
  obtain ⟨j, hj⟩ : ∃ j, m.log2 = 52 + j := ⟨m.log2 - 52, by omega⟩
  have hbounds := log2_bounds hpos
  have hrange : -201 ≤ m.log2 + e ∧ m.log2 + e ≤ 200 := by
    constructor
    · have hlt : v ≤ 2 ^ (e + (m.log2 + 1 : Nat)) := by
        rw [two_zpow_add_nat]
        refine hv'.trans (mul_le_mul_of_nonneg_right ?_ (two_zpow_pos e).le)
        exact_mod_cast hbounds.2
      have hexp := (zpow_le_zpow_iff_right₀ (by decide)).1 (hlo.trans hlt)
      push_cast at hexp
      omega
    · have hle : (2 : Rat) ^ (e + (m.log2 : Nat)) ≤ v := by
        rw [two_zpow_add_nat]
        refine le_trans (mul_le_mul_of_nonneg_right ?_ (two_zpow_pos e).le) hv
        exact_mod_cast hbounds.1
      have hexp := (zpow_le_zpow_iff_right₀ (by decide)).1 (hle.trans hhi)
      omega
  obtain ⟨m', n, hm', hround, hlog', hn, hvalue⟩ :=
    roundWithAccuracy_cases .positive accuracy hpos hj (e := e) (by omega)
  refine ⟨m' * 2 ^ (e + j + n), ⟨m', e + j + n, hm', ?_, hlog', rfl⟩, ?_⟩
  · rw [hround]
    exact unpack_pack hlog' hm' (by omega) (by omega)
  · -- both lie between the cut number and the next one
    have hu := two_zpow_pos (e + j)
    have hcut : ((m / 2 ^ j : Nat) : Rat) * 2 ^ (e + j) ≤ v := by
      rw [two_zpow_add_nat, ← mul_assoc]
      refine le_trans (mul_le_mul_of_nonneg_right ?_ (two_zpow_pos e).le) hv
      exact_mod_cast Nat.div_mul_le_self m (2 ^ j)
    have hnext : v ≤ ((m / 2 ^ j : Nat) + 1) * 2 ^ (e + j) := by
      rw [two_zpow_add_nat, ← mul_assoc]
      refine hv'.trans (mul_le_mul_of_nonneg_right ?_ (two_zpow_pos e).le)
      exact_mod_cast Nat.lt_mul_of_div_lt (Nat.lt_succ_self (m / 2 ^ j)) (Nat.two_pow_pos j)
    have hlarge : (2 : Rat) ^ 52 ≤ (m / 2 ^ j : Nat) := by
      have hlow : 2 ^ 52 ≤ m / 2 ^ j := by
        rw [Nat.le_div_iff_mul_le (Nat.two_pow_pos j), ← Nat.pow_add, ← hj]
        exact hbounds.1
      exact_mod_cast hlow
    have hresult : (m' : Rat) * 2 ^ (e + j + n) = (m / 2 ^ j : Nat) * 2 ^ (e + j) ∨
        (m' : Rat) * 2 ^ (e + j + n) = ((m / 2 ^ j : Nat) + 1) * 2 ^ (e + j) := by
      rw [two_zpow_add_nat (e + j) n, ← mul_assoc]
      rcases hvalue with h | h
      · exact .inl (congrArg (· * _) (by exact_mod_cast h))
      · exact .inr (congrArg (· * _) (by exact_mod_cast h))
    have hdiff : |(m' : Rat) * 2 ^ (e + j + n) - v| ≤ 2 ^ (e + j) := by
      rw [abs_le]
      rcases hresult with h | h
      · rw [h]
        constructor <;> linarith
      · rw [h]
        constructor <;> linarith
    calc |(m' : Rat) * 2 ^ (e + j + n) - v| * 2 ^ 52 ≤ 2 ^ (e + j) * 2 ^ 52 :=
          mul_le_mul_of_nonneg_right hdiff (by positivity)
      _ ≤ (m / 2 ^ j : Nat) * 2 ^ (e + j) := by
          rw [mul_comm]
          exact mul_le_mul_of_nonneg_right hlarge hu.le
      _ ≤ v := hcut

/-- A product is rounded by less than one part in `2 ^ 52`. -/
theorem Normal.mul (hx : Normal x v) (hy : Normal y w) (hlo : (2 : Rat) ^ (-200 : Int) ≤ v * w)
    (hhi : v * w ≤ 2 ^ (200 : Int)) :
    ∃ u, Normal (x * y) u ∧ |u - v * w| * 2 ^ 52 ≤ v * w := by
  obtain ⟨m, e, hm, hunpack, hlog, rfl⟩ := hx
  obtain ⟨m', e', hm', hunpack', hlog', rfl⟩ := hy
  have hproduct : x * y = .ofModel (.pack
      (roundWithAccuracy Format.binary64 .positive (m * m') (e + e') .exact)) := by
    change Float.ofModel (.pack (UnpackedFloat.mul Format.binary64 x.toModel.unpack
      y.toModel.unpack)) = _
    rw [hunpack, hunpack']
    rfl
  have hpos : 0 < m * m' := Nat.mul_pos hm hm'
  have hbits : 52 ≤ (m * m').log2 := by
    rw [Nat.le_log2 hpos.ne', ← hlog]
    exact (log2_bounds hm).1.trans (Nat.le_mul_of_pos_right m hm')
  have hvalue : (m : Rat) * 2 ^ e * (m' * 2 ^ e') = (m * m' : Nat) * 2 ^ (e + e') := by
    rw [zpow_add₀ (by decide)]
    push_cast
    ring
  rw [hvalue] at hlo hhi ⊢
  rw [hproduct]
  refine normal_of_round .exact hpos hbits le_rfl ?_ hlo hhi
  exact mul_le_mul_of_nonneg_right (by linarith) (two_zpow_pos _).le

/-- A quotient is rounded by less than one part in `2 ^ 52`. -/
theorem Normal.div (hx : Normal x v) (hy : Normal y w) (hlo : (2 : Rat) ^ (-200 : Int) ≤ v / w)
    (hhi : v / w ≤ 2 ^ (200 : Int)) :
    ∃ u, Normal (x / y) u ∧ |u - v / w| * 2 ^ 52 ≤ v / w := by
  obtain ⟨m, e, hm, hunpack, hlog, rfl⟩ := hx
  obtain ⟨m', e', hm', hunpack', hlog', rfl⟩ := hy
  have hb := bounds_of_log2 hm hlog
  have hb' := bounds_of_log2 hm' hlog'
  have hm0 : (0 : Rat) < m' := Nat.cast_pos.2 hm'
  -- the quotient is worked out with 53 bits more than the divisor has
  have hvalue : (m : Rat) * 2 ^ e / (m' * 2 ^ e') = m * 2 ^ 53 / m' * 2 ^ (e - e' - 53) := by
    rw [show e - e' - 53 = e - e' - (53 : Nat) by omega, zpow_sub₀ (by decide),
      zpow_sub₀ (by decide), zpow_natCast]
    field_simp
  have hexp : -201 ≤ e - e' := by
    have hle : (m : Rat) * 2 ^ 53 / m' * 2 ^ (e - e' - 53) ≤ 2 ^ (e - e' + (1 : Nat)) := by
      have hsplit : (2 : Rat) ^ (e - e' + (1 : Nat)) = 2 ^ 54 * 2 ^ (e - e' - 53) := by
        rw [show e - e' + (1 : Nat) = e - e' - 53 + (54 : Nat) by omega, two_zpow_add_nat]
      rw [hsplit]
      refine mul_le_mul_of_nonneg_right ?_ (two_zpow_pos _).le
      rw [div_le_iff₀ hm0]
      linarith
    rw [hvalue] at hlo
    have hexp := (zpow_le_zpow_iff_right₀ (by decide)).1 (hlo.trans hle)
    omega
  have hcore : divCore Format.binary64 m e m' e' =
      (m * 2 ^ 53 / m', e - e' - 53, accuracyOfFraction (m * 2 ^ 53 % m') m') := by
    have htarget : min (e - e') (Format.binary64.targetExponent
        (totalExponent m e - totalExponent m' e')) = e - e' - 53 := by
      simp only [Format.targetExponent, totalExponent, Format.mantissaBits, Format.minExponent,
        hlog, hlog']
      omega
    have hamount : (e - e' - (e - e' - 53)).toNat = 53 := by omega
    unfold divCore
    dsimp only
    rw [htarget, hamount, Nat.shiftLeft_eq]
  have hquotient : x / y = .ofModel (.pack (roundWithAccuracy Format.binary64 .positive
      (m * 2 ^ 53 / m') (e - e' - 53) (accuracyOfFraction (m * 2 ^ 53 % m') m'))) := by
    have hdiv : UnpackedFloat.div Format.binary64 (.finite .positive m e hm)
        (.finite .positive m' e' hm') = roundWithAccuracy Format.binary64 .positive
          (divCore Format.binary64 m e m' e').1 (divCore Format.binary64 m e m' e').2.1
          (divCore Format.binary64 m e m' e').2.2 := rfl
    change Float.ofModel (.pack (UnpackedFloat.div Format.binary64 x.toModel.unpack
      y.toModel.unpack)) = _
    rw [hunpack, hunpack', hdiv, hcore]
  have hlarge : 2 ^ 52 ≤ m * 2 ^ 53 / m' := by
    rw [Nat.le_div_iff_mul_le hm']
    have hm52 : 2 ^ 52 ≤ m := hlog ▸ (log2_bounds hm).1
    have hm53 : m' < 2 ^ 53 := by
      have hbound := (log2_bounds hm').2
      rwa [hlog'] at hbound
    exact Nat.mul_le_mul hm52 hm53.le
  have hpos : 0 < m * 2 ^ 53 / m' := (Nat.two_pow_pos 52).trans_le hlarge
  have hfloor : ((m * 2 ^ 53 / m' : Nat) : Rat) ≤ m * 2 ^ 53 / m' := by
    rw [le_div_iff₀ hm0]
    exact_mod_cast Nat.div_mul_le_self (m * 2 ^ 53) m'
  have hceil : (m : Rat) * 2 ^ 53 / m' ≤ (m * 2 ^ 53 / m' : Nat) + 1 := by
    rw [div_le_iff₀ hm0]
    exact_mod_cast (Nat.lt_mul_of_div_lt (Nat.lt_succ_self (m * 2 ^ 53 / m')) hm').le
  rw [hvalue] at hlo hhi ⊢
  rw [hquotient]
  exact normal_of_round _ hpos ((Nat.le_log2 hpos.ne').2 hlarge)
    (mul_le_mul_of_nonneg_right hfloor (two_zpow_pos _).le)
    (mul_le_mul_of_nonneg_right hceil (two_zpow_pos _).le) hlo hhi

/-! ## Half less than a count -/

/-- A number of at least 53 bits is rounded as it is. -/
theorem round_eq {m : Nat} {e : Int} (hlog : 52 ≤ m.log2) (he : -1022 ≤ m.log2 + e) :
    UnpackedFloat.round Format.binary64 .positive m e =
      roundWithAccuracy Format.binary64 .positive m e .exact := by
  have hamount : (e - (m.log2 + e - 52)).toNat = 0 := by omega
  unfold UnpackedFloat.round decreaseExponent
  rw [targetExponent_eq he]
  dsimp only
  rw [hamount, Nat.shiftLeft_zero, Nat.cast_zero, sub_zero]

theorem exists_normal_toFloat {n : Nat} (hn : 0 < n) (h : n < 2 ^ 64) :
    ∃ w, Normal n.toUInt64.toFloat w ∧ 1 ≤ w ∧ w ≤ 2 ^ 65 := by
  have hle : (n : Rat) ≤ 2 ^ 64 := by exact_mod_cast h.le
  have hone : (1 : Rat) ≤ n := by exact_mod_cast hn
  rcases Nat.lt_or_ge n (2 ^ 53) with hlt | hge
  · exact ⟨n, normal_toFloat hn hlt, hone, hle.trans (by norm_num)⟩
  · have hbits : 52 ≤ n.log2 := (Nat.le_log2 hn.ne').2 (le_trans (by decide) hge)
    obtain ⟨w, hw, herror⟩ := normal_of_round (m := n) (e := 0) (v := n) .exact hn hbits
      (by simp) (by simp) (le_trans (by norm_num) hone) (hle.trans (by norm_num))
    have hround := toFloat_eq hn h
    rw [Nat.pow_zero, Nat.mul_one, round_eq hbits (by omega)] at hround
    have herror' := abs_le.1 ((le_div_iff₀ (by norm_num : (0 : Rat) < 2 ^ 52)).2 herror)
    have hlarge : (2 : Rat) ^ 53 ≤ n := by exact_mod_cast hge
    exact ⟨w, hround ▸ hw, by linarith, by linarith⟩

/-- Half less than a number of one or more is positive. -/
theorem Normal.sub_half (hx : Normal x v) (hlo : 1 ≤ v) (hhi : v ≤ 2 ^ 65) :
    ∃ w, Normal (x - 0.5) w := by
  obtain ⟨m, e, hm, hunpack, hlog, rfl⟩ := hx
  have hb := bounds_of_log2 hm hlog
  have he : -53 < e := by
    by_contra hsmall
    have hle := two_zpow_le (show e ≤ -53 by omega)
    have hprod : (m : Rat) * 2 ^ e < 2 ^ 53 * 2 ^ (-53 : Int) :=
      mul_lt_mul hb.2 hle (two_zpow_pos e) (by positivity)
    have hvalue : (2 : Rat) ^ 53 * 2 ^ (-53 : Int) = 1 := by norm_num
    linarith
  obtain ⟨n, rfl⟩ : ∃ n : Nat, e = -53 + n := ⟨(e + 53).toNat, by omega⟩
  have hlarge : 2 ^ 53 ≤ m * 2 ^ n := by
    have h52 : 2 ^ 52 ≤ m := by exact_mod_cast hb.1
    calc 2 ^ 53 = 2 ^ 52 * 2 ^ 1 := rfl
      _ ≤ m * 2 ^ n := Nat.mul_le_mul h52 (Nat.pow_le_pow_right (by decide) (by omega))
  have hpos : 0 < m * 2 ^ n - 2 ^ 52 := by omega
  have hbits : 52 ≤ (m * 2 ^ n - 2 ^ 52).log2 := (Nat.le_log2 hpos.ne').2 (by omega)
  have hsub : x - 0.5 = .ofModel (.pack
      (UnpackedFloat.round Format.binary64 .positive (m * 2 ^ n - 2 ^ 52) (-53))) := by
    have hmin : min (-53 + (n : Int)) (-53) = -53 := by omega
    have hamount : (-53 + (n : Int) - -53).toNat = n := by omega
    have hmantissa : ((m * 2 ^ n : Nat) : Int) - ((2 ^ 52 : Nat) : Int) =
        ((m * 2 ^ n - 2 ^ 52 : Nat) : Int) := by
      omega
    change Float.ofModel (.pack (UnpackedFloat.sub Format.binary64
      x.toModel.unpack (0.5 : Float).toModel.unpack)) = _
    rw [hunpack, unpack_half, ← normalize_eq hpos (-53) .positive, ← hmantissa]
    unfold UnpackedFloat.sub decreaseExponent
    dsimp only
    rw [hmin, hamount, Nat.shiftLeft_eq]
    rfl
  rw [hsub, round_eq hbits (by omega)]
  have hvalue : ((m * 2 ^ n - 2 ^ 52 : Nat) : Rat) * 2 ^ (-53 : Int) =
      m * 2 ^ (-53 + (n : Int)) - 1 / 2 := by
    rw [Nat.cast_sub (by omega), two_zpow_add_nat]
    have hpow : (2 : Rat) ^ (-53 : Int) = 1 / 2 ^ 53 := by norm_num
    rw [hpow]
    push_cast
    ring
  have hhigh : m * 2 ^ (-53 + (n : Int)) - 1 / 2 ≤
      ((m * 2 ^ n - 2 ^ 52 : Nat) + 1) * (2 : Rat) ^ (-53 : Int) := by
    rw [← hvalue]
    exact mul_le_mul_of_nonneg_right (by linarith) (two_zpow_pos _).le
  have hsmall : (2 : Rat) ^ (-200 : Int) ≤ 1 / 2 := by norm_num
  have hbig : (2 : Rat) ^ 65 ≤ 2 ^ (200 : Int) := by norm_num
  obtain ⟨w, hw, -⟩ := normal_of_round .exact hpos hbits hvalue.le hhigh (by linarith)
    (by linarith)
  exact ⟨w, hw⟩

/-! ## Whole parts -/

theorem roundToInt_eq {m k : Nat} {e : Int} (hlo : (k : Rat) ≤ m * 2 ^ e)
    (hhi : (m : Rat) * 2 ^ e < k + 1) : roundToInt .positive m e = k := by
  have hround : roundToInt .positive m e =
      ((m * 2 ^ e.toNat / 2 ^ (-e).toNat : Nat) : Int) := by
    have hleft : (e - 0).toNat = e.toNat := by omega
    have hright : (0 - (e - ((e.toNat : Nat) : Int))).toNat = (-e).toNat := by omega
    have hmantissa := mantissa_repeat_shiftRightOne
      (.ofMantissaAndAccuracy (m * 2 ^ e.toNat) .exact) (-e).toNat
    unfold roundToInt decreaseExponent shiftToExponent
    dsimp only
    rw [hleft, hright, Nat.shiftLeft_eq]
    exact congrArg Int.ofNat hmantissa
  rw [hround]
  congr 1
  have hscaled : (m : Rat) * 2 ^ e * 2 ^ (-e).toNat = m * 2 ^ e.toNat := by
    rw [mul_assoc, ← zpow_natCast, ← zpow_natCast, ← zpow_add₀ (by decide)]
    congr 2
    omega
  have hp : (0 : Rat) < 2 ^ (-e).toNat := by positivity
  refine Nat.div_eq_of_lt_le ?_ ?_
  · have h := mul_le_mul_of_nonneg_right hlo hp.le
    rw [hscaled] at h
    exact_mod_cast h
  · have h := mul_lt_mul_of_pos_right hhi hp
    rw [hscaled] at h
    exact_mod_cast h

/-- The whole part of a double that lies between two counts. -/
theorem Normal.toUInt64_eq {k : Nat} (hx : Normal x v) (hlo : (k : Rat) ≤ v) (hhi : v < k + 1)
    (hk : k < 2 ^ 64) : x.toUInt64 = k.toUInt64 := by
  obtain ⟨m, e, hm, hunpack, -, rfl⟩ := hx
  change UInt64.ofNatClamp (x.toModel.unpack.toInt 0 (UInt64.size - 1)).toNat = _
  have htoInt : (UnpackedFloat.finite .positive m e hm).toInt 0 (UInt64.size - 1) =
      roundToInt .positive m e := rfl
  rw [hunpack, htoInt, roundToInt_eq hlo hhi, Int.toNat_natCast]
  exact (dif_pos hk).trans (UInt64.ofNatLT_eq_ofNat k)

/-! ## The place of an index -/

/-- The quotient by which the place of an index is found.  It is rounded twice, and stays between
the index and the next one. -/
theorem toUInt64_place {n k : Nat} (hn : n ≤ 2 ^ 50) (hk : k < n) :
    ((k.toUInt64.toFloat - -0.5) * n.toUInt64.toFloat /
      (n.toUInt64.toFloat - 0.5 - -0.5)).toUInt64 = k.toUInt64 := by
  have hleft : Normal (k.toUInt64.toFloat - -0.5) ((2 * k + 1 : Nat) / 2) := by
    rcases Nat.eq_zero_or_pos k with rfl | hk0
    · have hhalf : (0 : Nat).toUInt64.toFloat - -0.5 = 0.5 := by rfl
      rw [hhalf]
      simpa using normal_half
    · have hcount := normal_toFloat hk0 (by omega)
      rw [show (k : Rat) = (2 * k : Nat) / 2 by push_cast; ring] at hcount
      exact hcount.sub_neg_half (by omega)
  have hwidth : Normal (n.toUInt64.toFloat - 0.5 - -0.5) n := by
    have hsum := (normal_toFloat_sub_half (n := n) (by omega) (by omega)).sub_neg_half (by omega)
    rwa [show ((2 * n - 1 + 1 : Nat) : Rat) / 2 = n by
      rw [show 2 * n - 1 + 1 = 2 * n by omega]; push_cast; ring] at hsum
  have hcount := normal_toFloat (n := n) (by omega) (by omega)
  have hn1 : (1 : Rat) ≤ n := by exact_mod_cast (show 1 ≤ n by omega)
  have hn2 : (n : Rat) ≤ 2 ^ 50 := by exact_mod_cast hn
  have hk0 : (0 : Rat) ≤ k := Nat.cast_nonneg k
  have hk1 : (k : Rat) + 1 ≤ 2 ^ 50 := by exact_mod_cast (show k + 1 ≤ 2 ^ 50 by omega)
  have hsmall : (2 : Rat) ^ (-200 : Int) ≤ 1 / 4 := by norm_num
  have hlarge : (2 : Rat) ^ 102 ≤ 2 ^ (200 : Int) := by norm_num
  push_cast at hleft
  have hproduct : (2 * k + 1 : Rat) / 2 * n ≤ 2 ^ 50 * 2 ^ 50 :=
    mul_le_mul (by linarith) hn2 (by linarith) (by norm_num)
  obtain ⟨p, hp, hperror⟩ := hleft.mul hcount
    (by nlinarith) (hproduct.trans (le_trans (by norm_num) hlarge))
  -- what the product of the middle of the bin with `n` becomes when it is divided by `n` again
  have hn0 : (0 : Rat) < n := by linarith
  have hback : |p / n - (2 * k + 1) / 2| * 2 ^ 52 ≤ (2 * k + 1) / 2 := by
    have hscaled : |p / n - (2 * k + 1) / 2| * n = |p - (2 * k + 1) / 2 * n| := by
      rw [← abs_of_pos hn0, ← abs_mul, abs_of_pos hn0, sub_mul, div_mul_cancel₀ p hn0.ne']
    refine le_of_mul_le_mul_right ?_ hn0
    rw [mul_right_comm, hscaled]
    exact hperror
  have hback' := abs_le.1 ((le_div_iff₀ (by norm_num : (0 : Rat) < 2 ^ 52)).2 hback)
  obtain ⟨q, hq, hqerror⟩ := hp.div hwidth (by linarith) (le_trans (by linarith) hlarge)
  have hqerror' := abs_le.1 ((le_div_iff₀ (by norm_num : (0 : Rat) < 2 ^ 52)).2 hqerror)
  exact hq.toUInt64_eq (by linarith) (by linarith) (by omega)

end VariHist.Double
