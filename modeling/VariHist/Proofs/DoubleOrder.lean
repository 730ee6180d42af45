import Mathlib
import VariHist.Proofs.DoubleExact

/-!
# The order of doubles

Doubles that are numbers stand on a line, with the infinities at its ends, and are compared by their
places on it.

* `Double.compare_of_isFinite` — finite doubles are compared like their fractions.
* `Double.place` — where a double stands; `compare_eq` — doubles are compared by their places.
* `Double.not_lt_iff`, `Double.lt_trans` — how doubles are ordered, NaN included.
-/

namespace VariHist.Double

open Float.Model UnpackedFloat

variable {x y z : Float} {m m' : Nat} {e e' : Int}

/-! ## Powers of two -/

theorem two_zpow_pos (e : Int) : (0 : Rat) < 2 ^ e :=
  zpow_pos (by decide) e

theorem two_zpow_le {e f : Int} (h : e ≤ f) : (2 : Rat) ^ e ≤ 2 ^ f :=
  (zpow_le_zpow_iff_right₀ (by decide)).2 h

theorem two_zpow_add_nat (e : Int) (n : Nat) : (2 : Rat) ^ (e + n) = 2 ^ n * 2 ^ e := by
  rw [zpow_add₀ (by decide), zpow_natCast, mul_comm]

/-! ## Comparison -/

theorem lt_iff_compare : x < y ↔ x.toModel.unpack.compare y.toModel.unpack = some .lt := by
  have hmodel : x < y ↔ x.toModel < y.toModel := by
    constructor
    · intro h
      exact of_decide_eq_true h
    · intro h
      exact decide_eq_true h
  rw [hmodel]
  exact beq_iff_eq (a := x.toModel.unpack.compare y.toModel.unpack) (b := some Ordering.lt)

theorem le_iff_compare :
    x ≤ y ↔ (x.toModel.unpack.compare y.toModel.unpack).any Ordering.isLE = true :=
  decide_eq_true_iff

/-! ## Finite doubles of one sign -/

/-- A mantissa of 53 bits, or fewer at the lowest exponent. -/
structure Canonical (m : Nat) (e : Int) : Prop where
  lt : m < 2 ^ 53
  lowest : -1074 ≤ e
  full : -1074 < e → 2 ^ 52 ≤ m

theorem canonical_of_unpack {s : Sign} {hm : 0 < m} (h : x.toModel.unpack = .finite s m e hm) :
    Canonical m e := by
  have hfraction : fraction x < 2 ^ 52 := Nat.mod_lt _ (by decide)
  rw [unpack_eq] at h
  split_ifs at h with h1 h2 h3 h4
  · obtain ⟨-, rfl, rfl⟩ := UnpackedFloat.finite.inj h
    exact ⟨by omega, le_rfl, fun hlt => absurd hlt (lt_irrefl _)⟩
  · obtain ⟨-, rfl, rfl⟩ := UnpackedFloat.finite.inj h
    exact ⟨by omega, by simp only [Int.ofNat_eq_natCast]; omega, fun _ => by omega⟩

/-- The one with the larger exponent is larger, whatever the mantissas are. -/
theorem Canonical.scaled_lt (h : Canonical m e) (h' : Canonical m' e') (he : e < e') :
    (m * 2 ^ e : Rat) < m' * 2 ^ e' := by
  have hm : (m : Rat) < 2 ^ 53 := by exact_mod_cast h.lt
  have hm' : (2 : Rat) ^ 52 ≤ m' := by exact_mod_cast h'.full (h.lowest.trans_lt he)
  have hstep : (2 : Rat) ^ e * 2 ≤ 2 ^ e' := by
    have hnext := two_zpow_le (show e + (1 : Nat) ≤ e' by omega)
    rwa [two_zpow_add_nat, pow_one, mul_comm] at hnext
  calc (m * 2 ^ e : Rat) < 2 ^ 53 * 2 ^ e := mul_lt_mul_of_pos_right hm (two_zpow_pos e)
    _ = 2 ^ 52 * (2 ^ e * 2) := by ring
    _ ≤ 2 ^ 52 * 2 ^ e' := mul_le_mul_of_nonneg_left hstep (by positivity)
    _ ≤ m' * 2 ^ e' := mul_le_mul_of_nonneg_right hm' (two_zpow_pos e').le

/-- Comparing exponents first and then mantissas compares the fractions. -/
theorem compare_scaled (h : Canonical m e) (h' : Canonical m' e') :
    (compare e e').then (compare m m') = compare (m * 2 ^ e : Rat) (m' * 2 ^ e') := by
  rcases lt_trichotomy e e' with he | rfl | he
  · rw [compare_lt_iff_lt.2 he, compare_lt_iff_lt.2 (h.scaled_lt h' he)]
    rfl
  · rw [compare_eq_iff_eq.2 rfl]
    have hpow := two_zpow_pos e
    rcases lt_trichotomy m m' with hm | rfl | hm
    · rw [compare_lt_iff_lt.2 hm, compare_lt_iff_lt.2]
      · rfl
      · exact mul_lt_mul_of_pos_right (Nat.cast_lt.2 hm) hpow
    · rw [compare_eq_iff_eq.2 rfl, compare_eq_iff_eq.2 rfl]
      rfl
    · rw [compare_gt_iff_gt.2 hm, compare_gt_iff_gt.2]
      · rfl
      · exact mul_lt_mul_of_pos_right (Nat.cast_lt.2 hm) hpow
  · rw [compare_gt_iff_gt.2 he, compare_gt_iff_gt.2 (h'.scaled_lt h he)]
    rfl

/-! ## Finite doubles -/

/-- What a finite double can be: zero, or a mantissa with a sign. -/
inductive FiniteForm (x : Float) : Prop where
  | zero (s : Sign) (h : x.toModel.unpack = .zero s) (hv : Exact.ofFloat x = 0)
  | positive (m : Nat) (e : Int) (hm : 0 < m) (hc : Canonical m e)
      (h : x.toModel.unpack = .finite .positive m e hm) (hv : Exact.ofFloat x = m * 2 ^ e)
  | negative (m : Nat) (e : Int) (hm : 0 < m) (hc : Canonical m e)
      (h : x.toModel.unpack = .finite .negative m e hm) (hv : Exact.ofFloat x = -(m * 2 ^ e))

theorem exact_of_unpack_zero {s : Sign} (h : x.toModel.unpack = .zero s) :
    Exact.ofFloat x = 0 := by
  rw [← Rat.num_eq_zero, exact_num_eq_zero_iff, ← beq_zero_iff]
  change (x.toModel.unpack.compare (.zero .positive) == some .eq) = true
  rw [h]
  rfl

theorem finiteForm (hx : x.isFinite = true) : FiniteForm x := by
  change x.toModel.unpack.isFinite = true at hx
  cases hu : x.toModel.unpack with
  | notANumber => rw [hu] at hx; cases hx
  | infinity s => rw [hu] at hx; cases hx
  | zero s => exact .zero s hu (exact_of_unpack_zero hu)
  | finite s m e hm =>
    have hv := exact_of_unpack hu
    have hc := canonical_of_unpack hu
    cases s with
    | positive => exact .positive m e hm hc hu (by simpa [Sign.apply] using hv)
    | negative => exact .negative m e hm hc hu (by simpa [Sign.apply] using hv)

theorem compare_neg (a b : Rat) : compare (-a) (-b) = compare b a := by
  rcases lt_trichotomy a b with h | rfl | h
  · rw [compare_gt_iff_gt.2 h, compare_gt_iff_gt.2 (neg_lt_neg h)]
  · rw [compare_eq_iff_eq.2 rfl, compare_eq_iff_eq.2 rfl]
  · rw [compare_lt_iff_lt.2 h, compare_lt_iff_lt.2 (neg_lt_neg h)]

/-- Finite doubles are compared like their fractions. -/
theorem compare_of_isFinite (hx : x.isFinite = true) (hy : y.isFinite = true) :
    x.toModel.unpack.compare y.toModel.unpack =
      some (compare (Exact.ofFloat x) (Exact.ofFloat y)) := by
  have hpos : ∀ {m : Nat} {e : Int}, 0 < m → (0 : Rat) < m * 2 ^ e := fun hm =>
    mul_pos (Nat.cast_pos.2 hm) (two_zpow_pos _)
  rcases finiteForm hx with ⟨s, h, hv⟩ | ⟨m, e, hm, hc, h, hv⟩ | ⟨m, e, hm, hc, h, hv⟩
  · rcases finiteForm hy with ⟨s', h', hv'⟩ | ⟨m', e', hm', -, h', hv'⟩ |
      ⟨m', e', hm', -, h', hv'⟩
    · rw [h, h', hv, hv', compare_eq_iff_eq.2 rfl]
      rfl
    · rw [h, h', hv, hv', compare_lt_iff_lt.2 (hpos hm')]
      rfl
    · rw [h, h', hv, hv', compare_gt_iff_gt.2 (neg_neg_of_pos (hpos hm'))]
      rfl
  · rcases finiteForm hy with ⟨s', h', hv'⟩ | ⟨m', e', hm', hc', h', hv'⟩ |
      ⟨m', e', hm', -, h', hv'⟩
    · rw [h, h', hv, hv', compare_gt_iff_gt.2 (hpos hm)]
      rfl
    · rw [h, h', hv, hv', ← compare_scaled hc hc']
      rfl
    · rw [h, h', hv, hv', compare_gt_iff_gt.2 ((neg_neg_of_pos (hpos hm')).trans (hpos hm))]
      rfl
  · rcases finiteForm hy with ⟨s', h', hv'⟩ | ⟨m', e', hm', -, h', hv'⟩ |
      ⟨m', e', hm', hc', h', hv'⟩
    · rw [h, h', hv, hv', compare_lt_iff_lt.2 (neg_neg_of_pos (hpos hm))]
      rfl
    · rw [h, h', hv, hv', compare_lt_iff_lt.2 ((neg_neg_of_pos (hpos hm)).trans (hpos hm'))]
      rfl
    · rw [h, h', hv, hv', compare_neg, Std.OrientedOrd.eq_swap, ← compare_scaled hc hc']
      rfl

theorem lt_iff_exact (hx : x.isFinite = true) (hy : y.isFinite = true) :
    x < y ↔ Exact.ofFloat x < Exact.ofFloat y := by
  rw [lt_iff_compare, compare_of_isFinite hx hy, Option.some_inj, compare_lt_iff_lt]

theorem le_iff_exact (hx : x.isFinite = true) (hy : y.isFinite = true) :
    x ≤ y ↔ Exact.ofFloat x ≤ Exact.ofFloat y := by
  rw [le_iff_compare, compare_of_isFinite hx hy, Option.any_some]
  exact Ordering.isLE_iff_ne_gt.trans compare_le_iff_le

/-! ## All numbers -/

/-- The fractions, with an end on either side. -/
abbrev Line : Type :=
  WithBot (WithTop Rat)

/-- Where a double stands that is a number; of no meaning for NaN. -/
def place (x : Float) : Line :=
  match x.toModel.unpack with
  | .infinity .positive => ((⊤ : WithTop Rat) : Line)
  | .infinity .negative => ⊥
  | _ => ((Exact.ofFloat x : WithTop Rat) : Line)

/-- What a double can be that is a number. -/
inductive NumberForm (x : Float) : Prop where
  | bottom (h : x.toModel.unpack = .infinity .negative)
  | top (h : x.toModel.unpack = .infinity .positive)
  | finite (h : x.isFinite = true)

theorem numberForm (hx : x.isNaN = false) : NumberForm x := by
  change x.toModel.unpack.isNaN = false at hx
  cases hu : x.toModel.unpack with
  | notANumber => rw [hu] at hx; cases hx
  | infinity s =>
    cases s with
    | positive => exact .top hu
    | negative => exact .bottom hu
  | zero s => exact .finite (show x.toModel.unpack.isFinite = true by rw [hu]; rfl)
  | finite s m e hm => exact .finite (show x.toModel.unpack.isFinite = true by rw [hu]; rfl)

theorem place_bottom (h : x.toModel.unpack = .infinity .negative) : place x = ⊥ := by
  rw [place, h]

theorem place_top (h : x.toModel.unpack = .infinity .positive) :
    place x = ((⊤ : WithTop Rat) : Line) := by
  rw [place, h]

theorem place_of_isFinite (h : x.isFinite = true) :
    place x = ((Exact.ofFloat x : WithTop Rat) : Line) := by
  change x.toModel.unpack.isFinite = true at h
  cases hu : x.toModel.unpack with
  | notANumber => rw [hu] at h; cases h
  | infinity s => rw [hu] at h; cases h
  | zero s => rw [place, hu]
  | finite s m e hm => rw [place, hu]

theorem compare_top (h : x.isFinite = true) :
    x.toModel.unpack.compare (.infinity .positive) = some .lt ∧
      (UnpackedFloat.infinity .positive).compare x.toModel.unpack = some .gt := by
  change x.toModel.unpack.isFinite = true at h
  cases hu : x.toModel.unpack with
  | notANumber => rw [hu] at h; cases h
  | infinity s => rw [hu] at h; cases h
  | zero s => exact ⟨rfl, rfl⟩
  | finite s m e hm => exact ⟨rfl, rfl⟩

theorem compare_bottom (h : x.isFinite = true) :
    x.toModel.unpack.compare (.infinity .negative) = some .gt ∧
      (UnpackedFloat.infinity .negative).compare x.toModel.unpack = some .lt := by
  change x.toModel.unpack.isFinite = true at h
  cases hu : x.toModel.unpack with
  | notANumber => rw [hu] at h; cases h
  | infinity s => rw [hu] at h; cases h
  | zero s => exact ⟨rfl, rfl⟩
  | finite s m e hm => exact ⟨rfl, rfl⟩

/-- Doubles are compared by their places. -/
theorem compare_eq (hx : x.isNaN = false) (hy : y.isNaN = false) :
    x.toModel.unpack.compare y.toModel.unpack = some (compare (place x) (place y)) := by
  have hends : (⊥ : Line) < ((⊤ : WithTop Rat) : Line) := WithBot.bot_lt_coe _
  have hlow : ∀ q : Rat, (⊥ : Line) < ((q : WithTop Rat) : Line) := fun q =>
    WithBot.bot_lt_coe _
  have hhigh : ∀ q : Rat, ((q : WithTop Rat) : Line) < ((⊤ : WithTop Rat) : Line) := fun q =>
    WithBot.coe_lt_coe.2 (WithTop.coe_lt_top q)
  rcases numberForm hx with h | h | h
  · rcases numberForm hy with h' | h' | h'
    · rw [place_bottom h, place_bottom h', h, h', compare_eq_iff_eq.2 rfl]
      rfl
    · rw [place_bottom h, place_top h', h, h', compare_lt_iff_lt.2 hends]
      rfl
    · rw [place_bottom h, place_of_isFinite h', h, compare_lt_iff_lt.2 (hlow _),
        (compare_bottom h').2]
  · rcases numberForm hy with h' | h' | h'
    · rw [place_top h, place_bottom h', h, h', compare_gt_iff_gt.2 hends]
      rfl
    · rw [place_top h, place_top h', h, h', compare_eq_iff_eq.2 rfl]
      rfl
    · rw [place_top h, place_of_isFinite h', h, compare_gt_iff_gt.2 (hhigh _),
        (compare_top h').2]
  · rcases numberForm hy with h' | h' | h'
    · rw [place_of_isFinite h, place_bottom h', h', compare_gt_iff_gt.2 (hlow _),
        (compare_bottom h).1]
    · rw [place_of_isFinite h, place_top h', h', compare_lt_iff_lt.2 (hhigh _),
        (compare_top h).1]
    · rw [place_of_isFinite h, place_of_isFinite h', compare_of_isFinite h h']
      rcases lt_trichotomy (Exact.ofFloat x) (Exact.ofFloat y) with hlt | heq | hlt
      · rw [compare_lt_iff_lt.2 hlt, compare_lt_iff_lt.2]
        exact WithBot.coe_lt_coe.2 (WithTop.coe_lt_coe.2 hlt)
      · rw [heq, compare_eq_iff_eq.2 rfl, compare_eq_iff_eq.2 rfl]
      · rw [compare_gt_iff_gt.2 hlt, compare_gt_iff_gt.2]
        exact WithBot.coe_lt_coe.2 (WithTop.coe_lt_coe.2 hlt)

theorem lt_iff_place (hx : x.isNaN = false) (hy : y.isNaN = false) :
    x < y ↔ place x < place y := by
  rw [lt_iff_compare, compare_eq hx hy, Option.some_inj, compare_lt_iff_lt]

theorem le_iff_place (hx : x.isNaN = false) (hy : y.isNaN = false) :
    x ≤ y ↔ place x ≤ place y := by
  rw [le_iff_compare, compare_eq hx hy, Option.any_some]
  exact Ordering.isLE_iff_ne_gt.trans compare_le_iff_le

theorem not_lt_of_isNaN_left (h : x.isNaN = true) : ¬x < y := by
  change x.toModel.unpack.isNaN = true at h
  rw [lt_iff_compare]
  cases hu : x.toModel.unpack with
  | notANumber => exact nofun
  | infinity s => rw [hu] at h; cases h
  | zero s => rw [hu] at h; cases h
  | finite s m e hm => rw [hu] at h; cases h

theorem isNaN_of_lt (h : x < y) : x.isNaN = false ∧ y.isNaN = false :=
  ⟨Bool.eq_false_iff.2 fun hx => not_lt_of_isNaN_left hx h,
    Bool.eq_false_iff.2 fun hy => not_lt_of_isNaN hy h⟩

/-- A double that is not below a number is at or above it, unless it is not a number. -/
theorem not_lt_iff (hy : y.isNaN = false) : ¬x < y ↔ x.isNaN = true ∨ y ≤ x := by
  cases hx : x.isNaN with
  | true => exact iff_of_true (not_lt_of_isNaN_left hx) (.inl rfl)
  | false => rw [lt_iff_place hx hy, le_iff_place hy hx, not_lt, or_iff_right Bool.false_ne_true]

protected theorem lt_trans (h : x < y) (h' : y < z) : x < z := by
  obtain ⟨hx, hy⟩ := isNaN_of_lt h
  have hz := (isNaN_of_lt h').2
  rw [lt_iff_place hx hy] at h
  rw [lt_iff_place hy hz] at h'
  exact (lt_iff_place hx hz).2 (h.trans h')

end VariHist.Double
