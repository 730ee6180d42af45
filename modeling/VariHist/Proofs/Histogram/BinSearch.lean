import Mathlib
import VariHist.Histogram.Exact
import VariHist.Histogram.Spectrum
import VariHist.Proofs.DoubleOrder
import VariHist.Proofs.Histogram.Indexing

/-!
# The search for a bin

A value below the range lies in bin `0`, one at or above its end in the bin after the last one, and
every other value in between, however the quotient that tells its place is rounded.  In exact
fractions the bin of a value is the one between whose edges it lies.

* `toNat_binBetween_mono` — a larger fraction does not lie in an earlier bin.
* `Spectrum.getElem?_edgesOf` — the edges in exact fractions.
* `Axis.toNat_findBin_eq_iff` — the bin of a fraction within the range, told by its edges.
* `Axis.findBin_classifies` — all of it, for every axis.
-/

namespace VariHist

open FillNumber

/-! ## Any arithmetic -/

section Arithmetic

variable {ν : Type} [FillNumber ν] {bins : UInt64} {lo hi x : ν}

theorem toNat_binBetween_eq_zero_iff (h0 : bins ≠ 0) (hb : bins.toNat + 2 < 2 ^ 64) :
    (binBetween bins lo hi x).toNat = 0 ↔ lt x lo = true := by
  rw [toNat_binBetween h0 hb]
  by_cases hbelow : lt x lo = true
  · rw [if_pos hbelow]
    exact iff_of_true rfl hbelow
  · rw [if_neg hbelow]
    refine iff_of_false (fun h => ?_) hbelow
    split_ifs at h

theorem toNat_binBetween_eq_succ_iff (h0 : bins ≠ 0) (hb : bins.toNat + 2 < 2 ^ 64) :
    (binBetween bins lo hi x).toNat = bins.toNat + 1 ↔ ¬lt x lo = true ∧ ¬lt x hi = true := by
  have hpos := toNat_pos h0
  rw [toNat_binBetween h0 hb]
  by_cases hbelow : lt x lo = true
  · rw [if_pos hbelow]
    exact iff_of_false (Nat.succ_ne_zero _).symm fun h => h.1 hbelow
  · by_cases hwithin : lt x hi = true
    · rw [if_neg hbelow, if_pos hwithin]
      refine iff_of_false ?_ fun h => h.2 hwithin
      omega
    · rw [if_neg hbelow, if_neg hwithin]
      exact iff_of_true rfl ⟨hbelow, hwithin⟩

theorem toNat_binBetween_of_within (h0 : bins ≠ 0) (hb : bins.toNat + 2 < 2 ^ 64)
    (hlo : ¬lt x lo = true) (hhi : lt x hi = true) : (binBetween bins lo hi x).toNat =
      min (placeBetween bins lo hi x).toNat (bins.toNat - 1) + 1 := by
  rw [toNat_binBetween h0 hb, if_neg hlo, if_pos hhi]

end Arithmetic

/-! ## Doubles -/

section Doubles

variable {a : Axis} {x : Float}

theorem lt_float_iff {x y : Float} : lt x y = true ↔ x < y :=
  decide_eq_true_iff

theorem Axis.toNat_findBin_eq_zero_iff (h : a.Sound) : (a.findBin x).toNat = 0 ↔ x < a.lo :=
  (toNat_binBetween_eq_zero_iff h.1 h.2).trans lt_float_iff

/-- A value lies above the range if it is not a number, or at or above its end. -/
theorem Axis.toNat_findBin_eq_succ_iff (h : a.Sound) (hr : a.lo < a.hi) :
    (a.findBin x).toNat = a.bins.toNat + 1 ↔ x.isNaN = true ∨ a.hi ≤ x := by
  have hsearch : (a.findBin x).toNat = a.bins.toNat + 1 ↔ ¬x < a.lo ∧ ¬x < a.hi :=
    (toNat_binBetween_eq_succ_iff h.1 h.2).trans
      (and_congr (not_congr lt_float_iff) (not_congr lt_float_iff))
  rw [hsearch, ← Double.not_lt_iff (Double.isNaN_of_lt hr).2]
  exact and_iff_right_of_imp fun hhi hlo => hhi (Double.lt_trans hlo hr)

end Doubles

/-! ## Fractions -/

section Fractions

variable {bins : UInt64} {lo hi x y : Rat}

theorem toNat_clampWord_floor {q : Rat} (hq : q < 2 ^ 64) :
    (Exact.clampWord (Rat.floor q)).toNat = ⌊q⌋₊ := by
  have hlt : ⌊q⌋₊ < 2 ^ 64 := (Nat.floor_lt' (by decide)).2 (by exact_mod_cast hq)
  change (min ⌊q⌋.toNat _).toUInt64.toNat = _
  rw [Int.floor_toNat, Nat.min_eq_left (by omega)]
  exact UInt64.toNat_ofNat_of_lt' hlt

theorem ofWord_rat (n : UInt64) : (ofWord n : Rat) = n.toNat := by
  change mkRat (Int.ofNat n.toNat) 1 = n.toNat
  rw [Rat.mkRat_one]
  rfl

theorem cast_pos (h0 : bins ≠ 0) : (0 : Rat) < bins.toNat :=
  Nat.cast_pos.2 (toNat_pos h0)

/-- The exact quotient that tells the place of a fraction. -/
def quotient (bins : UInt64) (lo hi x : Rat) : Rat :=
  (x - lo) * bins.toNat / (hi - lo)

theorem le_quotient_iff (h0 : bins ≠ 0) (hr : lo < hi) {k : Rat} :
    k ≤ quotient bins lo hi x ↔ lo + k * ((hi - lo) / bins.toNat) ≤ x := by
  rw [quotient, le_div_iff₀ (sub_pos.2 hr), ← mul_div_assoc, ← le_sub_iff_add_le',
    div_le_iff₀ (cast_pos h0)]

theorem quotient_lt_iff (h0 : bins ≠ 0) (hr : lo < hi) {k : Rat} :
    quotient bins lo hi x < k ↔ x < lo + k * ((hi - lo) / bins.toNat) := by
  rw [← not_le, ← not_le, le_quotient_iff h0 hr]

theorem quotient_lt (h0 : bins ≠ 0) (hr : lo < hi) (hhi : x < hi) :
    quotient bins lo hi x < bins.toNat := by
  rw [quotient_lt_iff h0 hr, mul_div_cancel₀ _ (cast_pos h0).ne', add_sub_cancel]
  exact hhi

/-- The place of a fraction within the range is the whole part of the exact quotient. -/
theorem toNat_placeBetween (h0 : bins ≠ 0) (hr : lo < hi) (hhi : x < hi) :
    (placeBetween bins lo hi x).toNat = ⌊quotient bins lo hi x⌋₊ := by
  have hplace : placeBetween bins lo hi x =
      Exact.clampWord (Rat.floor (quotient bins lo hi x)) := by
    rw [quotient, ← ofWord_rat]
    rfl
  rw [hplace, toNat_clampWord_floor]
  exact (quotient_lt h0 hr hhi).trans (by exact_mod_cast bins.toNat_lt)

/-- The bin of a fraction within the range. -/
theorem toNat_binBetween_rat (h0 : bins ≠ 0) (hb : bins.toNat + 2 < 2 ^ 64) (hlo : lo ≤ x)
    (hhi : x < hi) : (binBetween bins lo hi x).toNat = ⌊quotient bins lo hi x⌋₊ + 1 ∧
      ⌊quotient bins lo hi x⌋₊ < bins.toNat := by
  have hr := hlo.trans_lt hhi
  have hlast : ⌊quotient bins lo hi x⌋₊ < bins.toNat :=
    (Nat.floor_lt ((le_quotient_iff h0 hr).2 (by simpa using hlo))).2 (quotient_lt h0 hr hhi)
  refine ⟨?_, hlast⟩
  rw [toNat_binBetween_of_within h0 hb (not_lt.2 hlo) hhi, toNat_placeBetween h0 hr hhi,
    Nat.min_eq_left (by omega)]

/-- A fraction within the range lies in the bin that starts below it and ends above it. -/
theorem toNat_binBetween_eq_iff (h0 : bins ≠ 0) (hb : bins.toNat + 2 < 2 ^ 64) (hlo : lo ≤ x)
    (hhi : x < hi) {k : Nat} : (binBetween bins lo hi x).toNat = k + 1 ↔
      lo + k * ((hi - lo) / bins.toNat) ≤ x ∧ x < lo + (k + 1) * ((hi - lo) / bins.toNat) := by
  have hr := hlo.trans_lt hhi
  have hq : 0 ≤ quotient bins lo hi x := (le_quotient_iff h0 hr).2 (by simpa using hlo)
  rw [(toNat_binBetween_rat h0 hb hlo hhi).1, Nat.succ_inj, Nat.floor_eq_iff hq,
    le_quotient_iff h0 hr, quotient_lt_iff h0 hr]

/-- A larger fraction does not lie in an earlier bin. -/
theorem toNat_binBetween_mono (h0 : bins ≠ 0) (hb : bins.toNat + 2 < 2 ^ 64) (hr : lo < hi)
    (hxy : x ≤ y) : (binBetween bins lo hi x).toNat ≤ (binBetween bins lo hi y).toNat := by
  by_cases hlo : x < lo
  · rw [(toNat_binBetween_eq_zero_iff h0 hb).2 hlo]
    exact Nat.zero_le _
  · by_cases hhi : y < hi
    · have hx := not_lt.1 hlo
      rw [(toNat_binBetween_rat h0 hb hx (hxy.trans_lt hhi)).1,
        (toNat_binBetween_rat h0 hb (hx.trans hxy) hhi).1]
      exact Nat.succ_le_succ (Nat.floor_mono ((le_quotient_iff h0 hr).2
        (((le_quotient_iff h0 hr).1 le_rfl).trans hxy)))
    · have hy : ¬y < lo := fun h => hhi (h.trans hr)
      rw [(toNat_binBetween_eq_succ_iff (x := y) h0 hb).2 ⟨hy, hhi⟩]
      exact toNat_binBetween_le h0 hb

end Fractions

/-! ## Edges -/

theorem Spectrum.getElem?_edgesOf {bins : UInt64} {lo hi : Float} (h0 : bins ≠ 0) {k : Nat}
    (hk : k ≤ bins.toNat) : (Spectrum.edgesOf bins lo hi : List Rat)[k]? =
      some (Exact.ofFloat lo + k * ((Exact.ofFloat hi - Exact.ofFloat lo) / bins.toNat)) := by
  rcases Nat.lt_or_eq_of_le hk with hlt | rfl
  · have hword : (ofWord k.toUInt64 : Rat) = k := by
      rw [ofWord_rat]
      exact congrArg Nat.cast (UInt64.toNat_ofNat_of_lt' (hlt.trans bins.toNat_lt))
    rw [edgesOf, List.getElem?_append_left (by simpa using hlt), List.getElem?_map,
      List.getElem?_range hlt, Option.map_some, hword, ofWord_rat]
    rfl
  · rw [edgesOf, List.getElem?_append_right (by simp), mul_div_cancel₀ _ (cast_pos h0).ne',
      add_sub_cancel, List.length_map, List.length_range, Nat.sub_self]
    rfl

theorem Spectrum.length_edgesOf {bins : UInt64} {lo hi : Float} :
    (Spectrum.edgesOf bins lo hi : List Rat).length = bins.toNat + 1 := by
  rw [edgesOf, List.length_append, List.length_map, List.length_range, List.length_singleton]

/-- In exact fractions the bin of a value is the one between whose edges it lies. -/
theorem Axis.toNat_findBin_eq_iff {a : Axis} {x : Rat} (h : a.Sound)
    (hlo : Exact.ofFloat a.lo ≤ x) (hhi : x < Exact.ofFloat a.hi) {b : Nat} :
    (a.findBin x).toNat = b ↔ 1 ≤ b ∧ ∃ lower upper,
      (Spectrum.edgesOf a.bins a.lo a.hi)[b - 1]? = some lower ∧
      (Spectrum.edgesOf a.bins a.lo a.hi)[b]? = some upper ∧ lower ≤ x ∧ x < upper := by
  obtain ⟨hbin, hlast⟩ := toNat_binBetween_rat h.1 h.2 hlo hhi
  have hfind : (a.findBin x).toNat = _ := hbin
  cases b with
  | zero => exact iff_of_false (hfind ▸ Nat.succ_ne_zero _) fun h => absurd h.1 (by decide)
  | succ k =>
    rw [Nat.add_sub_cancel, and_iff_right (Nat.le_add_left 1 k)]
    by_cases hk : k + 1 ≤ a.bins.toNat
    · rw [Spectrum.getElem?_edgesOf h.1 (by omega), Spectrum.getElem?_edgesOf h.1 hk,
        Nat.cast_succ]
      simp only [Option.some_inj, exists_and_left, exists_eq_left']
      exact toNat_binBetween_eq_iff h.1 h.2 hlo hhi
    · have hnone : (Spectrum.edgesOf a.bins a.lo a.hi : List Rat)[k + 1]? = none := by
        rw [List.getElem?_eq_none_iff, Spectrum.length_edgesOf]
        omega
      refine iff_of_false (by omega) ?_
      rintro ⟨lower, upper, -, hupper, -⟩
      rw [hnone] at hupper
      cases hupper

/-- The double next to three tenths lies below the edge, and the rounded quotient on it. -/
example : (⟨10, 0, 1⟩ : Axis).findBin (Exact.ofFloat 0.3) = 3 ∧
    (⟨10, 0, 1⟩ : Axis).findBin (0.3 : Float) = 4 := by
  decide +kernel

/-- A value is classified by the search: the outer bins hold what lies outside of the range, and in
exact fractions a bin within holds what lies between its edges. -/
theorem Axis.findBin_classifies (a : Axis) (name title : String) (h0 : a.bins ≠ 0)
    (hb : a.bins.toNat ≤ 2 ^ 64 - 3) (hr : a.lo < a.hi) :
    (∀ x : Float, ((a.findBin x).toNat = 0 ↔ x < a.lo) ∧
      ((a.findBin x).toNat = a.bins.toNat + 1 ↔ x.isNaN = true ∨ a.hi ≤ x) ∧
      (¬x < a.lo → ¬(x.isNaN = true ∨ a.hi ≤ x) →
        1 ≤ (a.findBin x).toNat ∧ (a.findBin x).toNat ≤ a.bins.toNat)) ∧
    (a.lo.isFinite = true → a.hi.isFinite = true →
      (∀ x : Rat, Exact.ofFloat a.lo ≤ x → x < Exact.ofFloat a.hi → ∀ b : Nat,
        (a.findBin x).toNat = b ↔ 1 ≤ b ∧ ∃ lower upper,
          (Spectrum.make name title a.bins a.lo a.hi : Spectrum Rat).edges[b - 1]? = some lower ∧
          (Spectrum.make name title a.bins a.lo a.hi : Spectrum Rat).edges[b]? = some upper ∧
          lower ≤ x ∧ x < upper) ∧
      ∀ x y : Rat, x ≤ y → (a.findBin x).toNat ≤ (a.findBin y).toNat) := by
  have hs : a.Sound := ⟨h0, by omega⟩
  constructor
  · intro x
    refine ⟨a.toNat_findBin_eq_zero_iff hs, a.toNat_findBin_eq_succ_iff hs hr, ?_⟩
    intro hlo hhi
    have hne0 := mt (a.toNat_findBin_eq_zero_iff hs).1 hlo
    have hne1 := mt (a.toNat_findBin_eq_succ_iff hs hr).1 hhi
    have hlt := a.findBin_lt_size hs x
    rw [hs.toNat_size] at hlt
    omega
  · intro hlo hhi
    have hexact := (Double.lt_iff_exact hlo hhi).1 hr
    refine ⟨fun x hx hx' b => a.toNat_findBin_eq_iff hs hx hx', fun x y hxy => ?_⟩
    exact toNat_binBetween_mono hs.1 hs.2 hexact hxy

/-- Three tenths start the fourth of ten bins, and what is not a number lies above them all. -/
theorem Axis.findBin_tenths : ((⟨10, 0, 1⟩ : Axis).findBin (3 / 10 : Rat)).toNat = 4 ∧
    ((⟨10, 0, 1⟩ : Axis).findBin (0 / 0 : Float)).toNat = 11 := by
  obtain ⟨hdoubles, hfractions⟩ := Axis.findBin_classifies ⟨10, 0, 1⟩ "x" "" (by decide)
    (by decide) (by decide +kernel)
  obtain ⟨hbins, -⟩ := hfractions (by decide +kernel) (by decide +kernel)
  refine ⟨(hbins (3 / 10) (by decide +kernel) (by decide +kernel) 4).2
    ⟨by decide, 3 / 10, 4 / 10, ?_, ?_, by decide +kernel, by decide +kernel⟩, ?_⟩
  · decide +kernel
  · decide +kernel
  · exact (hdoubles _).2.1.2 (.inl (by decide +kernel))

end VariHist
