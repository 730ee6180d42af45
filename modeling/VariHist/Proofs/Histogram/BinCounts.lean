import Mathlib
import VariHist.Proofs.Histogram.Indexing
import VariHist.Proofs.Systematics.Catalog

/-!
# Which bin counts are accepted

A histogram is made only if the number of all its bins fits a word.  Products of sizes are worked
out with a look at their overflow, but the size of a single axis, its bins and the two outer ones,
is not: the two largest bin counts have the sizes zero and one.

* `Axis.toNat_size` — the size of an axis in words.
* `SparseHistogram.exists_make_iff` — when axes are accepted, in terms of the sizes in words.
* `BinsFit` — when they should be, in terms of the exact sizes.
* `SparseHistogram.make_of_binsFit_iff` — axes whose bins fit a word are accepted; the others are
  refused unless a size overflows.
* `SparseHistogram.overflowing_axis_accepted` — which happens.
-/

namespace VariHist

variable {ν : Type} {axes : List Axis}

/-- The size of an axis is a word: it overflows. -/
theorem Axis.toNat_size (a : Axis) : a.size.toNat = (a.bins.toNat + 2) % 2 ^ 64 := by
  rw [Axis.size, UInt64.toNat_add]
  rfl

theorem Axis.toNat_size_eq_iff (a : Axis) :
    a.size.toNat = a.bins.toNat + 2 ↔ a.bins.toNat + 2 < 2 ^ 64 := by
  rw [Axis.toNat_size]
  exact Nat.mod_eq_iff_lt (by decide)

/-! ## Numbers of bins over the first axes -/

/-- The number of bins over the first `k` axes fits a word, whichever `k`. -/
def PrefixesFit (soFar : Nat) (sizes : List Nat) : Prop :=
  ∀ k, soFar * (sizes.take k).prod < 2 ^ 64

theorem prefixesFit_cons_iff {soFar size : Nat} {sizes : List Nat} :
    PrefixesFit soFar (size :: sizes) ↔ soFar < 2 ^ 64 ∧ PrefixesFit (soFar * size) sizes := by
  unfold PrefixesFit
  constructor
  · intro h
    refine ⟨by simpa using h 0, fun k => ?_⟩
    have hk := h (k + 1)
    rwa [List.take_succ_cons, List.prod_cons, ← Nat.mul_assoc] at hk
  · rintro ⟨hfirst, hrest⟩ k
    cases k with
    | zero => simpa using hfirst
    | succ k =>
      rw [List.take_succ_cons, List.prod_cons, ← Nat.mul_assoc]
      exact hrest k

/-- If there is no empty axis, the number of bins over all axes is the largest. -/
theorem prefixesFit_one_iff {sizes : List Nat} (h : ∀ n ∈ sizes, 1 ≤ n) :
    PrefixesFit 1 sizes ↔ sizes.prod < 2 ^ 64 := by
  constructor
  · intro hfit
    simpa using hfit sizes.length
  · intro hprod k
    have hrest : 1 ≤ (sizes.drop k).prod :=
      List.one_le_prod_of_one_le fun n hn => h n (List.mem_of_mem_drop hn)
    rw [Nat.one_mul]
    calc (sizes.take k).prod ≤ (sizes.take k).prod * (sizes.drop k).prod :=
          Nat.le_mul_of_pos_right _ hrest
      _ = sizes.prod := List.prod_take_mul_prod_drop sizes k
      _ < 2 ^ 64 := hprod

namespace SparseHistogram

/-- The check of the axes, one after another. -/
theorem checkAxes_eq_ok_iff {name : String} {soFar : UInt64} :
    checkAxes name soFar axes = .ok () ↔ (∀ a ∈ axes, a.bins ≠ 0) ∧
      PrefixesFit soFar.toNat (axes.map fun a => a.size.toNat) := by
  induction axes generalizing soFar with
  | nil =>
    have hword : PrefixesFit soFar.toNat [] := fun k => by simpa using soFar.toNat_lt
    exact iff_of_true rfl ⟨List.forall_mem_nil _, hword⟩
  | cons a axes ih =>
    rw [List.forall_mem_cons, List.map_cons, prefixesFit_cons_iff, and_iff_right soFar.toNat_lt]
    by_cases hbins : a.bins = 0
    · rw [checkAxes, if_pos hbins]
      exact iff_of_false (by simp) fun h => h.1.1 hbins
    · by_cases hfits : soFar.toNat * a.size.toNat < 2 ^ 64
      · have hstep : checkAxes name soFar (a :: axes) = checkAxes name (soFar * a.size) axes := by
          rw [checkAxes, if_neg hbins]
          exact if_pos hfits
        rw [hstep, ih, toNat_mul_of_lt hfits, and_iff_right hbins]
      · have hstep : checkAxes name soFar (a :: axes) = .error (.tooManyBins name) := by
          rw [checkAxes, if_neg hbins]
          exact if_neg hfits
        have hover : ¬ PrefixesFit (soFar.toNat * a.size.toNat) (axes.map fun a => a.size.toNat) :=
          fun h => hfits (by simpa using h 0)
        rw [hstep]
        exact iff_of_false (by simp) fun h => hover h.2

/-- Axes are accepted if there are some, each of them has bins, and the numbers of bins over the
first of them, worked out with the sizes in words, fit a word. -/
theorem exists_make_iff {name : String} :
    (∃ h : SparseHistogram ν, make name axes = .ok h) ↔ axes ≠ [] ∧ (∀ a ∈ axes, a.bins ≠ 0) ∧
      PrefixesFit 1 (axes.map fun a => a.size.toNat) := by
  have hcheck : checkAxes name 1 axes = .ok () ↔ _ := checkAxes_eq_ok_iff
  rw [UInt64.toNat_one] at hcheck
  simp only [make_eq_ok_iff, hcheck, exists_and_left, exists_eq, and_true]

end SparseHistogram

/-! ## Exact sizes -/

/-- There are axes, each of them has bins, and the number of all bins, worked out exactly, fits a
word. -/
structure BinsFit (axes : List Axis) : Prop where
  nonempty : axes ≠ []
  bins : ∀ a ∈ axes, 1 ≤ a.bins.toNat
  product : (axes.map fun a => a.bins.toNat + 2).prod ≤ 2 ^ 64 - 1

/-- No size overflows if the number of all bins fits a word. -/
theorem BinsFit.size_lt (h : BinsFit axes) {a : Axis} (ha : a ∈ axes) :
    a.bins.toNat + 2 < 2 ^ 64 := by
  have hmem : a.bins.toNat + 2 ∈ axes.map fun a => a.bins.toNat + 2 := List.mem_map_of_mem ha
  have hle := List.single_le_prod (by simp) _ hmem
  have hproduct := h.product
  omega

theorem one_le_toNat_iff {word : UInt64} : 1 ≤ word.toNat ↔ word ≠ 0 :=
  ⟨fun h h0 => by simp [h0] at h, toNat_pos⟩

namespace SparseHistogram

/-- As long as no size overflows, the check is the exact one. -/
theorem prefixesFit_sizes_iff (hsizes : ∀ a ∈ axes, a.bins.toNat + 2 < 2 ^ 64) :
    PrefixesFit 1 (axes.map fun a => a.size.toNat) ↔
      (axes.map fun a => a.bins.toNat + 2).prod ≤ 2 ^ 64 - 1 := by
  have hexact : (axes.map fun a => a.size.toNat) = axes.map fun a => a.bins.toNat + 2 :=
    List.map_congr_left fun a ha => a.toNat_size_eq_iff.2 (hsizes a ha)
  rw [hexact, prefixesFit_one_iff (by simp)]
  omega

/-- Axes are accepted without an overflow of a size exactly if their bins fit a word. -/
theorem binsFit_iff {name : String} : BinsFit axes ↔
    (∃ h : SparseHistogram ν, make name axes = .ok h) ∧
      ∀ a ∈ axes, a.bins.toNat + 2 < 2 ^ 64 := by
  constructor
  · intro h
    have hsizes : ∀ a ∈ axes, a.bins.toNat + 2 < 2 ^ 64 := fun a ha => h.size_lt ha
    refine ⟨exists_make_iff.2 ⟨h.nonempty, fun a ha => ?_, ?_⟩, hsizes⟩
    · exact one_le_toNat_iff.1 (h.bins a ha)
    · exact (prefixesFit_sizes_iff hsizes).2 h.product
  · rintro ⟨haccepted, hsizes⟩
    obtain ⟨hne, hbins, hfit⟩ := exists_make_iff.1 haccepted
    exact ⟨hne, fun a ha => one_le_toNat_iff.2 (hbins a ha), (prefixesFit_sizes_iff hsizes).1 hfit⟩

/-- Which axes are accepted.  In words: there are some, each has bins, and the sizes in words of the
first axes have a product that fits a word, however many of them are taken.  Compared with the
exact sizes: axes whose bins fit a word are accepted, and no others are as long as no size
overflows.  A size overflows for the two largest bin counts and for no other. -/
theorem make_accepts_iff (name : String) (axes : List Axis) :
    ((∃ h : SparseHistogram ν, make name axes = .ok h) ↔
      axes ≠ [] ∧ (∀ a ∈ axes, 1 ≤ a.bins.toNat) ∧
        ∀ k, ((axes.take k).map fun a => (a.bins.toNat + 2) % 2 ^ 64).prod < 2 ^ 64) ∧
    (BinsFit axes ↔ (∃ h : SparseHistogram ν, make name axes = .ok h) ∧
      ∀ a ∈ axes, a.bins.toNat + 2 < 2 ^ 64) ∧
    ∀ a : Axis, a.size.toNat = a.bins.toNat + 2 ↔
      a.bins.toNat ≠ 2 ^ 64 - 2 ∧ a.bins.toNat ≠ 2 ^ 64 - 1 := by
  refine ⟨?_, binsFit_iff, fun a => ?_⟩
  · have hprefixes : PrefixesFit 1 (axes.map fun a => a.size.toNat) ↔
        ∀ k, ((axes.take k).map fun a => (a.bins.toNat + 2) % 2 ^ 64).prod < 2 ^ 64 := by
      refine forall_congr' fun k => ?_
      rw [Nat.one_mul, ← List.map_take, funext Axis.toNat_size]
    rw [exists_make_iff, hprefixes]
    simp only [one_le_toNat_iff]
  · have hword := a.bins.toNat_lt
    rw [Axis.toNat_size_eq_iff]
    omega

/-- An axis whose size overflows is made and accepted: with `2 ^ 64 - 1` bins and the two outer
ones, it counts as having a single one. -/
theorem overflowing_axis_accepted :
    ∃ c, BinnedColumn.make "x" 0xFFFFFFFFFFFFFFFF 0 1 = .ok c ∧ (Axis.ofColumn c).size = 1 ∧
      (∃ h : SparseHistogram Float, make "h" [Axis.ofColumn c] = .ok h) ∧
      ¬ BinsFit [Axis.ofColumn c] := by
  have hcheck : checkBinning .selectionAxis "x" 0xFFFFFFFFFFFFFFFF 0 1 = .ok () :=
    checkBinning_eq_ok (by decide +kernel) (by decide) (by decide +kernel) (by decide +kernel)
      (by decide +kernel)
  refine ⟨⟨"x", 0xFFFFFFFFFFFFFFFF, 0, 1⟩, ?_, by decide, ?_, fun h => ?_⟩
  · rw [BinnedColumn.make, hcheck]
    rfl
  · exact ⟨_, make_eq_ok_iff.2 ⟨by simp, rfl, rfl⟩⟩
  · exact absurd (h.size_lt List.mem_cons_self) (by decide)

end SparseHistogram

end VariHist
