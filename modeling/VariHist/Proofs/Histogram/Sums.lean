import Mathlib
import VariHist.Proofs.DoubleZero
import VariHist.Proofs.Histogram.Spectrum

/-!
# Sums that start at zero

Every bin starts at zero, and what comes into it is added.  A content that is moved to an empty bin
is thereby added to zero, and it should arrive there as it was.

* `NeutralZero` — an arithmetic in which zero adds nothing to a number other than zero, nor to a sum
  of squares.  Exact arithmetic is of this kind, and so are doubles, bit by bit.
* `SquaresSummed` — the bins of a histogram hold sums of squares, which is so when it is made of
  fills (`SquaresSummed.absorbAll_fillAll`).
* `Spectrum.foldl_addToBin_apart` — contents that are added to different bins of a spectrum without
  fills are held as they are.
-/

namespace VariHist

variable {ν : Type} [FillNumber ν]

/-- Sums of squares, added up in any order from zero. -/
inductive SumOfSquares : ν → Prop where
  | zero : SumOfSquares FillNumber.zero
  | square (w : ν) : SumOfSquares (FillNumber.mul w w)
  | add {a b : ν} : SumOfSquares a → SumOfSquares b → SumOfSquares (FillNumber.add a b)

/-- An arithmetic in which zero adds nothing to a number other than zero, nor to a sum of
squares. -/
class NeutralZero (ν : Type) [FillNumber ν] : Prop where
  zero_add_of_isZero : ∀ a : ν, FillNumber.isZero a = false →
    FillNumber.add FillNumber.zero a = a
  zero_add_of_squares : ∀ a : ν, SumOfSquares a → FillNumber.add FillNumber.zero a = a

instance [ExactAddition ν] : NeutralZero ν where
  zero_add_of_isZero a _ := ExactAddition.zero_add a
  zero_add_of_squares a _ := ExactAddition.zero_add a

/-- A sum of squares of doubles is no negative zero. -/
theorem SumOfSquares.sign {x : Float} (h : SumOfSquares x) : Double.sign x = .positive := by
  induction h with
  | zero => exact Double.sign_pack (.zero .positive)
  | square w => exact Double.sign_mul_self w
  | add _ _ iha ihb => exact Double.sign_add iha ihb

instance : NeutralZero Float where
  zero_add_of_isZero _ h := Double.zero_add_of_ne_zero h
  zero_add_of_squares _ h := Double.zero_add_of_positive h.sign

/-! ## Bins -/

namespace BinContent

theorem zero_add_of_isZero [NeutralZero ν] {c : BinContent ν}
    (hw : FillNumber.isZero c.weight = false) (hs : SumOfSquares c.weightSquared) :
    BinContent.zero.add c = c :=
  ext (NeutralZero.zero_add_of_isZero _ hw) (NeutralZero.zero_add_of_squares _ hs)
    (UInt64.zero_add _)

end BinContent

/-- Bins that hold sums of squares of weights. -/
def Bins.SquaresSummed (bins : Bins ν) : Prop :=
  ∀ i : UInt64, SumOfSquares ((bins[i]?).getD (.zero : BinContent ν)).weightSquared

variable {bins : Bins ν}

theorem Bins.SquaresSummed.empty : Bins.SquaresSummed (∅ : Bins ν) := by
  intro i
  rw [Std.TreeMap.getElem?_emptyc]
  exact .zero

theorem Bins.SquaresSummed.addAt (hb : Bins.SquaresSummed bins) {c : BinContent ν}
    (hc : SumOfSquares c.weightSquared) (i : UInt64) :
    Bins.SquaresSummed (Bins.addAt bins i c) := by
  intro j
  rw [Bins.getElem?_addAt]
  split
  · exact .add (hb i) hc
  · exact hb j

theorem Bins.SquaresSummed.foldl_addAt {l : List (UInt64 × BinContent ν)}
    (hb : Bins.SquaresSummed bins) (hl : ∀ e ∈ l, SumOfSquares e.2.weightSquared) :
    Bins.SquaresSummed (l.foldl (fun b e => Bins.addAt b e.1 e.2) bins) := by
  induction l generalizing bins with
  | nil => exact hb
  | cons e l ih =>
    obtain ⟨he, hrest⟩ := List.forall_mem_cons.1 hl
    exact ih (hb.addAt he e.1) hrest

theorem Bins.SquaresSummed.of_mem_toList (hb : Bins.SquaresSummed bins)
    {e : UInt64 × BinContent ν} (he : e ∈ bins.toList) : SumOfSquares e.2.weightSquared := by
  have hi := hb e.1
  rwa [Std.TreeMap.mem_toList_iff_getElem?_eq_some.1 he, Option.getD_some] at hi

namespace SparseHistogram

/-- A histogram whose bins hold sums of squares of weights. -/
def SquaresSummed (h : SparseHistogram ν) : Prop :=
  Bins.SquaresSummed h.bins

variable {h other : SparseHistogram ν}

theorem SquaresSummed.fillAll (hh : h.SquaresSummed) (points : List (WeightedPoint ν)) :
    (h.fillAll points).SquaresSummed := by
  induction points generalizing h with
  | nil => exact hh
  | cons p points ih => exact ih (Bins.SquaresSummed.addAt hh (.square p.weight) _)

theorem SquaresSummed.absorb (hh : h.SquaresSummed) (ho : other.SquaresSummed) :
    (h.absorb other).SquaresSummed := by
  unfold SquaresSummed
  rw [bins_absorb]
  exact Bins.SquaresSummed.foldl_addAt hh fun e he => Bins.SquaresSummed.of_mem_toList ho he

theorem SquaresSummed.absorbAll {others : List (SparseHistogram ν)} (hh : h.SquaresSummed)
    (ho : ∀ o ∈ others, o.SquaresSummed) : (h.absorbAll others).SquaresSummed := by
  induction others generalizing h with
  | nil => exact hh
  | cons o others ih =>
    obtain ⟨hfirst, hrest⟩ := List.forall_mem_cons.1 ho
    exact ih (hh.absorb hfirst) hrest

/-- A sum of histograms that were filled holds sums of squares. -/
theorem SquaresSummed.absorbAll_fillAll (name : String) (axes : List Axis)
    (parts : List (List (WeightedPoint ν))) :
    ((blank name axes).absorbAll (parts.map (blank name axes).fillAll)).SquaresSummed := by
  have hblank : (blank name axes : SparseHistogram ν).SquaresSummed := Bins.SquaresSummed.empty
  refine hblank.absorbAll fun o ho => ?_
  obtain ⟨points, -, rfl⟩ := List.mem_map.1 ho
  exact hblank.fillAll points

end SparseHistogram

/-! ## Spectra -/

namespace Spectrum

variable {name title : String} {bins : UInt64} {lo hi : Float}

/-- Contents that are added to different bins, each to an empty one, are held as they are. -/
theorem foldl_addToBin_apart (content : UInt64 → BinContent ν) (hb : bins.toNat + 2 < 2 ^ 64)
    {l : List (UInt64 × BinContent ν)}
    (hl : ∀ e ∈ l, e.1.toNat ≤ bins.toNat + 1) (hnd : (l.map Prod.fst).Nodup)
    (hzero : ∀ e ∈ l, BinContent.zero.add e.2 = e.2) {start : UInt64 → BinContent ν}
    (hstart : ∀ e ∈ l, start e.1 = .zero) (hmem : ∀ e ∈ l, content e.1 = e.2)
    (hout : ∀ v : UInt64, v.toNat ≤ bins.toNat + 1 → v ∉ l.map Prod.fst → content v = start v)
    {entries : UInt64} :
    l.foldl (fun s e => s.addToBin e.1 e.2.weight e.2.weightSquared e.2.entries)
        (holding name title bins lo hi start entries) =
      holding name title bins lo hi content (entries + (l.map fun e => e.2.entries).sum) := by
  induction l generalizing start entries with
  | nil =>
    rw [List.foldl_nil, List.map_nil, List.sum_nil, UInt64.add_zero]
    exact (holding_congr hb fun v hv => hout v hv (by simp)).symm
  | cons e l ih =>
    obtain ⟨he, hl⟩ := List.forall_mem_cons.1 hl
    obtain ⟨hez, hzero⟩ := List.forall_mem_cons.1 hzero
    obtain ⟨hes, hstart⟩ := List.forall_mem_cons.1 hstart
    obtain ⟨hem, hmem⟩ := List.forall_mem_cons.1 hmem
    rw [List.map_cons, List.nodup_cons] at hnd
    have hapart : ∀ e' ∈ l, e'.1 ≠ e.1 := fun e' he' heq =>
      hnd.1 (heq ▸ List.mem_map_of_mem he')
    rw [List.foldl_cons, addToBin_holding hb he, hes, hez, ih hl hnd.2 hzero ?_ hmem ?_,
      List.map_cons, List.sum_cons, add_assoc]
    · intro e' he'
      rw [Function.update_of_ne (hapart e' he')]
      exact hstart e' he'
    · intro v hle hv
      by_cases hve : v = e.1
      · rw [hve, Function.update_self, hem]
      · rw [Function.update_of_ne hve]
        exact hout v hle (by simpa [hve] using hv)

end Spectrum

end VariHist
