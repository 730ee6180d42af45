import Mathlib
import VariHist.Booking.Projection
import VariHist.Proofs.Histogram.Accumulation
import VariHist.Proofs.Histogram.Spectrum

/-!
# The spectra of a filled histogram

* `getElem?_spectraOf` — the spectrum under a key is made of the bins that belong there.
* `contentUnder` — what the points of a histogram make of a value bin under a key.
* `getElem?_spectraOf_points` — the spectrum under a key holds, bin by bin, what the points make of
  it; bins whose weights cancel are left out, and without any other bin there is no spectrum.
-/

namespace VariHist

variable {ν : Type} [FillNumber ν]

instance : Std.TransOrd OutputKey :=
  inferInstanceAs (Std.TransCmp (compareLex (compareOn OutputKey.path) (compareOn OutputKey.leaf)))

instance : Std.LawfulEqOrd OutputKey where
  eq_of_compare {a b} h := by
    obtain ⟨hpath, hleaf⟩ := compareLex_eq_eq.1
      (show compareLex (compareOn OutputKey.path) (compareOn OutputKey.leaf) a b = .eq from h)
    have hp : a.path = b.path := Std.LawfulEqOrd.eq_of_compare hpath
    have hl : a.leaf = b.leaf := Std.LawfulEqOrd.eq_of_compare hleaf
    cases a
    cases b
    exact congrArg₂ OutputKey.mk hp hl

/-- A bin whose weights cancel is left out. -/
def BinContent.unlessZero (c : BinContent ν) : BinContent ν :=
  if FillNumber.isZero c.weight then .zero else c

theorem BinContent.entries_sum [ExactAddition ν] (l : List (BinContent ν)) :
    l.sum.entries = (l.map BinContent.entries).sum := by
  induction l with
  | nil => rfl
  | cons c l ih =>
    rw [List.sum_cons, List.map_cons, List.sum_cons, ← ih]
    rfl

namespace Booking

variable {b : Booking} {h : SparseHistogram ν} {key : OutputKey}

/-- The value bin of coordinates. -/
def valueBin (b : Booking) (coords : List UInt64) : UInt64 :=
  coords.getD b.selection.length 0

/-- Does a stored bin belong to the spectrum under a key? -/
def countsFor (b : Booking) (axes : List Axis) (key : OutputKey) (e : UInt64 × BinContent ν) :
    Bool :=
  !FillNumber.isZero e.2.weight && b.keyOf? (coordinates axes e.1) = some key

/-- Adds a content to a spectrum, if there is one, and else to one without fills. -/
def addTo (b : Booking) (key : OutputKey) (bin : UInt64) (c : BinContent ν)
    (old : Option (Spectrum ν)) : Option (Spectrum ν) :=
  some ((old.getD (b.emptySpectrum key.leaf)).addToBin bin c.weight c.weightSquared c.entries)

theorem getElem?_addBin (spectra : Spectra ν) (axes : List Axis) (e : UInt64 × BinContent ν) :
    (b.addBin spectra (coordinates axes e.1) e.2)[key]? =
      if b.countsFor axes key e then
        b.addTo key (b.valueBin (coordinates axes e.1)) e.2 spectra[key]?
      else spectra[key]? := by
  unfold addBin countsFor
  by_cases hz : FillNumber.isZero e.2.weight = true
  · simp [hz]
  · rw [if_neg hz]
    cases hkey : b.keyOf? (coordinates axes e.1) with
    | none => simp
    | some k =>
      dsimp only
      rw [Std.TreeMap.getElem?_alter]
      by_cases hk : k = key
      · subst hk
        simp [hz]
        rfl
      · simp [hz, hk]

/-- The stored bins that belong to the spectrum under a key. -/
def binsUnder (b : Booking) (h : SparseHistogram ν) (key : OutputKey) :
    List (UInt64 × BinContent ν) :=
  h.sorted.filter (b.countsFor h.axes key)

/-- The spectrum under a key is made of the bins that belong there. -/
theorem getElem?_spectraOf (b : Booking) (h : SparseHistogram ν) (key : OutputKey) :
    (b.spectraOf h)[key]? =
      if b.binsUnder h key = [] then none
      else some (((b.binsUnder h key).map fun e => (b.valueBin (coordinates h.axes e.1), e.2)).foldl
        (fun s e => s.addToBin e.1 e.2.weight e.2.weightSquared e.2.entries)
        (b.emptySpectrum key.leaf)) := by
  have hfold : ∀ (l : List (UInt64 × BinContent ν)) (spectra : Spectra ν),
      (l.foldl (fun spectra e => b.addBin spectra (coordinates h.axes e.1) e.2) spectra)[key]? =
        (l.filter (b.countsFor h.axes key)).foldl
          (fun old e => b.addTo key (b.valueBin (coordinates h.axes e.1)) e.2 old)
          spectra[key]? := by
    intro l
    induction l with
    | nil => exact fun spectra => rfl
    | cons e l ih =>
      intro spectra
      rw [List.foldl_cons, ih, getElem?_addBin]
      by_cases he : b.countsFor h.axes key e = true
      · rw [if_pos he, List.filter_cons_of_pos he, List.foldl_cons]
      · rw [if_neg he, List.filter_cons_of_neg he]
  have hsome : ∀ (l : List (UInt64 × BinContent ν)) (s : Spectrum ν),
      l.foldl (fun old e => b.addTo key (b.valueBin (coordinates h.axes e.1)) e.2 old) (some s) =
        some ((l.map fun e => (b.valueBin (coordinates h.axes e.1), e.2)).foldl
          (fun s e => s.addToBin e.1 e.2.weight e.2.weightSquared e.2.entries) s) := by
    intro l
    induction l with
    | nil => exact fun s => rfl
    | cons e l ih => exact fun s => ih _
  refine (hfold h.sorted ∅).trans ?_
  rw [Std.TreeMap.getElem?_emptyc, ← binsUnder]
  cases b.binsUnder h key with
  | nil => rfl
  | cons e l => exact hsome l _

/-- A spectrum comes from a stored bin that belongs there. -/
theorem exists_of_mem_spectraOf (hkey : key ∈ b.spectraOf h) :
    ∃ e ∈ h.sorted, b.keyOf? (coordinates h.axes e.1) = some key := by
  rw [Std.TreeMap.mem_iff_isSome_getElem?, getElem?_spectraOf] at hkey
  split_ifs at hkey with hbins
  · cases hkey
  · obtain ⟨e, he⟩ := List.exists_mem_of_ne_nil _ hbins
    obtain ⟨hsorted, hcounts⟩ := List.mem_filter.1 he
    rw [countsFor, Bool.and_eq_true, decide_eq_true_eq] at hcounts
    exact ⟨e, hsorted, hcounts.2⟩

/-! ## Spectra of points -/

/-- Coordinates that belong to a value bin under a key. -/
def Under (b : Booking) (key : OutputKey) (bin : UInt64) (coords : List UInt64) : Prop :=
  b.keyOf? coords = some key ∧ b.valueBin coords = bin

instance (b : Booking) (key : OutputKey) (bin : UInt64) (coords : List UInt64) :
    Decidable (b.Under key bin coords) :=
  inferInstanceAs (Decidable (_ ∧ _))

/-- What points make of a value bin under a key. -/
def contentUnder (b : Booking) (axes : List Axis) (points : List (WeightedPoint ν))
    (key : OutputKey) (bin : UInt64) : BinContent ν :=
  ((points.filter fun p => b.Under key bin (binsOf axes p.coords)).map fun p =>
    .ofWeight p.weight).sum

variable {axes : List Axis} {points : List (WeightedPoint ν)} {name : String} {bin : UInt64}

/-- A stored bin is the bin of a point. -/
theorem exists_point_of_mem_sorted {M : Type} {q : BinContent ν → M} (hc : Countable axes)
    (hp : ∀ p ∈ points, p.coords.length = axes.length)
    (hk : SparseHistogram.AgreeOn q h ((SparseHistogram.blank name axes).fillAll points))
    {e : UInt64 × BinContent ν} (he : e ∈ h.sorted) :
    ∃ p ∈ points, linearIndex axes (binsOf axes p.coords) = e.1 ∧
      coordinates axes e.1 = binsOf axes p.coords := by
  obtain ⟨i, c⟩ := e
  have hi : i ∈ h.bins := SparseHistogram.mem_bins_of_mem_sorted he
  obtain hblank | ⟨p, hpm, hindex⟩ :=
    (SparseHistogram.mem_fillAll _ points i).1 ((hk.stored i).1 hi)
  · exact absurd hblank (SparseHistogram.not_mem_blank name axes i)
  · have hindex : linearIndex axes (binsOf axes p.coords) = i := hindex
    refine ⟨p, hpm, hindex, ?_⟩
    rw [← hindex]
    exact coordinates_linearIndex (inRange_binsOf hc.sound (hp p hpm)) hc.count

/-- A spectrum comes from a point that lies in a bin which belongs there. -/
theorem exists_point_of_mem_spectraOf {M : Type} {q : BinContent ν → M} (hc : Countable axes)
    (hp : ∀ p ∈ points, p.coords.length = axes.length)
    (hk : SparseHistogram.AgreeOn q h ((SparseHistogram.blank name axes).fillAll points))
    (hkey : key ∈ b.spectraOf h) : ∃ p ∈ points, b.keyOf? (binsOf axes p.coords) = some key := by
  obtain ⟨e, he, hcoords⟩ := exists_of_mem_spectraOf hkey
  obtain ⟨p, hpm, -, hpoint⟩ := exists_point_of_mem_sorted hc hp hk he
  rw [hk.axes_of_fillAll, hpoint] at hcoords
  exact ⟨p, hpm, hcoords⟩

omit [FillNumber ν] in
/-- The value bin is a bin of the value axis. -/
theorem valueBin_lt {coords : List UInt64} (hs : (Axis.ofColumn b.observable.valueAxis).Sound)
    (hr : InRange b.axes coords) :
    (b.valueBin coords).toNat < b.observable.bins.toNat + 2 := by
  obtain ⟨hlen, hall⟩ := List.forall₂_iff_get.1 hr
  have hk : b.selection.length < b.axes.length := by simp [axes]
  have hk' : b.selection.length < coords.length := hlen ▸ hk
  have hlast : b.axes.get ⟨b.selection.length, hk⟩ = Axis.ofColumn b.observable.valueAxis := by
    simp [axes]
  have hlt := hall b.selection.length hk hk'
  rw [hlast, hs.toNat_size] at hlt
  rw [valueBin, List.getD_eq_getElem?_getD, List.getElem?_eq_getElem hk', Option.getD_some]
  exact hlt

/-- The stored bins that belong to a spectrum are put into bins of the value axis. -/
theorem valueBin_of_mem_binsUnder {M : Type} {q : BinContent ν → M} (hc : Countable b.axes)
    (hp : ∀ p ∈ points, p.coords.length = b.axes.length)
    (hk : SparseHistogram.AgreeOn q h ((SparseHistogram.blank name b.axes).fillAll points))
    {e : UInt64 × BinContent ν} (he : e ∈ b.binsUnder h key) :
    (b.valueBin (coordinates h.axes e.1)).toNat < b.observable.bins.toNat + 2 := by
  obtain ⟨p, hpm, -, hcoords⟩ := exists_point_of_mem_sorted hc hp hk (List.mem_filter.1 he).1
  rw [hk.axes_of_fillAll, hcoords]
  exact valueBin_lt (hc.sound _ (by simp [axes])) (inRange_binsOf hc.sound (hp p hpm))

/-- The stored bins that belong to a value bin under a key. -/
theorem filter_binsUnder :
    (b.binsUnder h key).filter (fun e => b.valueBin (coordinates h.axes e.1) = bin) =
      (h.sorted.filter fun e => b.Under key bin (coordinates h.axes e.1)).filter
        fun e => !FillNumber.isZero e.2.weight := by
  rw [binsUnder, List.filter_filter, List.filter_filter]
  refine List.filter_congr fun e _ => ?_
  rw [Bool.eq_iff_iff]
  simp only [countsFor, Bool.and_eq_true, decide_eq_true_eq]
  unfold Under
  tauto

variable [ExactAddition ν]

/-- A stored bin holds what the points make of a value bin, if it is the bin of the same points. -/
theorem contentAt_of_under {index : UInt64}
    (hk : SparseHistogram.SameContent h ((SparseHistogram.blank name axes).fillAll points))
    (hpoint : ∀ p ∈ points, b.Under key bin (binsOf axes p.coords) ↔
      linearIndex axes (binsOf axes p.coords) = index) :
    h.contentAt index = b.contentUnder axes points key bin := by
  refine (hk.content _).trans ?_
  refine (SparseHistogram.contentAt_fillAll BinContent.additive_id _ points _).trans ?_
  rw [SparseHistogram.contentAt_blank]
  refine (zero_add _).trans ?_
  rw [contentUnder]
  refine congrArg (fun l => (List.map _ l).sum) (List.filter_congr fun p hpm => ?_)
  rw [decide_eq_decide, hpoint p hpm]
  rfl

/-- Of the stored bins that belong to the spectrum under a key, at most one lies in a value bin, if
no two bins do. -/
theorem binsUnder_eq (hc : Countable axes) (hp : ∀ p ∈ points, p.coords.length = axes.length)
    (hk : SparseHistogram.SameContent h ((SparseHistogram.blank name axes).fillAll points))
    (hone : ∀ c c', InRange axes c → InRange axes c' → b.Under key bin c → b.Under key bin c' →
      c = c') (hzero : FillNumber.isZero (FillNumber.zero : ν) = true) :
    ((b.binsUnder h key).filter fun e => b.valueBin (coordinates h.axes e.1) = bin).map Prod.snd =
      if FillNumber.isZero (b.contentUnder axes points key bin).weight then []
      else [b.contentUnder axes points key bin] := by
  have hrange : ∀ p ∈ points, InRange axes (binsOf axes p.coords) :=
    fun p hpm => inRange_binsOf hc.sound (hp p hpm)
  have hstored := fun e he => exists_point_of_mem_sorted hc hp hk (e := e) he
  rw [filter_binsUnder, hk.axes_of_fillAll]
  by_cases hex : ∃ p ∈ points, b.Under key bin (binsOf axes p.coords)
  · obtain ⟨p, hpm, hunder⟩ := hex
    have hpoint : ∀ p' ∈ points, b.Under key bin (binsOf axes p'.coords) ↔
        linearIndex axes (binsOf axes p'.coords) = linearIndex axes (binsOf axes p.coords) := by
      intro p' hpm'
      rw [linearIndex_inj (hrange p' hpm') (hrange p hpm) hc.count]
      exact ⟨fun hu => hone _ _ (hrange p' hpm') (hrange p hpm) hu hunder, fun heq => heq ▸ hunder⟩
    have hsorted : h.sorted.filter (fun e => b.Under key bin (coordinates axes e.1)) =
        h.sorted.filter fun e => e.1 = linearIndex axes (binsOf axes p.coords) := by
      refine List.filter_congr fun e he => ?_
      obtain ⟨p', hpm', hindex, hcoords⟩ := hstored e he
      rw [decide_eq_decide, hcoords, hpoint p' hpm', hindex]
    have hmem : linearIndex axes (binsOf axes p.coords) ∈ h.bins :=
      (hk.stored _).2 ((SparseHistogram.mem_fillAll _ points _).2 (.inr ⟨p, hpm, rfl⟩))
    rw [hsorted, SparseHistogram.sorted, SparseHistogram.filter_toList_eq,
      SparseHistogram.getElem?_eq_ite, if_pos hmem, contentAt_of_under hk hpoint, Option.map_some,
      Option.toList_some, List.filter_singleton]
    by_cases hz : FillNumber.isZero (b.contentUnder axes points key bin).weight = true
    · simp [hz]
    · simp [hz]
  · have hnone : h.sorted.filter (fun e => b.Under key bin (coordinates axes e.1)) = [] := by
      rw [List.filter_eq_nil_iff]
      intro e he hu
      obtain ⟨p, hpm, -, hcoords⟩ := hstored e he
      rw [hcoords] at hu
      exact hex ⟨p, hpm, of_decide_eq_true hu⟩
    have hempty : b.contentUnder axes points key bin = 0 := by
      rw [contentUnder, List.filter_eq_nil_iff.2 fun p hpm hu =>
        hex ⟨p, hpm, of_decide_eq_true hu⟩]
      rfl
    have hweight : (0 : BinContent ν).weight = FillNumber.zero := rfl
    rw [hnone, hempty, hweight, hzero]
    rfl

/-- What points make of the spectrum under a key. -/
def spectrumUnder (b : Booking) (points : List (WeightedPoint ν)) (key : OutputKey) : Spectrum ν :=
  let content := fun bin => (b.contentUnder b.axes points key bin).unlessZero
  .holding key.leaf b.observable.label b.observable.bins b.observable.lo b.observable.hi content
    ((List.range (b.observable.bins.toNat + 2)).map fun i => (content i.toUInt64).entries).sum

section Points

variable (hc : Countable b.axes) (hp : ∀ p ∈ points, p.coords.length = b.axes.length)
  (hk : SparseHistogram.SameContent h ((SparseHistogram.blank name b.axes).fillAll points))
  (hone : ∀ bin c c', InRange b.axes c → InRange b.axes c' → b.Under key bin c →
    b.Under key bin c' → c = c') (hzero : FillNumber.isZero (FillNumber.zero : ν) = true)
include hc hp hk hone hzero

/-- The stored bins that belong to a spectrum add up to what the points make of it. -/
theorem sum_binsUnder (bin : UInt64) :
    (((b.binsUnder h key).filter fun e =>
      b.valueBin (coordinates h.axes e.1) = bin).map Prod.snd).sum =
        (b.contentUnder b.axes points key bin).unlessZero := by
  rw [binsUnder_eq hc hp hk (hone bin) hzero, BinContent.unlessZero]
  split_ifs with hz
  · rfl
  · exact List.sum_singleton

/-- No stored bin belongs to a spectrum if all weights cancel. -/
theorem binsUnder_ne_nil_iff : b.binsUnder h key ≠ [] ↔
    ∃ bin, FillNumber.isZero (b.contentUnder b.axes points key bin).weight = false := by
  have hslice := fun bin => binsUnder_eq hc hp hk (hone bin) hzero
  constructor
  · intro hne
    obtain ⟨e, he⟩ := List.exists_mem_of_ne_nil _ hne
    refine ⟨b.valueBin (coordinates h.axes e.1), ?_⟩
    have hmem : e.2 ∈ ((b.binsUnder h key).filter fun e' => b.valueBin (coordinates h.axes e'.1) =
        b.valueBin (coordinates h.axes e.1)).map Prod.snd :=
      List.mem_map_of_mem (List.mem_filter.2 ⟨he, decide_eq_true rfl⟩)
    rw [hslice] at hmem
    by_contra hz
    rw [if_pos (by simpa using hz)] at hmem
    cases hmem
  · rintro ⟨bin, hbin⟩ hnil
    have hempty := hslice bin
    rw [hnil, if_neg (by simp [hbin])] at hempty
    cases hempty

/-- Their entries, one value bin after another. -/
theorem sum_entries_binsUnder : ((b.binsUnder h key).map fun e => e.2.entries).sum =
    ((List.range (b.observable.bins.toNat + 2)).map fun i =>
      ((b.contentUnder b.axes points key i.toUInt64).unlessZero).entries).sum := by
  have hbins : b.observable.bins.toNat + 2 < 2 ^ 64 :=
    (hc.sound (Axis.ofColumn b.observable.valueAxis) (by simp [axes])).2
  rw [sum_map_eq_sum_filter (fun e => (b.valueBin (coordinates h.axes e.1)).toNat) _
    fun e he => valueBin_of_mem_binsUnder hc hp hk he]
  refine congrArg List.sum (List.map_congr_left fun i hi => ?_)
  have hi : i < 2 ^ 64 := (List.mem_range.1 hi).trans hbins
  have hfilter : (b.binsUnder h key).filter
      (fun e => (b.valueBin (coordinates h.axes e.1)).toNat = i) =
      (b.binsUnder h key).filter fun e => b.valueBin (coordinates h.axes e.1) = i.toUInt64 := by
    refine List.filter_congr fun e _ => decide_eq_decide.2 ?_
    rw [← UInt64.toNat_inj, UInt64.toNat_ofNat_of_lt' hi]
  rw [← sum_binsUnder hc hp hk hone hzero, BinContent.entries_sum, List.map_map, hfilter]
  rfl

/-- Put into a spectrum one after another, the stored bins make of it what the points do. -/
theorem foldl_addToBin_binsUnder :
    ((b.binsUnder h key).map fun e => (b.valueBin (coordinates h.axes e.1), e.2)).foldl
        (fun s e => s.addToBin e.1 e.2.weight e.2.weightSquared e.2.entries)
        (b.emptySpectrum key.leaf) = b.spectrumUnder points key := by
  have hbins : b.observable.bins.toNat + 2 < 2 ^ 64 :=
    (hc.sound (Axis.ofColumn b.observable.valueAxis) (by simp [axes])).2
  have hfilled : (fun bin => BinContent.zero + ((((b.binsUnder h key).map fun e =>
      (b.valueBin (coordinates h.axes e.1), e.2)).filter fun e => e.1 = bin).map
        Prod.snd).sum) = fun bin => (b.contentUnder b.axes points key bin).unlessZero := by
    funext bin
    rw [List.filter_map, List.map_map, ← sum_binsUnder hc hp hk hone hzero]
    exact zero_add _
  rw [emptySpectrum, Spectrum.make_eq_holding, Spectrum.foldl_addToBin hbins _ (by
    rw [List.forall_mem_map]
    exact fun e he => Nat.lt_succ_iff.1 (valueBin_of_mem_binsUnder hc hp hk he)), hfilled,
    zero_add, List.map_map]
  change Spectrum.holding _ _ _ _ _ _ ((b.binsUnder h key).map fun e => e.2.entries).sum = _
  rw [sum_entries_binsUnder hc hp hk hone hzero]
  rfl

/-- The spectrum under a key holds, bin by bin, what the points make of it.  Bins whose weights
cancel are left out, and without any other bin there is no spectrum. -/
theorem getElem?_spectraOf_points {s : Spectrum ν} :
    (b.spectraOf h)[key]? = some s ↔
      (∃ bin, FillNumber.isZero (b.contentUnder b.axes points key bin).weight = false) ∧
        s = b.spectrumUnder points key := by
  rw [getElem?_spectraOf, foldl_addToBin_binsUnder hc hp hk hone hzero,
    ← binsUnder_ne_nil_iff hc hp hk hone hzero]
  by_cases hnil : b.binsUnder h key = []
  · simp [hnil]
  · rw [if_neg hnil, Option.some_inj, and_iff_right hnil, eq_comm]

end Points

end Booking

end VariHist
