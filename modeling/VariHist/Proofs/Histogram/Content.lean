import Mathlib
import VariHist.Histogram.Slotted
import VariHist.Proofs.Double

/-!
# What the bins of a sparse histogram hold

A bin is filled with weights and absorbs the bins of other histograms.  Here its content is read
as a sum, so that the order in which things were put into it no longer matters.

* `IsAdditive` — a quantity of a bin content that turns sums of contents into sums.  The number of
  entries is one in any arithmetic; in an arithmetic whose addition is exact, the whole content is.
* `contentAt_fillAll`, `mem_fillAll` — a bin filled point by point holds the sum over the points
  that lie in it, and is stored exactly when there is such a point.
* `contentAt_absorbAll`, `mem_absorbAll` — the same for histograms that are added up.
* `SameCounts`, `SameContent` — two histograms store the same bins with the same entries, and with
  the same weights: neither the order of points (`fillAll_perm`) nor the order of histograms
  (`absorbAll_perm`) matters, nor how the points are shared out (`absorbAll_map_fillAll`).
-/

namespace VariHist

variable {ν : Type} [FillNumber ν]

/-! ## Arithmetics -/

/-- An arithmetic in which a double counts as zero exactly when it is, of either sign. -/
class LawfulFillNumber (ν : Type) [FillNumber ν] : Prop where
  isZero_ofFloat : ∀ x : Float, FillNumber.isZero (FillNumber.ofFloat x : ν) = (x == 0)

instance : LawfulFillNumber Float where
  isZero_ofFloat _ := rfl

instance : LawfulFillNumber Rat where
  isZero_ofFloat := Double.isZero_exact

/-- An arithmetic whose addition does not round. -/
class ExactAddition (ν : Type) [FillNumber ν] : Prop where
  zero_add : ∀ a : ν, FillNumber.add FillNumber.zero a = a
  add_comm : ∀ a b : ν, FillNumber.add a b = FillNumber.add b a
  add_assoc : ∀ a b c : ν, FillNumber.add (FillNumber.add a b) c =
    FillNumber.add a (FillNumber.add b c)

theorem FillNumber.zero_rat : (FillNumber.zero : Rat) = 0 := by decide +kernel

instance : ExactAddition Rat where
  zero_add a := (congrArg (· + a) FillNumber.zero_rat).trans (Rat.zero_add a)
  add_comm := Rat.add_comm
  add_assoc := Rat.add_assoc

/-- Words are summed up like the numbers that they stand for, as long as the sum fits. -/
theorem toNat_sum_map {β : Type} (f : β → UInt64) {l : List β}
    (hl : (l.map fun a => (f a).toNat).sum < 2 ^ 64) :
    (l.map f).sum.toNat = (l.map fun a => (f a).toNat).sum := by
  induction l with
  | nil => rfl
  | cons a l ih =>
    rw [List.map_cons, List.sum_cons] at hl ⊢
    rw [List.map_cons, List.sum_cons, UInt64.toNat_add, ih (by omega)]
    exact Nat.mod_eq_of_lt hl

namespace BinContent

omit [FillNumber ν] in
@[ext] theorem ext {a b : BinContent ν} (hw : a.weight = b.weight)
    (hs : a.weightSquared = b.weightSquared) (he : a.entries = b.entries) : a = b := by
  cases a
  cases b
  simp_all

instance : Zero (BinContent ν) := ⟨zero⟩

instance : Add (BinContent ν) := ⟨add⟩

/-- With exact addition, contents can be added up in any order. -/
instance [ExactAddition ν] : AddCommMonoid (BinContent ν) where
  zero_add _ := ext (ExactAddition.zero_add _) (ExactAddition.zero_add _) (UInt64.zero_add _)
  add_zero _ := ext ((ExactAddition.add_comm _ _).trans (ExactAddition.zero_add _))
    ((ExactAddition.add_comm _ _).trans (ExactAddition.zero_add _)) (UInt64.add_zero _)
  add_comm _ _ := ext (ExactAddition.add_comm _ _) (ExactAddition.add_comm _ _)
    (UInt64.add_comm _ _)
  add_assoc _ _ _ := ext (ExactAddition.add_assoc _ _ _) (ExactAddition.add_assoc _ _ _)
    (UInt64.add_assoc _ _ _)
  nsmul := nsmulRec

/-- A quantity of bin contents that turns sums of contents into sums. -/
structure IsAdditive {M : Type} [AddCommMonoid M] (q : BinContent ν → M) : Prop where
  zero : q .zero = 0
  add : ∀ a b, q (a.add b) = q a + q b

/-- The number of entries adds up in any arithmetic. -/
theorem additive_entries : IsAdditive (entries : BinContent ν → UInt64) :=
  ⟨rfl, fun _ _ => rfl⟩

/-- With exact addition, the content as a whole adds up. -/
theorem additive_id [ExactAddition ν] : IsAdditive (id : BinContent ν → BinContent ν) :=
  ⟨rfl, fun _ _ => rfl⟩

end BinContent

/-! ## One bin -/

/-- A point to be filled, with its weight. -/
structure WeightedPoint (ν : Type) where
  coords : List ν
  weight : ν

theorem Bins.getElem?_addAt (bins : Bins ν) (i j : UInt64) (c : BinContent ν) :
    (Bins.addAt bins i c)[j]? = if i = j then some ((bins[i]?.getD .zero).add c) else bins[j]? := by
  rw [Bins.addAt, Std.TreeMap.getElem?_alter]
  by_cases h : i = j
  · simp [h]
  · simp [h]

theorem Bins.mem_addAt (bins : Bins ν) (i j : UInt64) (c : BinContent ν) :
    j ∈ Bins.addAt bins i c ↔ i = j ∨ j ∈ bins := by
  rw [Std.TreeMap.mem_iff_isSome_getElem?, Std.TreeMap.mem_iff_isSome_getElem?,
    Bins.getElem?_addAt]
  by_cases h : i = j
  · simp [h]
  · simp [h]

namespace SparseHistogram

variable {M : Type} [AddCommMonoid M] {q : BinContent ν → M}

/-- A histogram without fills. -/
def blank (name : String) (axes : List Axis) : SparseHistogram ν :=
  ⟨name, axes, ∅, 0⟩

/-- The content of the bin with a linear index; zero if it is not stored. -/
def contentAt (h : SparseHistogram ν) (i : UInt64) : BinContent ν :=
  (h.bins[i]?).getD .zero

/-- The linear index of the bin of a point. -/
def indexOf (h : SparseHistogram ν) (coords : List ν) : UInt64 :=
  linearIndex h.axes (h.locate coords)

/-- Fills points one after another. -/
def fillAll (h : SparseHistogram ν) (points : List (WeightedPoint ν)) : SparseHistogram ν :=
  points.foldl (fun h p => h.fill p.coords p.weight) h

/-- Absorbs histograms one after another. -/
def absorbAll (h : SparseHistogram ν) (others : List (SparseHistogram ν)) : SparseHistogram ν :=
  others.foldl absorb h

theorem getElem?_eq_ite (h : SparseHistogram ν) (i : UInt64) [Decidable (i ∈ h.bins)] :
    h.bins[i]? = if i ∈ h.bins then some (h.contentAt i) else none := by
  by_cases hi : i ∈ h.bins
  · obtain ⟨c, hc⟩ := Option.isSome_iff_exists.1 (Std.TreeMap.mem_iff_isSome_getElem?.1 hi)
    rw [if_pos hi, contentAt, hc, Option.getD_some]
  · rw [if_neg hi]
    exact Std.TreeMap.getElem?_eq_none hi

omit [FillNumber ν] in
theorem mem_bins_of_mem_sorted {h : SparseHistogram ν} {e : UInt64 × BinContent ν}
    (he : e ∈ h.sorted) : e.1 ∈ h.bins := by
  rw [Std.TreeMap.mem_iff_isSome_getElem?, Std.TreeMap.mem_toList_iff_getElem?_eq_some.1 he]
  rfl

theorem contentAt_of_not_mem {h : SparseHistogram ν} {i : UInt64} (hi : i ∉ h.bins) :
    h.contentAt i = .zero := by
  rw [contentAt, Std.TreeMap.getElem?_eq_none hi, Option.getD_none]

omit [FillNumber ν] in
@[simp] theorem not_mem_blank (name : String) (axes : List Axis) (i : UInt64) :
    i ∉ (blank name axes : SparseHistogram ν).bins :=
  Std.TreeMap.not_mem_emptyc

@[simp] theorem contentAt_blank (name : String) (axes : List Axis) (i : UInt64) :
    (blank name axes : SparseHistogram ν).contentAt i = .zero :=
  contentAt_of_not_mem (not_mem_blank name axes i)

omit [FillNumber ν] in
@[simp] theorem entries_blank (name : String) (axes : List Axis) :
    (blank name axes : SparseHistogram ν).entries = 0 := rfl

omit [FillNumber ν] in
/-- A histogram is made if there are axes and they pass their check. -/
theorem make_eq_ok_iff {name : String} {axes : List Axis} {h : SparseHistogram ν} :
    make name axes = .ok h ↔
      axes ≠ [] ∧ checkAxes name 1 axes = .ok () ∧ h = blank name axes := by
  unfold make
  cases axes with
  | nil => simp [throw, throwThe, MonadExceptOf.throw, bind, Except.bind]
  | cons a axes =>
    cases checkAxes name 1 (a :: axes) with
    | error e => simp [bind, Except.bind]
    | ok u => simp [bind, Except.bind, pure, Except.pure, blank, eq_comm]

omit [FillNumber ν] in
theorem make_eq_ok {name : String} {axes : List Axis} {h : SparseHistogram ν}
    (hm : make name axes = .ok h) : h = blank name axes :=
  (make_eq_ok_iff.1 hm).2.2

/-! ## Filling -/

@[simp] theorem axes_fill (h : SparseHistogram ν) (p : List ν) (w : ν) :
    (h.fill p w).axes = h.axes := rfl

@[simp] theorem indexOf_fill (h : SparseHistogram ν) (p : List ν) (w : ν) :
    (h.fill p w).indexOf = h.indexOf := rfl

theorem mem_fill (h : SparseHistogram ν) (p : List ν) (w : ν) (i : UInt64) :
    i ∈ (h.fill p w).bins ↔ h.indexOf p = i ∨ i ∈ h.bins :=
  Bins.mem_addAt _ _ _ _

theorem contentAt_fill (h : SparseHistogram ν) (p : List ν) (w : ν) (i : UInt64) :
    (h.fill p w).contentAt i =
      if h.indexOf p = i then (h.contentAt i).add (.ofWeight w) else h.contentAt i := by
  rw [contentAt, show (h.fill p w).bins = Bins.addAt h.bins (h.indexOf p) (.ofWeight w) from rfl,
    Bins.getElem?_addAt]
  by_cases hp : h.indexOf p = i
  · rw [if_pos hp, if_pos hp, hp, Option.getD_some, contentAt]
  · rw [if_neg hp, if_neg hp, contentAt]

@[simp] theorem name_fillAll (h : SparseHistogram ν) (points : List (WeightedPoint ν)) :
    (h.fillAll points).name = h.name := by
  induction points generalizing h with
  | nil => rfl
  | cons p points ih => exact ih _

@[simp] theorem axes_fillAll (h : SparseHistogram ν) (points : List (WeightedPoint ν)) :
    (h.fillAll points).axes = h.axes := by
  induction points generalizing h with
  | nil => rfl
  | cons p points ih => exact ih _

theorem fillAll_append (h : SparseHistogram ν) (points more : List (WeightedPoint ν)) :
    h.fillAll (points ++ more) = (h.fillAll points).fillAll more :=
  List.foldl_append

/-- A bin is stored exactly when a point lies in it. -/
theorem mem_fillAll (h : SparseHistogram ν) (points : List (WeightedPoint ν)) (i : UInt64) :
    i ∈ (h.fillAll points).bins ↔ i ∈ h.bins ∨ ∃ p ∈ points, h.indexOf p.coords = i := by
  induction points generalizing h with
  | nil => simp [fillAll]
  | cons p points ih =>
    have hstep := ih (h.fill p.coords p.weight)
    rw [mem_fill, indexOf_fill] at hstep
    rw [show h.fillAll (p :: points) = (h.fill p.coords p.weight).fillAll points from rfl, hstep,
      List.exists_mem_cons_iff]
    tauto

/-- A bin holds the sum over the points that lie in it. -/
theorem contentAt_fillAll (hq : BinContent.IsAdditive q) (h : SparseHistogram ν)
    (points : List (WeightedPoint ν)) (i : UInt64) :
    q ((h.fillAll points).contentAt i) = q (h.contentAt i) +
      ((points.filter fun p => h.indexOf p.coords = i).map fun p =>
        q (.ofWeight p.weight)).sum := by
  induction points generalizing h with
  | nil => simp [fillAll]
  | cons p points ih =>
    have hstep := ih (h.fill p.coords p.weight)
    rw [indexOf_fill, contentAt_fill] at hstep
    rw [show h.fillAll (p :: points) = (h.fill p.coords p.weight).fillAll points from rfl, hstep]
    by_cases hp : h.indexOf p.coords = i
    · simp [hp, hq.add, add_assoc]
    · simp [hp]

/-- Every point counts once. -/
theorem entries_fillAll (h : SparseHistogram ν) (points : List (WeightedPoint ν)) :
    (h.fillAll points).entries = h.entries + (points.map fun _ => (1 : UInt64)).sum := by
  induction points generalizing h with
  | nil => simp [fillAll]
  | cons p points ih =>
    have hstep := ih (h.fill p.coords p.weight)
    rw [show (h.fill p.coords p.weight).entries = h.entries + 1 from rfl] at hstep
    rw [show h.fillAll (p :: points) = (h.fill p.coords p.weight).fillAll points from rfl, hstep,
      List.map_cons, List.sum_cons, add_assoc]

/-! ## Absorbing -/

theorem foldl_addAt_entry (hq : BinContent.IsAdditive q) (i : UInt64)
    (entries : List (UInt64 × BinContent ν)) (bins : Bins ν) :
    q (((entries.foldl (fun b e => Bins.addAt b e.1 e.2) bins)[i]?).getD .zero) =
      q ((bins[i]?).getD .zero) + ((entries.filter fun e => e.1 = i).map fun e => q e.2).sum := by
  induction entries generalizing bins with
  | nil => simp
  | cons e entries ih =>
    rw [List.foldl_cons, ih, Bins.getElem?_addAt]
    by_cases h : e.1 = i
    · simp [h, hq.add, add_assoc]
    · simp [h]

theorem foldl_addAt_mem (i : UInt64) (entries : List (UInt64 × BinContent ν)) (bins : Bins ν) :
    i ∈ entries.foldl (fun b e => Bins.addAt b e.1 e.2) bins ↔
      i ∈ bins ∨ ∃ e ∈ entries, e.1 = i := by
  induction entries generalizing bins with
  | nil => simp
  | cons e entries ih =>
    rw [List.foldl_cons, ih, Bins.mem_addAt, List.exists_mem_cons_iff]
    tauto

omit [FillNumber ν] in
/-- The entries of a map under one key: at most one. -/
theorem filter_toList_eq (bins : Bins ν) (i : UInt64) :
    (bins.toList.filter fun e => e.1 = i) = (bins[i]?.map fun c => (i, c)).toList := by
  have hnd : (bins.toList.filter fun e => e.1 = i).Pairwise fun a b => False := by
    refine List.Pairwise.imp_of_mem ?_ ((Std.TreeMap.distinct_keys_toList (t := bins)).filter _)
    intro a b ha hb hab
    have h1 : a.1 = i := by simpa using (List.mem_filter.1 ha).2
    have h2 : b.1 = i := by simpa using (List.mem_filter.1 hb).2
    exact hab (by rw [h1, h2]; exact Std.ReflCmp.compare_self)
  have hmem : ∀ c, (i, c) ∈ bins.toList.filter (fun e => e.1 = i) ↔ bins[i]? = some c := by
    intro c
    rw [List.mem_filter, Std.TreeMap.mem_toList_iff_getElem?_eq_some]
    simp
  cases hl : bins.toList.filter fun e => e.1 = i with
  | nil =>
    cases hb : bins[i]? with
    | none => rfl
    | some c => exact absurd ((hmem c).2 hb) (by rw [hl]; simp)
  | cons e rest =>
    rw [hl] at hnd
    have hrest : rest = [] := by
      cases rest with
      | nil => rfl
      | cons b rest => exact absurd (List.rel_of_pairwise_cons hnd List.mem_cons_self) not_false
    have he : e ∈ bins.toList.filter fun e => e.1 = i := by rw [hl]; exact List.mem_cons_self
    have hei : e.1 = i := by simpa using (List.mem_filter.1 he).2
    obtain ⟨j, c⟩ := e
    subst hei
    rw [(hmem c).1 he, hrest]
    rfl

@[simp] theorem axes_absorb (h other : SparseHistogram ν) : (h.absorb other).axes = h.axes := rfl

theorem bins_absorb (h other : SparseHistogram ν) :
    (h.absorb other).bins =
      other.bins.toList.foldl (fun b e => Bins.addAt b e.1 e.2) h.bins := by
  rw [absorb, Std.TreeMap.foldl_eq_foldl_toList]

theorem mem_absorb (h other : SparseHistogram ν) (i : UInt64) :
    i ∈ (h.absorb other).bins ↔ i ∈ h.bins ∨ i ∈ other.bins := by
  rw [bins_absorb, foldl_addAt_mem]
  refine or_congr Iff.rfl ⟨?_, ?_⟩
  · rintro ⟨⟨j, c⟩, hc, rfl⟩
    rw [Std.TreeMap.mem_toList_iff_getElem?_eq_some] at hc
    exact Std.TreeMap.mem_iff_isSome_getElem?.2 (by rw [hc]; rfl)
  · intro hi
    obtain ⟨c, hc⟩ := Option.isSome_iff_exists.1 (Std.TreeMap.mem_iff_isSome_getElem?.1 hi)
    exact ⟨(i, c), Std.TreeMap.mem_toList_iff_getElem?_eq_some.2 hc, rfl⟩

theorem contentAt_absorb (hq : BinContent.IsAdditive q) (h other : SparseHistogram ν) (i : UInt64) :
    q ((h.absorb other).contentAt i) = q (h.contentAt i) + q (other.contentAt i) := by
  rw [contentAt, bins_absorb, foldl_addAt_entry hq, filter_toList_eq]
  cases hc : other.bins[i]? with
  | none => simp [contentAt, hc, hq.zero]
  | some c => simp [contentAt, hc]

@[simp] theorem axes_absorbAll (h : SparseHistogram ν) (others : List (SparseHistogram ν)) :
    (h.absorbAll others).axes = h.axes := by
  induction others generalizing h with
  | nil => rfl
  | cons o others ih => exact ih _

/-- A bin of a sum of histograms is stored exactly when one of them stores it. -/
theorem mem_absorbAll (h : SparseHistogram ν) (others : List (SparseHistogram ν)) (i : UInt64) :
    i ∈ (h.absorbAll others).bins ↔ i ∈ h.bins ∨ ∃ o ∈ others, i ∈ o.bins := by
  induction others generalizing h with
  | nil => simp [absorbAll]
  | cons o others ih =>
    rw [show h.absorbAll (o :: others) = (h.absorb o).absorbAll others from rfl, ih, mem_absorb,
      List.exists_mem_cons_iff]
    tauto

/-- A bin of a sum of histograms holds the sum of their bins. -/
theorem contentAt_absorbAll (hq : BinContent.IsAdditive q) (h : SparseHistogram ν)
    (others : List (SparseHistogram ν)) (i : UInt64) :
    q ((h.absorbAll others).contentAt i) =
      q (h.contentAt i) + (others.map fun o => q (o.contentAt i)).sum := by
  induction others generalizing h with
  | nil => simp [absorbAll]
  | cons o others ih =>
    rw [show h.absorbAll (o :: others) = (h.absorb o).absorbAll others from rfl, ih,
      contentAt_absorb hq, List.map_cons, List.sum_cons, add_assoc]

theorem entries_absorbAll (h : SparseHistogram ν) (others : List (SparseHistogram ν)) :
    (h.absorbAll others).entries = h.entries + (others.map SparseHistogram.entries).sum := by
  induction others generalizing h with
  | nil => simp [absorbAll]
  | cons o others ih =>
    have hstep := ih (h.absorb o)
    rw [show (h.absorb o).entries = h.entries + o.entries from rfl] at hstep
    rw [show h.absorbAll (o :: others) = (h.absorb o).absorbAll others from rfl, hstep,
      List.map_cons, List.sum_cons, add_assoc]

/-! ## Equal contents -/

/-- Two histograms over the same axes store the same bins, hold the same quantity in each, and
count the same number of fills. -/
structure AgreeOn (q : BinContent ν → M) (h k : SparseHistogram ν) : Prop where
  axes : h.axes = k.axes
  stored : ∀ i, i ∈ h.bins ↔ i ∈ k.bins
  content : ∀ i, q (h.contentAt i) = q (k.contentAt i)
  entries : h.entries = k.entries

/-- The same bins are stored, with the same numbers of entries. -/
abbrev SameCounts (h k : SparseHistogram ν) : Prop :=
  AgreeOn BinContent.entries h k

/-- The same bins are stored, with the same entries, weights and squared weights. -/
abbrev SameContent [ExactAddition ν] (h k : SparseHistogram ν) : Prop :=
  AgreeOn (id : BinContent ν → BinContent ν) h k

omit [AddCommMonoid M] [FillNumber ν] in
theorem AgreeOn.trans [FillNumber ν] {h k l : SparseHistogram ν} (hk : AgreeOn q h k)
    (kl : AgreeOn q k l) : AgreeOn q h l :=
  ⟨hk.axes.trans kl.axes, fun i => (hk.stored i).trans (kl.stored i),
    fun i => (hk.content i).trans (kl.content i), hk.entries.trans kl.entries⟩

omit [AddCommMonoid M] in
/-- What agrees with a histogram that was filled has the axes that it was made with. -/
theorem AgreeOn.axes_of_fillAll {h : SparseHistogram ν} {q : BinContent ν → M} {name : String}
    {axes : List Axis} {points : List (WeightedPoint ν)}
    (hk : AgreeOn q h ((blank name axes).fillAll points)) : h.axes = axes := by
  rw [hk.axes, axes_fillAll]
  rfl

/-- The order in which points are filled is of no concern. -/
theorem fillAll_perm (hq : BinContent.IsAdditive q) (h : SparseHistogram ν)
    {points order : List (WeightedPoint ν)} (hp : points.Perm order) :
    AgreeOn q (h.fillAll points) (h.fillAll order) where
  axes := by rw [axes_fillAll, axes_fillAll]
  stored i := by simp only [mem_fillAll, hp.mem_iff]
  content i := by
    rw [contentAt_fillAll hq, contentAt_fillAll hq]
    exact congrArg _ ((hp.filter _).map _).sum_eq
  entries := by
    rw [entries_fillAll, entries_fillAll]
    exact congrArg _ (hp.map _).sum_eq

/-- The order in which histograms are absorbed is of no concern. -/
theorem absorbAll_perm (hq : BinContent.IsAdditive q) (h : SparseHistogram ν)
    {others order : List (SparseHistogram ν)} (hp : others.Perm order) :
    AgreeOn q (h.absorbAll others) (h.absorbAll order) where
  axes := by rw [axes_absorbAll, axes_absorbAll]
  stored i := by simp only [mem_absorbAll, hp.mem_iff]
  content i := by
    rw [contentAt_absorbAll hq, contentAt_absorbAll hq]
    exact congrArg _ (hp.map _).sum_eq
  entries := by
    rw [entries_absorbAll, entries_absorbAll]
    exact congrArg _ (hp.map _).sum_eq

/-- Histograms filled apart and added up hold what one histogram filled with everything holds. -/
theorem absorbAll_map_fillAll (hq : BinContent.IsAdditive q) (name : String) (axes : List Axis)
    (parts : List (List (WeightedPoint ν))) :
    AgreeOn q ((blank name axes).absorbAll (parts.map (blank name axes).fillAll))
      ((blank name axes).fillAll parts.flatten) where
  axes := by rw [axes_absorbAll, axes_fillAll]
  stored i := by
    simp only [mem_absorbAll, mem_fillAll, not_mem_blank, false_or, List.mem_map,
      exists_exists_and_eq_and,
      List.mem_flatten]
    exact ⟨fun ⟨part, hpart, p, hp, hi⟩ => ⟨p, ⟨part, hpart, hp⟩, hi⟩,
      fun ⟨p, ⟨part, hpart, hp⟩, hi⟩ => ⟨part, hpart, p, hp, hi⟩⟩
  content i := by
    rw [contentAt_absorbAll hq, contentAt_fillAll hq, List.map_map]
    refine congrArg _ ?_
    induction parts with
    | nil => rfl
    | cons part parts ih =>
      rw [List.map_cons, List.sum_cons, ih, Function.comp_apply, contentAt_fillAll hq,
        contentAt_blank, hq.zero, zero_add, List.flatten_cons, List.filter_append, List.map_append,
        List.sum_append]
  entries := by
    rw [entries_absorbAll, entries_fillAll, List.map_map]
    refine congrArg _ ?_
    induction parts with
    | nil => rfl
    | cons part parts ih =>
      rw [List.map_cons, List.sum_cons, ih, Function.comp_apply, entries_fillAll, entries_blank,
        zero_add, List.flatten_cons, List.map_append, List.sum_append]

end SparseHistogram

end VariHist
