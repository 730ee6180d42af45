import Mathlib
import VariHist.Proofs.Booking.Results
import VariHist.Proofs.Histogram.Sums

/-!
# Cutting a histogram into spectra

A histogram of any number of axes is cut along its value axis.  The bins of the selection axes tell
where a piece belongs: their labels are the directories, and the last label names the leaf.

* `Booking.Selects`, `Booking.LabelledBy` — bins within the range of the selection axes, and their
  labels.
* `Booking.mem_binsUnder_iff` — the stored bins that belong to a spectrum are those along the value
  axis under one selection.
* `Booking.HoldsAlong` — a spectrum that holds these bins.
* `spectra_of_booked` — nothing is lost on the way from a booked histogram to its spectra, and
  nothing is added.
-/

namespace VariHist

theorem isZero_zero {ν : Type} [FillNumber ν] [LawfulFillNumber ν] :
    FillNumber.isZero (FillNumber.zero : ν) = true :=
  (LawfulFillNumber.isZero_ofFloat 0).trans (by decide +kernel)

variable {ν : Type} [FillNumber ν] {b : Booking} {h : SparseHistogram ν} {sel : List UInt64}
  {labels path : List String} {label : String} {key : OutputKey} {v : UInt64}

namespace Booking

/-! ## Selections and their labels -/

/-- There is a catalog for each selection axis, with a label for each bin. -/
structure Labelled (b : Booking) : Prop where
  catalogs : b.catalogs ≠ []
  sizes : List.Forall₂ (fun (c : BinnedColumn) (labels : List String) =>
    labels.length = c.bins.toNat) b.selection b.catalogs

/-- One bin within the range of each selection axis. -/
def Selects (b : Booking) (sel : List UInt64) : Prop :=
  List.Forall₂ (fun (c : BinnedColumn) (i : UInt64) => 1 ≤ i.toNat ∧ i.toNat ≤ c.bins.toNat)
    b.selection sel

/-- The labels of selected bins.  The first bin within the range has the first label. -/
def LabelledBy (b : Booking) (sel : List UInt64) (labels : List String) : Prop :=
  List.Forall₂ (fun (e : UInt64 × List String) l => e.2[e.1.toNat - 1]? = some l)
    (sel.zip b.catalogs) labels

theorem labelOf?_eq_some_iff {l : String} :
    labelOf? labels v = some l ↔ 1 ≤ v.toNat ∧ labels[v.toNat - 1]? = some l := by
  unfold labelOf?
  split_ifs with h0
  · simp [h0]
  · have hpos : 1 ≤ v.toNat := toNat_pos h0
    rw [UInt64.toNat_sub_of_le _ _ hpos, UInt64.toNat_one]
    simp [hpos]

/-- Bins have labels exactly if they are within the range. -/
theorem labelsOf?_eq_some_iff {selection : List BinnedColumn} {catalogs : List (List String)}
    (hsizes : List.Forall₂ (fun (c : BinnedColumn) (labels : List String) =>
      labels.length = c.bins.toNat) selection catalogs) (hlen : sel.length = catalogs.length) :
    labelsOf? catalogs sel = some labels ↔
      List.Forall₂ (fun (c : BinnedColumn) (i : UInt64) =>
        1 ≤ i.toNat ∧ i.toNat ≤ c.bins.toNat) selection sel ∧
      List.Forall₂ (fun (e : UInt64 × List String) l => e.2[e.1.toNat - 1]? = some l)
        (sel.zip catalogs) labels := by
  induction hsizes generalizing sel labels with
  | nil =>
    rw [List.length_eq_zero_iff.1 hlen]
    simp [labelsOf?]
  | @cons c ls selection catalogs hsize _ ih =>
    cases sel with
    | nil => cases hlen
    | cons i sel =>
      have ih := fun labels => @ih sel labels (Nat.succ.inj hlen)
      rw [labelsOf?_cons, Option.bind_eq_some_iff, List.forall₂_cons, List.zip_cons_cons]
      constructor
      · rintro ⟨l, hl, hmap⟩
        obtain ⟨hpos, hget⟩ := labelOf?_eq_some_iff.1 hl
        obtain ⟨rest, hrest, rfl⟩ := Option.map_eq_some_iff.1 hmap
        obtain ⟨hrange, hlabels⟩ := (ih rest).1 hrest
        have hlt := (List.getElem?_eq_some_iff.1 hget).1
        exact ⟨⟨⟨hpos, by omega⟩, hrange⟩, .cons hget hlabels⟩
      · rintro ⟨⟨⟨hpos, -⟩, hrange⟩, hlabels⟩
        cases hlabels with
        | @cons _ l _ rest hget hlabels =>
          exact ⟨l, labelOf?_eq_some_iff.2 ⟨hpos, hget⟩,
            Option.map_eq_some_iff.2 ⟨rest, (ih rest).2 ⟨hrange, hlabels⟩, rfl⟩⟩

/-- The bins of a selection have labels. -/
theorem exists_labels {selection : List BinnedColumn} {catalogs : List (List String)}
    (hsizes : List.Forall₂ (fun (c : BinnedColumn) (labels : List String) =>
      labels.length = c.bins.toNat) selection catalogs)
    (hsel : List.Forall₂ (fun (c : BinnedColumn) (i : UInt64) =>
      1 ≤ i.toNat ∧ i.toNat ≤ c.bins.toNat) selection sel) :
    ∃ labels, labelsOf? catalogs sel = some labels := by
  induction hsizes generalizing sel with
  | nil =>
    cases hsel
    exact ⟨[], rfl⟩
  | @cons c ls selection catalogs hsize _ ih =>
    cases hsel with
    | @cons _ i _ sel hi hsel =>
      obtain ⟨labels, hlabels⟩ := ih hsel
      have hlt : i.toNat - 1 < ls.length := by omega
      refine ⟨ls[i.toNat - 1] :: labels, ?_⟩
      rw [labelsOf?_cons, labelOf?_eq_some_iff.2 ⟨hi.1, List.getElem?_eq_getElem hlt⟩, hlabels]
      rfl

theorem Labelled.length (hb : b.Labelled) : b.selection.length = b.catalogs.length :=
  hb.sizes.length_eq

/-- The labels of bins end with the label of a variation. -/
theorem Labelled.exists_concat (hb : b.Labelled) (hlen : sel.length = b.selection.length)
    (hlabels : labelsOf? b.catalogs sel = some labels) :
    ∃ path label, labels = path ++ [label] := by
  rcases List.eq_nil_or_concat labels with rfl | ⟨path, label, rfl⟩
  · have hlength := length_labelsOf? (hlen.trans hb.length) hlabels
    exact absurd (List.length_eq_zero_iff.1 hlength.symm) hb.catalogs
  · exact ⟨path, label, List.concat_eq_append⟩

theorem Labelled.labelsOf?_iff (hb : b.Labelled) (hlen : sel.length = b.selection.length) :
    labelsOf? b.catalogs sel = some labels ↔ b.Selects sel ∧ b.LabelledBy sel labels :=
  labelsOf?_eq_some_iff hb.sizes (hlen.trans hb.length)

/-! ## Where the bins of a selection belong -/

/-- Bins with labels belong to the directories of all labels but the last, under the leaf of the
last. -/
theorem keyOf?_of_labels (hb : b.Labelled) (hlen : sel.length = b.selection.length)
    (hlabels : labelsOf? b.catalogs sel = some (path ++ [label])) (v : UInt64) :
    b.keyOf? (sel ++ [v]) = some ⟨path, leafName b.observable.column label⟩ := by
  have hlength := length_labelsOf? (hlen.trans hb.length) hlabels
  unfold keyOf?
  dsimp only
  rw [List.take_left' hlen]
  change (labelsOf? b.catalogs sel).bind _ = _
  rw [hlabels, Option.bind_some, if_neg (by rw [hlength, hb.length]; exact lt_irrefl _)]
  simp

/-- Only bins with labels belong anywhere. -/
theorem exists_of_keyOf? (hb : b.Labelled) (hlen : sel.length = b.selection.length)
    (hkey : b.keyOf? (sel ++ [v]) = some key) :
    ∃ path label, labelsOf? b.catalogs sel = some (path ++ [label]) ∧
      key = ⟨path, leafName b.observable.column label⟩ := by
  have hlabels : ∃ labels, labelsOf? b.catalogs sel = some labels := by
    unfold keyOf? at hkey
    dsimp only at hkey
    rw [List.take_left' hlen] at hkey
    obtain ⟨labels, hlabels, -⟩ := Option.bind_eq_some_iff.1 hkey
    exact ⟨labels, hlabels⟩
  obtain ⟨labels, hlabels⟩ := hlabels
  obtain ⟨path, label, rfl⟩ := hb.exists_concat hlen hlabels
  refine ⟨path, label, hlabels, ?_⟩
  rw [keyOf?_of_labels hb hlen hlabels] at hkey
  exact (Option.some.inj hkey).symm

theorem keyOf?_eq_some_iff (hb : b.Labelled) (hlen : sel.length = b.selection.length) :
    b.keyOf? (sel ++ [v]) = some ⟨path, leafName b.observable.column label⟩ ↔
      labelsOf? b.catalogs sel = some (path ++ [label]) := by
  refine ⟨fun hkey => ?_, fun hlabels => keyOf?_of_labels hb hlen hlabels v⟩
  obtain ⟨path', label', hlabels, heq⟩ := exists_of_keyOf? hb hlen hkey
  obtain ⟨rfl, hleaf⟩ := OutputKey.mk.inj heq
  rw [leafName_injective _ hleaf]
  exact hlabels

theorem valueBin_concat (hlen : sel.length = b.selection.length) (v : UInt64) :
    b.valueBin (sel ++ [v]) = v := by
  rw [valueBin, ← hlen, List.getD_append_right _ _ _ _ le_rfl, Nat.sub_self]
  rfl

/-! ## The bins along the value axis -/

theorem toNat_size_valueAxis (hc : Countable b.axes) :
    (Axis.ofColumn b.observable.valueAxis).size.toNat = b.observable.bins.toNat + 2 :=
  (hc.sound (Axis.ofColumn b.observable.valueAxis) (by simp [axes])).toNat_size

/-- A bin of a booking is one of the selection axes and one of the value axis. -/
theorem inRange_axes_iff (hc : Countable b.axes) {coords : List UInt64} :
    InRange b.axes coords ↔ ∃ sel v, coords = sel ++ [v] ∧
      InRange (b.selection.map Axis.ofColumn) sel ∧ v.toNat < b.observable.bins.toNat + 2 := by
  rw [axes, inRange_concat_iff, toNat_size_valueAxis hc]

/-- The bins of a selection are bins of the selection axes. -/
theorem inRange_of_selects (hc : Countable b.axes) (hsel : b.Selects sel) :
    InRange (b.selection.map Axis.ofColumn) sel := by
  rw [InRange, List.forall₂_map_left_iff]
  have hsizes : ∀ c ∈ b.selection, (Axis.ofColumn c).size.toNat = c.bins.toNat + 2 := fun c hmem =>
    (hc.sound (Axis.ofColumn c) (by
      rw [axes]
      exact List.mem_append_left _ (List.mem_map_of_mem hmem))).toNat_size
  refine ((List.forall₂_and_left _ _).2 ⟨hsizes, hsel⟩).imp fun c i hi => ?_
  rw [hi.1]
  omega

/-- What cutting relies on: linear indices tell the bins, and every stored bin is one of the axes of
the booking. -/
structure Stores (b : Booking) (h : SparseHistogram ν) : Prop where
  countable : Countable b.axes
  axes : h.axes = b.axes
  inRange : ∀ i ∈ h.bins, ∃ coords, InRange b.axes coords ∧ linearIndex b.axes coords = i

/-- The bins along the value axis under a selection, without those whose weights cancel. -/
def binsAlong (b : Booking) (h : SparseHistogram ν) (sel : List UInt64) :
    List (UInt64 × BinContent ν) :=
  ((List.range (b.observable.bins.toNat + 2)).map fun i =>
    (i.toUInt64, h.bin (sel ++ [i.toUInt64]))).filter fun e => !FillNumber.isZero e.2.weight

omit [FillNumber ν] in
/-- A stored bin is one of the selection axes and one of the value axis. -/
theorem Stores.exists_selection (hh : b.Stores h) {index : UInt64} (hmem : index ∈ h.bins) :
    ∃ sel v, sel.length = b.selection.length ∧ v.toNat < b.observable.bins.toNat + 2 ∧
      coordinates b.axes index = sel ++ [v] ∧ index = linearIndex b.axes (sel ++ [v]) := by
  obtain ⟨coords, hr, rfl⟩ := hh.inRange index hmem
  obtain ⟨sel, v, rfl, hfront, hv⟩ := (inRange_axes_iff hh.countable).1 hr
  exact ⟨sel, v, by rw [← hfront.length_eq, List.length_map], hv,
    coordinates_linearIndex hr hh.countable.count, rfl⟩

/-- The bins that belong to a spectrum, each with its value bin. -/
def cutUnder (b : Booking) (h : SparseHistogram ν) (key : OutputKey) :
    List (UInt64 × BinContent ν) :=
  (b.binsUnder h key).map fun e => (b.valueBin (coordinates h.axes e.1), e.2)

/-- A spectrum that holds the bins along the value axis under a selection, each as it is unless its
weights cancel. -/
structure HoldsAlong (b : Booking) (h : SparseHistogram ν) (sel : List UInt64) (leaf : String)
    (s : Spectrum ν) : Prop where
  holds : s = .holding leaf b.observable.label b.observable.bins b.observable.lo b.observable.hi
    (fun v => (h.bin (sel ++ [v])).unlessZero) s.entries
  entries : s.entries.toNat = ((List.range (b.observable.bins.toNat + 2)).map fun i =>
    (h.bin (sel ++ [i.toUInt64])).unlessZero.entries.toNat).sum

theorem nodup_fst_binsAlong (hc : Countable b.axes) (h : SparseHistogram ν) (sel : List UInt64) :
    ((b.binsAlong h sel).map Prod.fst).Nodup := by
  have hbins : b.observable.bins.toNat + 2 < 2 ^ 64 :=
    (hc.sound (Axis.ofColumn b.observable.valueAxis) (by simp [Booking.axes])).2
  refine List.Nodup.sublist (List.filter_sublist.map Prod.fst) ?_
  rw [List.map_map]
  refine List.nodup_range.map_on fun i hi j hj heq => ?_
  have hword := congrArg UInt64.toNat (show i.toUInt64 = j.toUInt64 from heq)
  rwa [UInt64.toNat_ofNat_of_lt' ((List.mem_range.1 hi).trans hbins),
    UInt64.toNat_ofNat_of_lt' ((List.mem_range.1 hj).trans hbins)] at hword

theorem mem_binsAlong_iff {e : UInt64 × BinContent ν} :
    e ∈ b.binsAlong h sel ↔ e.1.toNat < b.observable.bins.toNat + 2 ∧
      e.2 = h.bin (sel ++ [e.1]) ∧ FillNumber.isZero e.2.weight = false := by
  rw [binsAlong, List.mem_filter, List.mem_map, Bool.not_eq_true']
  constructor
  · rintro ⟨⟨i, hi, rfl⟩, hzero⟩
    exact ⟨(Nat.mod_le _ _).trans_lt (List.mem_range.1 hi), rfl, hzero⟩
  · rintro ⟨hv, hcontent, hzero⟩
    refine ⟨⟨e.1.toNat, List.mem_range.2 hv, ?_⟩, hzero⟩
    rw [show e.1.toNat.toUInt64 = e.1 from UInt64.ofNat_toNat, ← hcontent]

/-- A bin whose weights do not cancel is stored. -/
theorem getElem?_of_isZero_eq_false [LawfulFillNumber ν] {coords : List UInt64}
    (hzero : FillNumber.isZero (h.bin coords).weight = false) :
    h.bins[linearIndex h.axes coords]? = some (h.bin coords) := by
  unfold SparseHistogram.bin at hzero ⊢
  cases hstored : h.bins[linearIndex h.axes coords]? with
  | some c => rfl
  | none =>
    rw [hstored] at hzero
    exact absurd isZero_zero (Bool.eq_false_iff.1 hzero)

section Cut

variable (hb : b.Labelled) (hh : b.Stores h) (hnd : ∀ labels ∈ b.catalogs, labels.Nodup)
  (hsel : b.Selects sel) (hlabels : b.LabelledBy sel (path ++ [label]))
include hb hh hnd hsel hlabels

/-- The stored bins that belong to a spectrum are those along the value axis under its selection, as
long as no catalog has a label twice. -/
theorem mem_binsUnder_iff {e : UInt64 × BinContent ν} :
    e ∈ b.binsUnder h ⟨path, leafName b.observable.column label⟩ ↔
      ∃ v : UInt64, v.toNat < b.observable.bins.toNat + 2 ∧
        coordinates b.axes e.1 = sel ++ [v] ∧ e.1 = linearIndex b.axes (sel ++ [v]) ∧
        h.bins[e.1]? = some e.2 ∧ FillNumber.isZero e.2.weight = false := by
  have hlen : sel.length = b.selection.length := hsel.length_eq.symm
  have hlabels? := (hb.labelsOf?_iff hlen).2 ⟨hsel, hlabels⟩
  have hstored_iff : e ∈ h.sorted ↔ h.bins[e.1]? = some e.2 := by
    rw [SparseHistogram.sorted, ← Prod.eta e, Std.TreeMap.mem_toList_iff_getElem?_eq_some]
  rw [binsUnder, List.mem_filter, countsFor, hh.axes, Bool.and_eq_true, Bool.not_eq_true',
    decide_eq_true_eq]
  constructor
  · rintro ⟨hsorted, hzero, hkey⟩
    obtain ⟨sel', v, hlen', hv, hcoords, hindex⟩ :=
      hh.exists_selection (SparseHistogram.mem_bins_of_mem_sorted hsorted)
    rw [hcoords] at hkey
    have hsame := labelsOf?_inj hnd (hlen'.trans hb.length) (hlen.trans hb.length)
      ((keyOf?_eq_some_iff hb hlen').1 hkey) hlabels?
    subst hsame
    exact ⟨v, hv, hcoords, hindex, hstored_iff.1 hsorted, hzero⟩
  · rintro ⟨v, hv, hcoords, -, hstored, hzero⟩
    refine ⟨hstored_iff.2 hstored, hzero, ?_⟩
    rw [hcoords]
    exact keyOf?_of_labels hb hlen hlabels? v

/-- The bins that belong to a spectrum are the bins along the value axis. -/
theorem cutUnder_perm [LawfulFillNumber ν] :
    (b.cutUnder h ⟨path, leafName b.observable.column label⟩).Perm (b.binsAlong h sel) := by
  have hlen : sel.length = b.selection.length := hsel.length_eq.symm
  have hmem := fun e => mem_binsUnder_iff hb hh hnd hsel hlabels (e := e)
  have hsorted : h.sorted.Nodup := by
    refine List.Nodup.of_map Prod.fst ?_
    rw [SparseHistogram.sorted, Std.TreeMap.map_fst_toList_eq_keys]
    exact Std.TreeMap.nodup_keys
  refine (List.perm_ext_iff_of_nodup ((hsorted.filter _).map_on ?_)
    (.of_map Prod.fst (nodup_fst_binsAlong hh.countable h sel))).2 fun e => ?_
  · intro e he e' he' heq
    obtain ⟨v, -, hcoords, hindex, -⟩ := (hmem e).1 he
    obtain ⟨v', -, hcoords', hindex', -⟩ := (hmem e').1 he'
    rw [hh.axes, hcoords, hcoords', valueBin_concat hlen, valueBin_concat hlen] at heq
    obtain ⟨rfl, hcontent⟩ := Prod.mk.inj heq
    exact Prod.ext (hindex.trans hindex'.symm) hcontent
  · rw [mem_binsAlong_iff, List.mem_map]
    constructor
    · rintro ⟨e', he', rfl⟩
      obtain ⟨v, hv, hcoords, hindex, hstored, hzero⟩ := (hmem e').1 he'
      rw [hh.axes, hcoords, valueBin_concat hlen]
      refine ⟨hv, ?_, hzero⟩
      rw [SparseHistogram.bin, hh.axes, ← hindex, hstored, Option.getD_some]
    · rintro ⟨hv, hcontent, hzero⟩
      have hr : InRange b.axes (sel ++ [e.1]) :=
        (inRange_axes_iff hh.countable).2
          ⟨sel, e.1, rfl, inRange_of_selects hh.countable hsel, hv⟩
      have hcoords := coordinates_linearIndex hr hh.countable.count
      have hstored := getElem?_of_isZero_eq_false (hcontent ▸ hzero)
      rw [hh.axes, ← hcontent] at hstored
      refine ⟨(linearIndex b.axes (sel ++ [e.1]), e.2),
        (hmem _).2 ⟨e.1, hv, hcoords, rfl, hstored, hzero⟩, ?_⟩
      rw [hh.axes, hcoords, valueBin_concat hlen]

omit hb hh hnd hsel hlabels in
/-- The bins along the value axis that are left out count for nothing. -/
theorem sum_entries_binsAlong : ((b.binsAlong h sel).map fun e => e.2.entries.toNat).sum =
    ((List.range (b.observable.bins.toNat + 2)).map fun i =>
      (h.bin (sel ++ [i.toUInt64])).unlessZero.entries.toNat).sum := by
  rw [binsAlong]
  generalize List.range (b.observable.bins.toNat + 2) = range
  induction range with
  | nil => rfl
  | cons i range ih =>
    rw [List.map_cons, List.map_cons, List.sum_cons, ← ih, BinContent.unlessZero,
      List.filter_cons]
    cases FillNumber.isZero (h.bin (sel ++ [i.toUInt64])).weight with
    | true => simp [BinContent.zero]
    | false => simp

variable [LawfulFillNumber ν]

/-- A selection has a spectrum exactly if the weights of a bin along the value axis do not
cancel. -/
theorem mem_spectraOf_iff :
    (⟨path, leafName b.observable.column label⟩ : OutputKey) ∈ b.spectraOf h ↔
      ∃ v : UInt64, v.toNat < b.observable.bins.toNat + 2 ∧
        FillNumber.isZero (h.bin (sel ++ [v])).weight = false := by
  have hperm := cutUnder_perm hb hh hnd hsel hlabels
  have hsome : (⟨path, leafName b.observable.column label⟩ : OutputKey) ∈ b.spectraOf h ↔
      b.binsUnder h ⟨path, leafName b.observable.column label⟩ ≠ [] := by
    rw [Std.TreeMap.mem_iff_isSome_getElem?, getElem?_spectraOf]
    split_ifs with hnil
    · simp [hnil]
    · simp [hnil]
  rw [hsome]
  constructor
  · intro hne
    obtain ⟨e, he⟩ := List.exists_mem_of_ne_nil _ hne
    obtain ⟨hv, hcontent, hzero⟩ :=
      mem_binsAlong_iff.1 (hperm.mem_iff.1 (List.mem_map_of_mem he))
    exact ⟨_, hv, hcontent ▸ hzero⟩
  · rintro ⟨v, hv, hzero⟩
    have hmem := hperm.mem_iff.2 (mem_binsAlong_iff (e := (v, h.bin (sel ++ [v]))) |>.2
      ⟨hv, rfl, hzero⟩)
    obtain ⟨e, he, -⟩ := List.mem_map.1 hmem
    exact List.ne_nil_of_mem he

/-- Put into a spectrum one after another, the bins are held as they are. -/
theorem foldl_addToBin_cutUnder [NeutralZero ν] (hsquares : h.SquaresSummed) :
    (b.cutUnder h ⟨path, leafName b.observable.column label⟩).foldl
        (fun s e => s.addToBin e.1 e.2.weight e.2.weightSquared e.2.entries)
        (b.emptySpectrum (leafName b.observable.column label)) =
      .holding (leafName b.observable.column label) b.observable.label b.observable.bins
        b.observable.lo b.observable.hi (fun v => (h.bin (sel ++ [v])).unlessZero)
        ((b.cutUnder h ⟨path, leafName b.observable.column label⟩).map fun e =>
          e.2.entries).sum := by
  have hbins : b.observable.bins.toNat + 2 < 2 ^ 64 :=
    (hh.countable.sound (Axis.ofColumn b.observable.valueAxis) (by simp [Booking.axes])).2
  have hperm := cutUnder_perm hb hh hnd hsel hlabels
  have hmem : ∀ e ∈ b.cutUnder h ⟨path, leafName b.observable.column label⟩, _ :=
    fun e he => mem_binsAlong_iff.1 (hperm.mem_iff.1 he)
  have hwhole : ∀ e ∈ b.cutUnder h ⟨path, leafName b.observable.column label⟩,
      BinContent.zero.add e.2 = e.2 := by
    intro e he
    have hzero := (hmem e he).2.2
    obtain ⟨e', he', rfl⟩ := List.mem_map.1 he
    have hsquare := Bins.SquaresSummed.of_mem_toList hsquares (List.mem_filter.1 he').1
    exact BinContent.zero_add_of_isZero hzero hsquare
  have hheld : ∀ e ∈ b.cutUnder h ⟨path, leafName b.observable.column label⟩,
      (h.bin (sel ++ [e.1])).unlessZero = e.2 := by
    intro e he
    obtain ⟨-, hcontent, hzero⟩ := hmem e he
    rw [← hcontent, BinContent.unlessZero, hzero]
    rfl
  have hrest : ∀ v : UInt64, v.toNat ≤ b.observable.bins.toNat + 1 →
      v ∉ (b.cutUnder h ⟨path, leafName b.observable.column label⟩).map Prod.fst →
      (h.bin (sel ++ [v])).unlessZero = BinContent.zero := by
    intro v hv hout
    rw [BinContent.unlessZero]
    split_ifs with hzero
    · rfl
    · refine absurd (List.mem_map.2 ⟨(v, h.bin (sel ++ [v])), ?_, rfl⟩) hout
      exact hperm.mem_iff.2 (mem_binsAlong_iff.2 ⟨Nat.lt_succ_iff.2 hv, rfl, by simpa using hzero⟩)
  rw [emptySpectrum, Spectrum.make_eq_holding, Spectrum.foldl_addToBin_apart
    (fun v => (h.bin (sel ++ [v])).unlessZero) hbins (fun e he => Nat.lt_succ_iff.1 (hmem e he).1)
    ((hperm.map Prod.fst).nodup_iff.2 (nodup_fst_binsAlong hh.countable h sel)) hwhole
    (fun e _ => rfl) hheld hrest, UInt64.zero_add]

/-- The spectrum of a selection holds the bins along the value axis. -/
theorem holdsAlong_of_getElem? [NeutralZero ν] (hsquares : h.SquaresSummed)
    (hentries : (h.sorted.map fun e => e.2.entries.toNat).sum < 2 ^ 64) {s : Spectrum ν}
    (hs : (b.spectraOf h)[(⟨path, leafName b.observable.column label⟩ : OutputKey)]? = some s) :
    b.HoldsAlong h sel (leafName b.observable.column label) s := by
  have hsum : ((b.cutUnder h ⟨path, leafName b.observable.column label⟩).map
      fun e : UInt64 × BinContent ν => e.2.entries).sum.toNat =
        ((List.range (b.observable.bins.toNat + 2)).map fun i =>
          (h.bin (sel ++ [i.toUInt64])).unlessZero.entries.toNat).sum := by
    have hle : ((b.cutUnder h ⟨path, leafName b.observable.column label⟩).map fun e =>
        e.2.entries.toNat).sum ≤ (h.sorted.map fun e => e.2.entries.toNat).sum := by
      rw [cutUnder, List.map_map]
      exact (List.filter_sublist.map _).sum_le_sum fun _ _ => Nat.zero_le _
    rw [toNat_sum_map _ (hle.trans_lt hentries), ← sum_entries_binsAlong]
    exact ((cutUnder_perm hb hh hnd hsel hlabels).map _).sum_eq
  rw [getElem?_spectraOf, ← cutUnder,
    foldl_addToBin_cutUnder hb hh hnd hsel hlabels hsquares] at hs
  split_ifs at hs
  obtain rfl := Option.some.inj hs
  exact ⟨rfl, hsum⟩

end Cut

/-- Every spectrum has the place of a selection. -/
theorem exists_selection_of_mem (hb : b.Labelled) (hh : b.Stores h) (hkey : key ∈ b.spectraOf h) :
    ∃ sel path label, b.Selects sel ∧ b.LabelledBy sel (path ++ [label]) ∧
      key = ⟨path, leafName b.observable.column label⟩ := by
  obtain ⟨e, he, hkey⟩ := exists_of_mem_spectraOf hkey
  obtain ⟨sel, v, hlen, -, hcoords, -⟩ :=
    hh.exists_selection (SparseHistogram.mem_bins_of_mem_sorted he)
  rw [hh.axes, hcoords] at hkey
  obtain ⟨path, label, hlabels, rfl⟩ := exists_of_keyOf? hb hlen hkey
  obtain ⟨hsel, hlabels⟩ := (hb.labelsOf?_iff hlen).1 hlabels
  exact ⟨sel, path, label, hsel, hlabels, rfl⟩

/-- A selection has a place. -/
theorem exists_labelledBy (hb : b.Labelled) (hsel : b.Selects sel) :
    ∃ path label, b.LabelledBy sel (path ++ [label]) := by
  obtain ⟨labels, hlabels⟩ := exists_labels hb.sizes hsel
  have hlen : sel.length = b.selection.length := hsel.length_eq.symm
  obtain ⟨path, label, rfl⟩ := hb.exists_concat hlen hlabels
  exact ⟨path, label, ((hb.labelsOf?_iff hlen).1 hlabels).2⟩

/-! ## Booked histograms -/

variable {α : Type} {u t : EventTable α} {registry : Registry} {r : BookingRequest}
  {bookings : List Booking}

/-- A row lies, read through a slice, in a bin of the axes. -/
theorem inRange_pointOn (hc : Countable b.axes) (hreads : b.ReadsAxes) {s : Slice}
    (hs : s ∈ b.slices) (u : EventTable α) (row : Nat) :
    InRange b.axes (binsOf b.axes ((s.pointOn u row).read : WeightedPoint ν).coords) := by
  refine inRange_binsOf hc.sound ?_
  rw [WeightedPoint.read, List.length_map, length_coords_pointOn hreads hs]

/-- What an event loop makes of a booking is stored in bins of its axes. -/
theorem stores_filledBy [Machine] (hc : Countable b.axes) (hreads : b.ReadsAxes) :
    b.Stores (b.filledBy u t : SparseHistogram ν) := by
  refine ⟨hc, axes_filledBy, fun index hindex => ?_⟩
  obtain ⟨slot, -, p, hp, hbins⟩ := mem_filledBy_iff.1 hindex
  obtain ⟨row, -, s, hs, -, rfl⟩ := exists_of_mem_pointsOfSlot hp
  exact ⟨_, inRange_pointOn hc hreads hs u row, hbins⟩

variable [HoldsHistograms α ν]

theorem labelled_of_book [Machine] (hbook : EventTable.book registry r u = .ok bookings t)
    (hb : b ∈ bookings) : b.Labelled := by
  obtain ⟨-, -, hshape, -⟩ := EventTable.exists_plans_of_book hbook
  obtain ⟨o, -, ticket, rfl⟩ := exists_bookingOf_of_mem hbook hb
  have hshaped := BookingRequest.checkShape_eq_ok hshape
  exact ⟨hshaped.catalogs, hshaped.sizes⟩

theorem readsAxes_of_book [Machine] (hbook : EventTable.book registry r u = .ok bookings t)
    (hb : b ∈ bookings) : b.ReadsAxes := by
  obtain ⟨o, p, -, -, i, -, hplan, -, -, -, rfl⟩ := exists_plan_of_mem hbook hb
  exact readsAxes_of_planned hplan _

theorem countable_of_book [Machine] (hbook : EventTable.book registry r u = .ok bookings t)
    (hb : b ∈ bookings) (hbins : ∀ a ∈ b.axes, a.bins.toNat + 2 < 2 ^ 64) : Countable b.axes := by
  obtain ⟨o, p, -, -, i, -, hplan, -, -, -, rfl⟩ := exists_plan_of_mem hbook hb
  obtain ⟨slots, hmake⟩ := hplan.histogram
  exact Countable.of_make hmake hbins

end Booking

/-- Nothing is lost and nothing is added when a booked histogram with a result is cut into spectra,
whatever was done to the table since it was booked.  A selection of bins has a spectrum exactly if
the weights of a bin along the value axis do not cancel, and the spectrum holds these bins as they
are.  There is no spectrum but those of selections. -/
theorem spectra_of_booked {α : Type} [Aggregation α] [HoldsHistograms α ν] [LawfulFillNumber ν]
    [LawfulHistograms α ν] [NeutralZero ν] [Machine] {u t : EventTable α} {registry : Registry}
    {r : BookingRequest} {bookings : List Booking} (hu : u.Reachable)
    (hbook : EventTable.book registry r u = .ok bookings t) (hb : b ∈ bookings)
    (later : List (EventTable.Operation α)) (hresult : b.result? (t.afterAll later) = some h)
    (hbins : ∀ a ∈ b.axes, a.bins.toNat < 2 ^ 53)
    (hentries : (h.sorted.map fun e => e.2.entries.toNat).sum < 2 ^ 64)
    (hnd : ∀ labels ∈ b.catalogs, labels.Nodup) :
    ∃ spectra, b.spectra (t.afterAll later) = .ok spectra ∧
      (∀ sel, b.Selects sel → ∃ path label, b.LabelledBy sel (path ++ [label]) ∧
        ((⟨path, leafName b.observable.column label⟩ : OutputKey) ∈ spectra ↔
          ∃ v : UInt64, v.toNat < b.observable.bins.toNat + 2 ∧
            FillNumber.isZero (h.bin (sel ++ [v])).weight = false) ∧
        ∀ s, spectra[(⟨path, leafName b.observable.column label⟩ : OutputKey)]? = some s →
          b.HoldsAlong h sel (leafName b.observable.column label) s) ∧
      ∀ key ∈ spectra, ∃ sel path label, b.Selects sel ∧ b.LabelledBy sel (path ++ [label]) ∧
        key = ⟨path, leafName b.observable.column label⟩ := by
  have hlabelled := Booking.labelled_of_book hbook hb
  have hcountable := Booking.countable_of_book hbook hb fun a ha => by
    have := hbins a ha
    omega
  have hreads := Booking.readsAxes_of_book hbook hb
  obtain ⟨machine, loop, -, -, rfl⟩ := exists_filledBy_of_result? hu hbook hb later hresult
  have hstores : b.Stores (b.filledBy u loop : SparseHistogram ν) :=
    Booking.stores_filledBy hcountable hreads
  have hsquares : (b.filledBy u loop : SparseHistogram ν).SquaresSummed :=
    SparseHistogram.SquaresSummed.absorbAll_fillAll _ _ _
  refine ⟨b.spectraOf (b.filledBy u loop), ?_, fun sel hsel => ?_, fun key hkey =>
    Booking.exists_selection_of_mem hlabelled hstores hkey⟩
  · rw [Booking.spectra, hresult]
  · obtain ⟨path, label, hlabels⟩ := Booking.exists_labelledBy hlabelled hsel
    exact ⟨path, label, hlabels, Booking.mem_spectraOf_iff hlabelled hstores hnd hsel hlabels,
      fun s => Booking.holdsAlong_of_getElem? hlabelled hstores hnd hsel hlabels hsquares hentries⟩

section TwoRegions

attribute [local instance] Machine.oneThread

/-- One event in each of two regions. -/
def eventsInTwoRegions : EventTable (SlottedHistogram Float) :=
  ⟨2, 0, #[⟨"r", .stored #[0, 1]⟩, ⟨"idx", .stored #[0, 0]⟩, ⟨"x", .stored #[1, 1]⟩,
    ⟨"w", .stored #[1, 2]⟩], [], [], [], 0⟩

/-- A histogram of `x` over both regions. -/
def requestOverTwoRegions : BookingRequest :=
  ⟨[⟨"h", "x", "x", "w", 2, 0, 2⟩], [⟨"r", 2, -0.5, 1.5⟩, ⟨"idx", 1, -0.5, 0.5⟩], "sr",
    [["A", "B"], ["Nominal"]]⟩

theorem eventsInTwoRegions_reachable : eventsInTwoRegions.Reachable := by
  have hcolumns : (EventTable.ofColumns
      [("r", #[0, 1]), ("idx", #[0, 0]), ("x", #[1, 1]), ("w", #[1, 2])] :
        Except Error (EventTable (SlottedHistogram Float))) = .ok eventsInTwoRegions := rfl
  exact .ofColumns hcolumns

/-- The event in the second region is found in the spectrum of this region. -/
theorem spectra_of_booked_second_region :
    ∃ bookings t b h spectra s,
      EventTable.book .empty requestOverTwoRegions eventsInTwoRegions = .ok bookings t ∧
      b ∈ bookings ∧ b.result? (t.afterAll [.run]) = some h ∧
      b.spectra (t.afterAll [.run]) = .ok spectra ∧
      spectra[(⟨["B"], "x"⟩ : OutputKey)]? = some s ∧ b.HoldsAlong h [2, 1] "x" s := by
  have hcheck : (Step.answer (EventTable.book .empty requestOverTwoRegions)
      eventsInTwoRegions).toOption.any (fun bookings => bookings.any fun b =>
        (b.result? ((Step.stateAfter (EventTable.book .empty requestOverTwoRegions)
          eventsInTwoRegions).afterAll [.run])).any fun h =>
            decide ((h.sorted.map fun e => e.2.entries.toNat).sum < 2 ^ 64) &&
              !FillNumber.isZero (h.bin [2, 1, 2]).weight) = true := by decide +kernel
  obtain ⟨bookings, hbook, hany⟩ := Step.exists_of_answer_any hcheck
  obtain ⟨b, hmem, hfilled⟩ := List.any_eq_true.1 hany
  obtain ⟨h, hresult, hweights⟩ := (Option.any_eq_true _ _).1 hfilled
  rw [Bool.and_eq_true, decide_eq_true_eq, Bool.not_eq_true'] at hweights
  obtain ⟨o, ho, ticket, hb⟩ := exists_bookingOf_of_mem hbook hmem
  obtain rfl := List.mem_singleton.1 ho
  have haxes : b.axes = [⟨2, -0.5, 1.5⟩, ⟨1, -0.5, 0.5⟩, ⟨2, 0, 2⟩] := by rw [hb]; rfl
  have hcatalogs : b.catalogs = [["A", "B"], ["Nominal"]] := by rw [hb]; rfl
  have hcolumn : b.observable.column = "x" := by rw [hb]; rfl
  have hbins : b.observable.bins = 2 := by rw [hb]; rfl
  have hsel : b.Selects [2, 1] := by
    rw [hb]
    exact .cons (by decide) (.cons (by decide) .nil)
  obtain ⟨spectra, hspectra, hplaces, -⟩ := spectra_of_booked eventsInTwoRegions_reachable
    hbook hmem [.run] hresult (by rw [haxes]; decide) hweights.1 (by rw [hcatalogs]; decide)
  obtain ⟨path, label, hlabels, hspectrum, hholds⟩ := hplaces [2, 1] hsel
  have hnames : path ++ [label] = ["B"] ++ ["Nominal"] := by
    rw [Booking.LabelledBy, hcatalogs] at hlabels
    generalize path ++ [label] = labels at hlabels
    obtain _ | ⟨hfirst, _ | ⟨hsecond, ⟨⟩⟩⟩ := hlabels
    cases hfirst
    cases hsecond
    rfl
  obtain ⟨rfl, hlabel⟩ := List.append_inj' hnames rfl
  obtain rfl := List.singleton_inj.1 hlabel
  have hleaf : leafName b.observable.column "Nominal" = "x" := by rw [hcolumn]; rfl
  rw [hleaf] at hspectrum hholds
  have hplace := hspectrum.2 ⟨2, by rw [hbins]; decide, hweights.2⟩
  rw [Std.TreeMap.mem_iff_isSome_getElem?] at hplace
  obtain ⟨s, hs⟩ := Option.isSome_iff_exists.1 hplace
  exact ⟨bookings, _, b, h, spectra, s, hbook, hmem, hresult, hspectra, hs, hholds s hs⟩

end TwoRegions

end VariHist
