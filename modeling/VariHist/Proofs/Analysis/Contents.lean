import Mathlib
import VariHist.Proofs.Analysis.Propagation
import VariHist.Proofs.Booking.Results

/-!
# What the spectra of an analysis stand for

A spectrum is told row by row: which rows are kept, in which region and in which value bin a row
lies under a shift, and what the weights of these rows sum up to.

* `Analysis.contentOf` — the sums over the rows that lie in a region and a value bin under a shift.
* `Analysis.spectrumOf` — the spectrum of a histogram in a region under a shift, bin by bin.
* `under_pointOf_iff` — the point of a row belongs to the spectrum of its region and its shift.
* `contentUnder_pointsOf` — so the points of all rows make of a value bin what its rows sum up to.
-/

namespace VariHist

variable {α : Type}

/-- The number that is read for a column on a row under a shift. -/
def VariedTable.numberUnder (v : VariedTable α) (shift : Shift) (row : Nat) (column : String) :
    Float :=
  v.table.numberOn row (v.registry.under shift column)

/-- The binned column of a region axis. -/
def RegionEntry.binned (r : RegionEntry) : BinnedColumn :=
  ⟨r.column, r.bins, r.lo, r.hi⟩

/-- What a histogram asks for. -/
def HistogramEntry.observable (h : HistogramEntry) : Observable :=
  ⟨h.name, h.column, h.label.getD h.column, h.weight, h.bins, h.lo, h.hi⟩

/-- The bin of a number, read as a fraction. -/
def BinnedColumn.binOf (c : BinnedColumn) (x : Float) : UInt64 :=
  (Axis.ofColumn c).findBin (Exact.ofFloat x)

namespace Analysis

variable (a : Analysis) (v : VariedTable α) (rows : List Nat) (h : HistogramEntry) (shift : Shift)
  (path : List String)

/-- The columns that decide about the spectra of a histogram. -/
def readBy : List String :=
  a.regions.map RegionEntry.column ++ [h.column, h.weight]

/-- The shifts that concern a histogram: no shift at all, and every shift by a systematic that
affects a column that decides about it. -/
def shiftsFor (r : Registry) : List Shift :=
  r.shifts.filter (r.varies (a.readBy h))

/-- The rows that pass the filters of the table and all selections of the analysis. -/
def keptRows (t : EventTable α) : List Nat :=
  (List.range t.rows).filter fun row =>
    passesOn t.columns t.filters row &&
      a.filters.all fun f => 0 < (a.propagated t).table.numberOn row f.name

/-- The labels of the region in which a row lies under a shift, if it lies in one. -/
def regionOf? (row : Nat) : Option (List String) :=
  a.regions.mapM fun r =>
    Booking.labelOf? r.labels (r.binned.binOf (v.numberUnder shift row r.column))

/-- The rows with a weight that lie in a region and a value bin under a shift. -/
def rowsIn (bin : UInt64) : List Nat :=
  rows.filter fun row =>
    !(v.numberUnder shift row h.weight == 0) && a.regionOf? v shift row = some path &&
      h.observable.valueAxis.binOf (v.numberUnder shift row h.column) = bin

/-- What the weights of these rows sum up to. -/
def contentOf (bin : UInt64) : BinContent Rat :=
  let weights := (a.rowsIn v rows h shift path bin).map fun row =>
    Exact.ofFloat (v.numberUnder shift row h.weight)
  ⟨weights.sum, (weights.map fun w => w * w).sum, weights.length.toUInt64⟩

/-- The spectrum of a histogram in a region under a shift.  Bins whose weights cancel are left
out. -/
def spectrumOf : Spectrum Rat :=
  let content := fun bin => (a.contentOf v rows h shift path bin).unlessZero
  .holding (leafName h.column shift.label) (h.label.getD h.column) h.bins h.lo h.hi content
    ((List.range (h.bins.toNat + 2)).map fun i => (content i.toUInt64).entries).sum

/-- What is booked for a registry of systematics. -/
def requestFor (r : Registry) : BookingRequest where
  observables := a.histograms.map HistogramEntry.observable
  selection :=
    let n := (variationLabels r.systematics).length.toUInt64
    a.regions.map RegionEntry.binned ++ [⟨a.variationIndex, n, -0.5, n.toFloat - 0.5⟩]
  suffix := a.suffix
  catalogs := a.catalogs ++ [variationLabels r.systematics]

end Analysis

/-! ## Requests -/

theorem BinnedColumn.make_eq_ok {column : String} {bins : UInt64} {lo hi : Float}
    {c : BinnedColumn} (h : make column bins lo hi = .ok c) : c = ⟨column, bins, lo, hi⟩ := by
  obtain ⟨⟨⟩, -, h⟩ := bind_except_eq_ok_iff.1 h
  cases h
  rfl

theorem Observable.make_eq_ok {name column label weight : String} {bins : UInt64} {lo hi : Float}
    {o : Observable} (h : make name column label weight bins lo hi = .ok o) :
    o = ⟨name, column, label, weight, bins, lo, hi⟩ := by
  unfold make at h
  obtain ⟨-, h⟩ := guard_eq_ok_iff.1 h
  obtain ⟨-, h⟩ := guard_eq_ok_iff.1 h
  obtain ⟨⟨⟩, -, h⟩ := bind_except_eq_ok_iff.1 h
  cases h
  rfl

theorem mapM_eq_map_of_eq_ok {ε β γ : Type} {f : β → Except ε γ} {g : β → γ}
    (hf : ∀ b c, f b = .ok c → c = g b) {l : List β} {l' : List γ} (h : l.mapM f = .ok l') :
    l' = l.map g := by
  have hall := mapM_except_eq_ok_iff.1 h
  rw [eq_comm, ← List.forall₂_eq_eq_eq, List.forall₂_map_left_iff]
  exact hall.imp fun b c hc => (hf b c hc).symm

theorem Analysis.request_eq_ok {a : Analysis} {r : Registry} {request : BookingRequest}
    (h : a.request (variationLabels r.systematics) = .ok request) : request = a.requestFor r := by
  obtain ⟨regions, hregions, h⟩ := bind_except_eq_ok_iff.1 h
  obtain ⟨index, hindex, h⟩ := bind_except_eq_ok_iff.1 h
  obtain ⟨observables, hobservables, h⟩ := bind_except_eq_ok_iff.1 h
  cases h
  rw [mapM_eq_map_of_eq_ok (fun _ _ => BinnedColumn.make_eq_ok) hregions,
    mapM_eq_map_of_eq_ok (fun _ _ => Observable.make_eq_ok) hobservables,
    BinnedColumn.make_eq_ok hindex]
  rfl

/-! ## The spectrum of a point -/

theorem binsOf_append {ν : Type} [FillNumber ν] {axes : List Axis} {point : List ν}
    (h : axes.length = point.length) (axes' : List Axis) (point' : List ν) :
    binsOf (axes ++ axes') (point ++ point') = binsOf axes point ++ binsOf axes' point' := by
  rw [binsOf, List.zip_append h, List.map_append]
  rfl

theorem binsOf_map {β ν : Type} [FillNumber ν] (f : β → Axis) (g : β → ν) (l : List β) :
    binsOf (l.map f) (l.map g) = l.map fun b => (f b).findBin (g b) := by
  rw [binsOf, List.zip_map', List.map_map]
  rfl

namespace Analysis

variable {a : Analysis} {v : VariedTable α} {h : HistogramEntry} {shift shift' : Shift}
  {path : List String} {row : Nat} {bin : UInt64}

/-- The booking of a histogram. -/
def bookingOf (a : Analysis) (r : Registry) (h : HistogramEntry) : Booking :=
  (a.requestFor r).bookingOf r h.observable

/-- The point that a row fills for a histogram under a shift. -/
def pointOf (a : Analysis) (v : VariedTable α) (h : HistogramEntry) (row : Nat) (shift : Shift) :
    WeightedPoint Float :=
  (a.requestFor v.registry).pointOn v.registry v.table h.observable row shift

theorem indexed_bookingOf (a : Analysis) (r : Registry) (h : HistogramEntry) :
    (a.bookingOf r h).Indexed a.catalogs (variationLabels r.systematics) where
  selection := by simp [bookingOf, BookingRequest.bookingOf, requestFor, catalogs]
  catalogs := rfl

theorem axes_bookingOf (a : Analysis) (r : Registry) (h : HistogramEntry) :
    (a.bookingOf r h).axes = a.regions.map (fun region => Axis.ofColumn region.binned) ++
      [Booking.indexAxis (variationLabels r.systematics).length,
        Axis.ofColumn h.observable.valueAxis] := by
  simp [bookingOf, BookingRequest.bookingOf, requestFor, Booking.axes, Booking.indexAxis,
    Axis.ofColumn]

/-- The bins of the regions, of the variation and of the value in which a row lies under a shift, in
any arithmetic. -/
theorem binsOf_read_pointOf {ν : Type} [FillNumber ν] (a : Analysis) (v : VariedTable α)
    (h : HistogramEntry) (row : Nat) (shift : Shift) :
    binsOf (a.bookingOf v.registry h).axes
        ((a.pointOf v h row shift).read : WeightedPoint ν).coords =
      (a.regions.map fun r => (Axis.ofColumn r.binned).findBin
        (FillNumber.ofFloat (v.numberUnder shift row r.column) : ν)) ++
        [(Booking.indexAxis (variationLabels v.registry.systematics).length).findBin
            (FillNumber.ofFloat (v.numberUnder shift row a.variationIndex) : ν),
          (Axis.ofColumn h.observable.valueAxis).findBin
            (FillNumber.ofFloat (v.numberUnder shift row h.column) : ν)] := by
  have hcoords : ((a.pointOf v h row shift).read : WeightedPoint ν).coords =
      a.regions.map (fun r => FillNumber.ofFloat (v.numberUnder shift row r.column)) ++
        [FillNumber.ofFloat (v.numberUnder shift row a.variationIndex),
          FillNumber.ofFloat (v.numberUnder shift row h.column)] := by
    simp [pointOf, BookingRequest.pointOn, requestFor, WeightedPoint.read, RegionEntry.binned,
      HistogramEntry.observable, VariedTable.numberUnder]
  rw [axes_bookingOf, hcoords, binsOf_append (by simp), binsOf_map]
  rfl

theorem binsOf_pointOf (a : Analysis) (v : VariedTable α) (h : HistogramEntry) (row : Nat)
    (shift : Shift) :
    binsOf (a.bookingOf v.registry h).axes
        ((a.pointOf v h row shift).read : WeightedPoint Rat).coords =
      (a.regions.map fun r => r.binned.binOf (v.numberUnder shift row r.column)) ++
        [(Booking.indexAxis (variationLabels v.registry.systematics).length).findBin
            (Exact.ofFloat (v.numberUnder shift row a.variationIndex)),
          h.observable.valueAxis.binOf (v.numberUnder shift row h.column)] :=
  binsOf_read_pointOf a v h row shift

theorem length_coords_pointOf {ν : Type} [FillNumber ν] (a : Analysis) (v : VariedTable α)
    (h : HistogramEntry) (row : Nat) (shift : Shift) :
    ((a.pointOf v h row shift).read : WeightedPoint ν).coords.length =
      (a.bookingOf v.registry h).axes.length := by
  simp [pointOf, WeightedPoint.read, BookingRequest.pointOn, Booking.axes, bookingOf,
    BookingRequest.bookingOf]

theorem labelsOf?_regions (a : Analysis) (v : VariedTable α) (shift : Shift) (row : Nat) :
    Booking.labelsOf? a.catalogs
        (a.regions.map fun r => r.binned.binOf (v.numberUnder shift row r.column)) =
      a.regionOf? v shift row := by
  rw [Booking.labelsOf?, catalogs, List.zip_map', List.map_map, List.mapM_map]
  rfl

/-- The index column holds the position of the shift under which it is read. -/
def HoldsPositions (a : Analysis) (v : VariedTable α) : Prop :=
  ∀ (k : Nat) (shift : Shift), v.registry.shifts[k]? = some shift → ∀ row,
    v.numberUnder shift row a.variationIndex = k.toUInt64.toFloat

/-- In an arithmetic that tells the indices, an index lies in the bin of the label of its shift. -/
theorem HoldsPositions.labelOf? {ν : Type} [FillNumber ν] (hv : a.HoldsPositions v)
    (htells : Booking.TellsIndices ν (variationLabels v.registry.systematics).length)
    (hcount : (variationLabels v.registry.systematics).length < 2 ^ 64)
    (hs : shift ∈ v.registry.shifts) (row : Nat) :
    Booking.labelOf? (variationLabels v.registry.systematics)
        ((Booking.indexAxis (variationLabels v.registry.systematics).length).findBin
          (FillNumber.ofFloat (v.numberUnder shift row a.variationIndex) : ν)) =
      some shift.label := by
  obtain ⟨k, hk⟩ := List.mem_iff_getElem?.1 hs
  have hlabel : (variationLabels v.registry.systematics)[k]? = some shift.label := by
    rw [← Registry.map_label_shifts, List.getElem?_map, hk, Option.map_some]
  have hlt := (List.getElem?_eq_some_iff.1 hlabel).1
  rw [hv k shift hk row, htells k hlt]
  exact Booking.labelOf?_index (by omega) hlabel

/-- In such an arithmetic the point of a row belongs to a region and to the variation of its
shift, if it belongs anywhere. -/
theorem HoldsPositions.of_keyOf? {ν : Type} [FillNumber ν] (hv : a.HoldsPositions v)
    (htells : Booking.TellsIndices ν (variationLabels v.registry.systematics).length)
    (hcount : (variationLabels v.registry.systematics).length < 2 ^ 64)
    (hs : shift ∈ v.registry.shifts) {key : OutputKey}
    (hkey : (a.bookingOf v.registry h).keyOf? (binsOf (a.bookingOf v.registry h).axes
      ((a.pointOf v h row shift).read : WeightedPoint ν).coords) = some key) :
    key.path ∈ regionPaths a.catalogs ∧ key.leaf = leafName h.column shift.label := by
  rw [binsOf_read_pointOf, Booking.keyOf?_append (a.indexed_bookingOf v.registry h)
    (by simp [catalogs]), hv.labelOf? htells hcount hs row] at hkey
  obtain ⟨path, hpath, hkey⟩ := Option.bind_eq_some_iff.1 hkey
  cases hkey
  exact ⟨mem_regionPaths_of_labelsOf? (by simp [catalogs]) hpath, rfl⟩

/-- The index column holds the position of the shift under which it is read, and positions are few
enough to be told apart by an axis of doubles. -/
structure Indexes (a : Analysis) (v : VariedTable α) : Prop where
  number : a.HoldsPositions v
  count : (variationLabels v.registry.systematics).length ≤ 2 ^ 52

/-- An index lies in the bin of the label of its shift. -/
theorem Indexes.labelOf? (hv : a.Indexes v) (hs : shift ∈ v.registry.shifts) (row : Nat) :
    Booking.labelOf? (variationLabels v.registry.systematics)
        ((Booking.indexAxis (variationLabels v.registry.systematics).length).findBin
          (Exact.ofFloat (v.numberUnder shift row a.variationIndex))) = some shift.label :=
  hv.number.labelOf? (Booking.tellsIndices_rat hv.count) (hv.count.trans_lt (by decide)) hs row

/-- Where the point of a row belongs is told by its region and its shift. -/
theorem keyOf?_pointOf (hv : a.Indexes v) (hs : shift ∈ v.registry.shifts) :
    (a.bookingOf v.registry h).keyOf? (binsOf (a.bookingOf v.registry h).axes
        ((a.pointOf v h row shift).read : WeightedPoint Rat).coords) =
      (a.regionOf? v shift row).map fun path => ⟨path, leafName h.column shift.label⟩ := by
  rw [binsOf_pointOf, Booking.keyOf?_append (a.indexed_bookingOf v.registry h) (by simp [catalogs]),
    labelsOf?_regions, hv.labelOf? hs row]
  cases a.regionOf? v shift row <;> rfl

/-- The point of a row belongs to the spectrum of its region and its shift. -/
theorem under_pointOf_iff (hv : a.Indexes v) (hs' : shift' ∈ v.registry.shifts) :
    (a.bookingOf v.registry h).Under ⟨path, leafName h.column shift.label⟩ bin
        (binsOf (a.bookingOf v.registry h).axes
          ((a.pointOf v h row shift').read : WeightedPoint Rat).coords) ↔
      shift' = shift ∧ a.regionOf? v shift' row = some path ∧
        h.observable.valueAxis.binOf (v.numberUnder shift' row h.column) = bin := by
  rw [Booking.Under, keyOf?_pointOf hv hs', binsOf_pointOf,
    Booking.valueBin_append (a.indexed_bookingOf v.registry h) (by simp [catalogs])]
  cases a.regionOf? v shift' row with
  | none => simp
  | some path' =>
    rw [Option.map_some, Option.some_inj, Option.some_inj, OutputKey.mk.injEq, ← and_assoc,
      and_comm (a := shift' = shift)]
    refine and_congr_left' (and_congr_right' ?_)
    exact ⟨fun heq => Shift.label_injective (leafName_injective _ heq), fun heq => heq ▸ rfl⟩

/-! ## Sums over rows -/

theorem sum_ofWeight (weights : List Rat) :
    (weights.map (BinContent.ofWeight (ν := Rat))).sum =
      ⟨weights.sum, (weights.map fun w => w * w).sum, weights.length.toUInt64⟩ := by
  induction weights with
  | nil => exact BinContent.ext FillNumber.zero_rat FillNumber.zero_rat rfl
  | cons w weights ih =>
    rw [List.map_cons, List.sum_cons, ih, List.map_cons, List.sum_cons, List.sum_cons,
      List.length_cons]
    refine BinContent.ext rfl rfl ?_
    change 1 + weights.length.toUInt64 = (weights.length + 1).toUInt64
    rw [add_comm]
    exact (UInt64.ofNat_add weights.length 1).symm

end Analysis

/-- Of the points of several rows under several shifts, those that are singled out by one shift and
a property of the row. -/
theorem filter_flatMap_map {β γ δ : Type} [DecidableEq γ] {f : β → γ → δ} {p : δ → Bool}
    {q : β → Bool} {l : List β} {l' : List γ} {c : γ} (hnd : l'.Nodup) (hc : c ∈ l')
    (hp : ∀ b, ∀ c' ∈ l', p (f b c') = (decide (c' = c) && q b)) :
    (l.flatMap fun b => l'.map (f b)).filter p = (l.filter q).map fun b => f b c := by
  have hone : ∀ b, (l'.map (f b)).filter p = if q b then [f b c] else [] := by
    intro b
    have hpick : l'.filter (fun c' => decide (c' = c)) = [c] := by
      rw [List.filter_eq, List.count_eq_one_of_mem hnd hc]
      rfl
    have hand : (l'.map (f b)).filter p =
        ((l'.filter fun c' => decide (c' = c)).filter fun _ => q b).map (f b) := by
      rw [List.filter_map, List.filter_filter]
      refine congrArg _ (List.filter_congr fun c' hc' => ?_)
      rw [Function.comp_apply, hp b c' hc', Bool.and_comm]
    rw [hand, hpick]
    cases q b <;> rfl
  induction l with
  | nil => rfl
  | cons b l ih =>
    rw [List.flatMap_cons, List.filter_append, hone, ih, List.filter_cons]
    split <;> simp

namespace Analysis

variable {a : Analysis} {v : VariedTable α} {h : HistogramEntry} {shift : Shift}
  {shifts : List Shift} {rows : List Nat} {path : List String} {bin : UInt64} {key : OutputKey}

/-- The points of weight other than zero that some rows fill under some shifts. -/
def pointsOf (a : Analysis) (v : VariedTable α) (rows : List Nat) (h : HistogramEntry)
    (shifts : List Shift) : List (WeightedPoint Rat) :=
  ((rows.flatMap fun row => shifts.map (a.pointOf v h row)).filter
    fun p => !(p.weight == 0)).map .read

/-- The points of all rows make of a value bin what the rows in it sum up to. -/
theorem contentUnder_pointsOf (hv : a.Indexes v) (hnd : shifts.Nodup)
    (hall : ∀ shift ∈ shifts, shift ∈ v.registry.shifts) (hs : shift ∈ shifts) :
    (a.bookingOf v.registry h).contentUnder (a.bookingOf v.registry h).axes
        (a.pointsOf v rows h shifts) ⟨path, leafName h.column shift.label⟩ bin =
      a.contentOf v rows h shift path bin := by
  have hfilter : ((rows.flatMap fun row => shifts.map (a.pointOf v h row)).filter fun p =>
      decide ((a.bookingOf v.registry h).Under ⟨path, leafName h.column shift.label⟩ bin
        (binsOf (a.bookingOf v.registry h).axes (p.read : WeightedPoint Rat).coords)) &&
        !(p.weight == 0)) =
      (a.rowsIn v rows h shift path bin).map fun row => a.pointOf v h row shift := by
    refine filter_flatMap_map hnd hs fun row shift' hs' => ?_
    rw [Bool.eq_iff_iff, Bool.and_eq_true, decide_eq_true_eq, under_pointOf_iff hv (hall _ hs')]
    simp only [Bool.and_eq_true, decide_eq_true_eq]
    constructor
    · rintro ⟨⟨rfl, hpath, hbin⟩, hweight⟩
      exact ⟨rfl, ⟨hweight, hpath⟩, hbin⟩
    · rintro ⟨rfl, ⟨hweight, hpath⟩, hbin⟩
      exact ⟨⟨rfl, hpath, hbin⟩, hweight⟩
  rw [Booking.contentUnder, pointsOf, List.filter_map, List.filter_filter, List.map_map]
  simp only [Function.comp_apply]
  rw [hfilter, List.map_map, contentOf, ← sum_ofWeight, List.map_map]
  rfl

/-- What is booked under a key comes from rows in a region, under one of the shifts. -/
theorem exists_of_contentUnder (hv : a.Indexes v)
    (hall : ∀ shift ∈ shifts, shift ∈ v.registry.shifts)
    (h0 : FillNumber.isZero ((a.bookingOf v.registry h).contentUnder
      (a.bookingOf v.registry h).axes (a.pointsOf v rows h shifts) key bin).weight = false) :
    key.path ∈ regionPaths a.catalogs ∧
      ∃ shift ∈ shifts, key.leaf = leafName h.column shift.label := by
  have hsome : ∃ p ∈ a.pointsOf v rows h shifts, (a.bookingOf v.registry h).Under key bin
      (binsOf (a.bookingOf v.registry h).axes p.coords) := by
    by_contra hnone
    rw [Booking.contentUnder, List.filter_eq_nil_iff.2 fun p hp hu =>
      hnone ⟨p, hp, of_decide_eq_true hu⟩] at h0
    exact absurd h0 (by decide +kernel)
  obtain ⟨_, hread, hkey, -⟩ := hsome
  obtain ⟨p, hp, rfl⟩ := List.mem_map.1 hread
  obtain ⟨row, -, hrow⟩ := List.mem_flatMap.1 (List.mem_filter.1 hp).1
  obtain ⟨shift, hs, rfl⟩ := List.mem_map.1 hrow
  obtain ⟨hpath, hleaf⟩ := hv.number.of_keyOf? (Booking.tellsIndices_rat hv.count)
    (hv.count.trans_lt (by decide)) (hall shift hs) hkey
  exact ⟨hpath, shift, hs, hleaf⟩

end Analysis

end VariHist
