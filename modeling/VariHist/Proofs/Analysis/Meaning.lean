import Mathlib
import VariHist.Proofs.Analysis.Booked
import VariHist.Proofs.Booking.Projected

/-!
# What an analysis means

* `Ran` — what is known of an analysis that was run; by `run_eq_ok` every run that succeeds has it.
* `Ran.get?_iff` — the tree holds the spectra that the points of the kept rows make.
* `run_meaning` — the tree told row by row: for each histogram, each region and each variation that
  concerns the histogram, the spectrum holds the sums over the rows in the region, and there is a
  spectrum if a bin of it is not empty.
-/

namespace VariHist

open VariedTable

variable {α : Type} {a : Analysis} {t t' : EventTable α} {v : VariedTable α}

theorem all_eq_of_forall₂ {β γ : Type} {r : β → γ → Prop} {p : β → Bool} {q : γ → Bool}
    {l : List β} {l' : List γ} (h : List.Forall₂ r l l') (hr : ∀ b c, r b c → q c = p b) :
    l'.all q = l.all p := by
  induction h with
  | nil => rfl
  | cons hbc _ ih => rw [List.all_cons, List.all_cons, hr _ _ hbc, ih]

/-! ## Rows and indices -/

theorem Propagated.indexes {v₀ : VariedTable α} (hv : Propagated a v₀ v)
    (hc : InputsBefore v.table.columns)
    (hcount : (variationLabels v.registry.systematics).length ≤ 2 ^ 52) : a.Indexes v :=
  ⟨hv.holdsPositions hc, hcount⟩

/-- The rows that the filters of a table keep. -/
def VariedTable.keptRows (v : VariedTable α) : List Nat :=
  (List.range v.table.rows).filter (passesOn v.table.columns v.table.filters)

/-- The filters keep the rows that pass the filters of the table and all selections. -/
theorem keptRows_eq (ht : t.WellFormed) (hv : Propagated a ⟨t, a.registry t⟩ (a.propagated t))
    (hc : InputsBefore (a.propagated t).table.columns) :
    (a.propagated t).keptRows = a.keptRows t := by
  obtain ⟨ids, hids, hall⟩ := hv.filters
  have hselected : ∀ row, passesOn (a.propagated t).table.columns ids row =
      a.filters.all fun f => 0 < (a.propagated t).table.numberOn row f.name := by
    intro row
    refine all_eq_of_forall₂ (List.forall₂_map_left_iff.1 hall) fun f i hi => ?_
    rw [EventTable.numberOn_of_idOfKind hc hi]
  rw [VariedTable.keptRows, Analysis.keptRows, hv.ext.rows]
  refine List.filter_congr fun row _ => ?_
  rw [hids, passesOn, List.all_append, ← passesOn, ← passesOn, hselected]
  congr 1
  exact hv.ext.toKeepsColumns.passesOn ht.inputs ht.filters

/-! ## Runs -/

variable [HoldsHistograms α Rat] {plans : List (BookingRequest.Plan Rat)}
  {added : List (Subscription α)} {t₁ : EventTable α} {tree : HistogramTree Rat}
  {report : RunReport}

/-- What is known of an analysis that was run: the histograms were booked, the event loop went over
the table with them, and the tree holds their spectra. -/
structure Ran [Aggregation α] [Machine] (a : Analysis) (v : VariedTable α)
    (plans : List (BookingRequest.Plan Rat)) (added : List (Subscription α)) (t₁ t' : EventTable α)
    (tree : HistogramTree Rat) : Prop extends Booked a v plans added t₁ where
  run : EventTable.run t₁ = .ok () t'
  tree : ∀ path leaf s, tree.get? path leaf = some s ↔
    ∃ (p : BookingRequest.Plan Rat) (i : Nat) (res : SparseHistogram Rat), plans[i]? = some p ∧
      Booking.result? { p.booking with ticket := v.table.nextTicket + i } t' = some res ∧
      (p.booking.spectraOf res)[(⟨path, leaf⟩ : OutputKey)]? = some s

/-- Every run that succeeds comes about like this. -/
theorem Analysis.run_eq_ok [Aggregation α] [Machine] (hnd : (a.registry t).systematics.Nodup)
    (h : a.run t = .ok (tree, report) t') :
    Propagated a ⟨t, a.registry t⟩ (a.propagated t) ∧
      report.variations = variationLabels (a.propagated t).registry.systematics ∧
      ∃ plans added t₁, Ran a (a.propagated t) plans added t₁ t' tree := by
  obtain ⟨catalog, bookings, t₁, hprepare, hproject, rfl⟩ := run_eq_ok_iff.1 h
  obtain ⟨hpropagated, rfl, plans, added, hbooked, rfl⟩ := prepare_eq_ok hnd hprepare
  obtain ⟨hrun, htree⟩ := get?_project hproject
  refine ⟨hpropagated, rfl, plans, added, t₁, ⟨hbooked, hrun, ?_⟩⟩
  intro path leaf s
  rw [htree]
  constructor
  · rintro ⟨b, hb, res, hres, hs⟩
    obtain ⟨p, i, hp, rfl⟩ := mem_bookingsFrom.1 hb
    exact ⟨p, i, res, hp, hres, hs⟩
  · rintro ⟨p, i, res, hp, hres, hs⟩
    exact ⟨_, mem_bookingsFrom.2 ⟨p, i, hp, rfl⟩, res, hres, hs⟩

namespace Ran

variable [Aggregation α] {h h' : HistogramEntry} {p : BookingRequest.Plan Rat}

omit [HoldsHistograms α Rat] [Aggregation α] in
theorem countable
    (hplan : (a.requestFor v.registry).Planned v.table v.registry h.observable p)
    (hregions : ∀ r ∈ a.regions, r.bins.toNat < 2 ^ 53) (hbins : h.bins.toNat < 2 ^ 53)
    (hcount : (variationLabels v.registry.systematics).length ≤ 2 ^ 52) :
    Countable (a.bookingOf v.registry h).axes :=
  Booked.countable_axes hplan (fun r hr => by have := hregions r hr; omega) (by omega) (by omega)

variable [LawfulHistograms α Rat]

/-- What the spectra of a planned histogram are, once the event loop is over. -/
theorem exists_spectra [Machine] (hr : Ran a v plans added t₁ t' tree) (hu : v.table.Reachable)
    (hbase : ∀ s ∈ v.registry.systematics, v.registry.affects s a.variationIndex = true)
    (hnd : v.registry.systematics.Nodup)
    (hplan : (a.requestFor v.registry).Planned v.table v.registry h.observable p)
    {i : Nat} (hi : plans[i]? = some p)
    (hc : Countable (a.bookingOf v.registry h).axes) :
    ∃ res, Booking.result? { p.booking with ticket := v.table.nextTicket + i } t' = some res ∧
      ∀ key s, (p.booking.spectraOf res)[key]? = some s ↔
        (∃ bin, FillNumber.isZero ((a.bookingOf v.registry h).contentUnder
          (a.bookingOf v.registry h).axes
          (a.pointsOf v v.keptRows h (a.shiftsFor h v.registry)) key bin).weight = false) ∧
        s = (a.bookingOf v.registry h).spectrumUnder
          (a.pointsOf v v.keptRows h (a.shiftsFor h v.registry)) key := by
  have hbooking : p.booking = a.bookingOf v.registry h := hplan.booking
  obtain ⟨s, hs, hcollects⟩ := forall₂_exists_getElem? hr.collects.flip hi
  obtain ⟨res, hres, hsame⟩ := result?_of_run hu hr.subscribes hplan hcollects
    (hbooking ▸ hr.slices hbase) hr.run hs
  refine ⟨res, hres, fun key s => ?_⟩
  rw [hbooking] at hsame ⊢
  refine Booking.getElem?_spectraOf_points hc ?_ hsame ?_ (by decide +kernel)
  · rw [List.forall_mem_map]
    intro point hpoint
    obtain ⟨row, shift, -, rfl⟩ := BookingRequest.exists_of_mem_pointsOver hpoint
    exact a.length_coords_pointOf v h row shift
  · exact fun bin c c' => Booking.eq_of_under (a.indexed_bookingOf v.registry h)
      (hr.nodup_labels (List.mem_of_getElem? hi) hbooking hc) (nodup_variationLabels hnd)

/-- The tree holds the spectra that the points of the kept rows make, and nothing else. -/
theorem get?_iff [Machine] (hr : Ran a v plans added t₁ t' tree) (hu : v.table.Reachable)
    (hbase : ∀ s ∈ v.registry.systematics, v.registry.affects s a.variationIndex = true)
    (hnd : v.registry.systematics.Nodup)
    (hregions : ∀ r ∈ a.regions, r.bins.toNat < 2 ^ 53)
    (hbins : ∀ h ∈ a.histograms, h.bins.toNat < 2 ^ 53)
    (hcount : (variationLabels v.registry.systematics).length ≤ 2 ^ 52) (path : List String)
    (leaf : String) (s : Spectrum Rat) :
    tree.get? path leaf = some s ↔ ∃ h ∈ a.histograms,
      (∃ bin, FillNumber.isZero ((a.bookingOf v.registry h).contentUnder
        (a.bookingOf v.registry h).axes
        (a.pointsOf v v.keptRows h (a.shiftsFor h v.registry)) ⟨path, leaf⟩ bin).weight = false) ∧
      s = (a.bookingOf v.registry h).spectrumUnder
        (a.pointsOf v v.keptRows h (a.shiftsFor h v.registry)) ⟨path, leaf⟩ := by
  rw [hr.tree]
  constructor
  · rintro ⟨p, i, res, hi, hres, hs⟩
    obtain ⟨h, hh, hplan⟩ := forall₂_exists_getElem? hr.planned hi
    have hh := List.mem_of_getElem? hh
    obtain ⟨res', hres', hspectra⟩ := hr.exists_spectra hu hbase hnd hplan hi
      (countable hplan hregions (hbins h hh) hcount)
    obtain rfl := Option.some.inj (hres.symm.trans hres')
    exact ⟨h, hh, (hspectra _ s).1 hs⟩
  · rintro ⟨h, hh, hs⟩
    obtain ⟨i, hi⟩ := List.mem_iff_getElem?.1 hh
    obtain ⟨p, hp, hplan⟩ := forall₂_exists_getElem? hr.planned.flip hi
    obtain ⟨res, hres, hspectra⟩ := hr.exists_spectra hu hbase hnd hplan hp
      (countable hplan hregions (hbins h hh) hcount)
    exact ⟨p, i, res, hp, hres, (hspectra _ s).2 hs⟩

end Ran

theorem isZero_eq_false_iff (x : Rat) : FillNumber.isZero x = false ↔ x ≠ 0 := by
  change (x.num == 0) = false ↔ x ≠ 0
  rw [beq_eq_false_iff_ne, ne_eq, Rat.num_eq_zero]

omit [HoldsHistograms α Rat] in
/-- The spectrum under a key, told row by row. -/
theorem spectrumUnder_pointsOf {h : HistogramEntry} {shifts : List Shift} {shift : Shift}
    {rows : List Nat} {path : List String} (hv : a.Indexes v) (hnd : shifts.Nodup)
    (hall : ∀ shift ∈ shifts, shift ∈ v.registry.shifts) (hs : shift ∈ shifts) :
    (a.bookingOf v.registry h).spectrumUnder (a.pointsOf v rows h shifts)
        ⟨path, leafName h.column shift.label⟩ = a.spectrumOf v rows h shift path := by
  have hcontent : (a.bookingOf v.registry h).contentUnder (a.bookingOf v.registry h).axes
      (a.pointsOf v rows h shifts) ⟨path, leafName h.column shift.label⟩ =
        a.contentOf v rows h shift path :=
    funext fun bin => Analysis.contentUnder_pointsOf hv hnd hall hs
  rw [Booking.spectrumUnder, hcontent]
  rfl

/-- What an analysis means.  The catalog lists the labels of all shifts.  A histogram has a spectrum
for each region and each shift that concerns it, if a bin of it is not empty; the spectrum holds the
sums over the rows that are kept and lie in the region and the bin, read under the shift.  There is
no other spectrum in the tree, and a name tells the histogram and the shift.

The sums are sums of fractions, so they have a meaning only where the columns that are read are
finite: infinities and NaN stand for no fraction. -/
theorem run_meaning [Aggregation α] [LawfulHistograms α Rat] [Machine] (ht : t.Reachable)
    (hrun : a.run t = .ok (tree, report) t') (hregions : ∀ r ∈ a.regions, r.bins.toNat < 2 ^ 53)
    (hbins : ∀ h ∈ a.histograms, h.bins.toNat < 2 ^ 53)
    (hcount : report.variations.length ≤ 2 ^ 52) :
    report.variations = (a.propagated t).registry.shifts.map Shift.label ∧
    (∀ h ∈ a.histograms, ∀ shift ∈ a.shiftsFor h (a.propagated t).registry, ∀ path s,
      tree.get? path (leafName h.column shift.label) = some s ↔
        (∃ bin, (a.contentOf (a.propagated t) (a.keptRows t) h shift path bin).weight ≠ 0) ∧
        s = a.spectrumOf (a.propagated t) (a.keptRows t) h shift path) ∧
    (∀ path leaf s, tree.get? path leaf = some s → ∃ h ∈ a.histograms,
      ∃ shift ∈ a.shiftsFor h (a.propagated t).registry, leaf = leafName h.column shift.label) ∧
    ∀ h ∈ a.histograms, ∀ h' ∈ a.histograms,
      ∀ shift ∈ a.shiftsFor h (a.propagated t).registry,
      ∀ shift' ∈ a.shiftsFor h' (a.propagated t).registry,
        leafName h.column shift.label = leafName h'.column shift'.label →
        h = h' ∧ shift = shift' := by
  have hnd : (a.registry t).systematics.Nodup :=
    ((Registry.Reachable.empty.registerExisting _ _).foldl_register a.affects).nodup
  obtain ⟨hv, hvariations, plans, added, t₁, hr⟩ := Analysis.run_eq_ok hnd hrun
  rw [hvariations] at hcount
  have hu := hv.reachable ht
  have hkept := keptRows_eq ht.wellFormed hv hu.wellFormed.inputs
  have hindexes := hv.indexes hu.wellFormed.inputs hcount
  have htree := hr.get?_iff hu hv.base hv.nodup hregions hbins hcount
  have hall : ∀ h, ∀ shift ∈ a.shiftsFor h (a.propagated t).registry,
      shift ∈ (a.propagated t).registry.shifts := fun h shift hs => (List.mem_filter.1 hs).1
  have hshifts : ∀ h, (a.shiftsFor h (a.propagated t).registry).Nodup :=
    fun h => (Registry.nodup_shifts hv.nodup).filter _
  refine ⟨hvariations.trans (Registry.map_label_shifts _).symm, ?_, ?_, ?_⟩
  · intro h hh shift hs path s
    rw [htree, ← hkept]
    constructor
    · rintro ⟨h', hh', ⟨bin, hbin⟩, rfl⟩
      obtain ⟨hpath, shift', hs', hleaf⟩ :=
        Analysis.exists_of_contentUnder hindexes (hall h') hbin
      obtain ⟨rfl, rfl⟩ := hr.eq_of_leafName hv.base hpath hh hh' hs hs' hleaf
      rw [Analysis.contentUnder_pointsOf hindexes (hshifts h) (hall h) hs,
        isZero_eq_false_iff] at hbin
      exact ⟨⟨bin, hbin⟩, spectrumUnder_pointsOf hindexes (hshifts h) (hall h) hs⟩
    · rintro ⟨⟨bin, hbin⟩, rfl⟩
      refine ⟨h, hh, ⟨bin, ?_⟩, ?_⟩
      · rw [Analysis.contentUnder_pointsOf hindexes (hshifts h) (hall h) hs]
        exact (isZero_eq_false_iff _).2 hbin
      · exact (spectrumUnder_pointsOf hindexes (hshifts h) (hall h) hs).symm
  · intro path leaf s hs
    obtain ⟨h, hh, ⟨bin, hbin⟩, -⟩ := (htree path leaf s).1 hs
    obtain ⟨-, shift, hs, hleaf⟩ := Analysis.exists_of_contentUnder hindexes (hall h) hbin
    exact ⟨h, hh, shift, hs, hleaf⟩
  · intro h hh h' hh' shift hs shift' hs' hleaf
    obtain ⟨i, hi⟩ := List.mem_iff_getElem?.1 hh
    obtain ⟨p, -, hplan⟩ := forall₂_exists_getElem? hr.planned.flip hi
    have hc := Ran.countable hplan hregions (hbins h hh) hcount
    obtain ⟨path, hpath⟩ :=
      List.exists_mem_of_ne_nil _ (regionPaths_ne_nil (hr.labels_ne_nil hc))
    exact hr.eq_of_leafName hv.base hpath hh hh' hs hs' hleaf

section ShiftedColumn

attribute [local instance] Machine.oneThread

/-- Two events with a column, its two shifts and a weight. -/
def sampleEvents : EventTable (SlottedHistogram Rat) :=
  ⟨2, 2, #[⟨"x", .stored #[1, 3]⟩, ⟨"x_SUp", .stored #[2, 3]⟩, ⟨"x_SDown", .stored #[1, 2]⟩,
    ⟨"w", .stored #[1, 2]⟩], [], [], [], 0⟩

/-- Two regions and one histogram, both told by the shifted column. -/
def sampleAnalysis : Analysis where
  systematics := ["S"]
  affects := []
  defines := []
  filters := [⟨"weighted", "w > 0"⟩]
  variationIndex := "variation"
  regions := [⟨"x", 2, 0, 4, ["low", "high"]⟩]
  histograms := [⟨"first", "x", none, "w", 2, 0, 4⟩]
  suffix := "spectrum"

theorem reachable_sampleEvents : sampleEvents.Reachable := by
  have hcolumns : EventTable.ofColumns (α := SlottedHistogram Rat) [("x", #[1, 3]),
      ("x_SUp", #[2, 3]), ("x_SDown", #[1, 2]), ("w", #[1, 2])] =
        .ok { sampleEvents with threads := 0 } := rfl
  exact (EventTable.Reachable.ofColumns hcolumns).withThreads 2

/-- Both events move into the upper region when the column is shifted up. -/
theorem run_meaning_of_shifted_column :
    ∃ tree report t', sampleAnalysis.run sampleEvents = .ok (tree, report) t' ∧
      tree.get? ["high"] "x_SUp" =
        some (sampleAnalysis.spectrumOf (sampleAnalysis.propagated sampleEvents)
          (sampleAnalysis.keptRows sampleEvents) ⟨"first", "x", none, "w", 2, 0, 4⟩
          (some ("S", .up)) ["high"]) := by
  have hok : (match sampleAnalysis.run (ν := Rat) sampleEvents with
      | .ok (_, report) _ => report.variations.length == 3
      | .error _ _ => false) = true := by decide +kernel
  cases hrun : sampleAnalysis.run (ν := Rat) sampleEvents with
  | error e t' =>
    rw [hrun] at hok
    cases hok
  | ok answer t' =>
    obtain ⟨tree, report⟩ := answer
    rw [hrun] at hok
    have hcount : report.variations.length = 3 := beq_iff_eq.1 hok
    have hmeaning := run_meaning reachable_sampleEvents hrun (by decide +kernel)
      (by decide +kernel) (by rw [hcount]; decide)
    refine ⟨tree, report, t', rfl, ?_⟩
    refine (hmeaning.2.1 ⟨"first", "x", none, "w", 2, 0, 4⟩ (List.mem_singleton.2 rfl)
      (some ("S", .up)) (by decide +kernel) ["high"] _).2 ⟨⟨2, by decide +kernel⟩, rfl⟩

/-- Two histograms, one of them over the shifted copy of a column that no systematic is known to
affect. -/
def crossedAnalysis : Analysis where
  systematics := []
  affects := [("S", [])]
  defines := []
  filters := []
  variationIndex := "variation"
  regions := []
  histograms := [⟨"first", "x", none, "w", 2, 0, 4⟩, ⟨"second", "x_SUp", none, "w", 2, 0, 4⟩]
  suffix := "spectrum"

/-- A leaf may carry the name of a shift that concerns no column of the histogram, if another
histogram is booked over a column of this name. -/
theorem leaf_of_unaffected_column :
    crossedAnalysis.check = .ok () ∧ sampleEvents.Reachable ∧
      ∃ tree report t', crossedAnalysis.run sampleEvents = .ok (tree, report) t' ∧
        ∃ h ∈ crossedAnalysis.histograms, "SUp" ∈ report.variations ∧
          (∀ c ∈ crossedAnalysis.readBy h,
            (crossedAnalysis.propagated sampleEvents).registry.affects "S" c = false) ∧
          (tree.get? [] (labelledColumn h.column "SUp")).isSome = true := by
  have hok : (match crossedAnalysis.run (ν := Rat) sampleEvents with
      | .ok (tree, report) _ =>
        decide ("SUp" ∈ report.variations) && (tree.get? [] (labelledColumn "x" "SUp")).isSome
      | .error _ _ => false) = true := by decide +kernel
  refine ⟨rfl, reachable_sampleEvents, ?_⟩
  cases hrun : crossedAnalysis.run (ν := Rat) sampleEvents with
  | error e t' =>
    rw [hrun] at hok
    cases hok
  | ok answer t' =>
    obtain ⟨tree, report⟩ := answer
    rw [hrun, Bool.and_eq_true, decide_eq_true_eq] at hok
    exact ⟨tree, report, t', rfl, ⟨"first", "x", none, "w", 2, 0, 4⟩, List.mem_cons_self, hok.1,
      by decide +kernel, hok.2⟩

end ShiftedColumn

end VariHist
