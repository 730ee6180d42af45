import Mathlib
import VariHist.Proofs.Analysis.Contents

/-!
# An analysis before its event loop

An analysis makes its columns and books its histograms first; then one projection runs the event
loop and puts the spectra into a tree.

* `Analysis.prepare` — what comes before the projection, by `run_eq`; `keeps_runs_prepare` — the
  event loop is no part of it.
* `Booked` — what is known of the histograms once they are booked; by `prepare_eq_ok` all of it
  holds when nothing fails before the projection.
* `Booked.slices` — a histogram has a slice for each shift that concerns it.
* `Booked.exists_shift` — every spectrum lies in a region and under one of these shifts.
-/

namespace VariHist

open VariedTable

variable {α ν : Type} {a : Analysis} {t t₁ t' : EventTable α} {v : VariedTable α}

theorem Propagated.holdsPositions {v₀ : VariedTable α} (hv : Propagated a v₀ v)
    (hc : InputsBefore v.table.columns) : a.HoldsPositions v :=
  fun k shift hk row => EventTable.numberOn_of_evaluate ((hv.indices k shift hk).evaluate hc row)

/-! ## No event loop -/

section Keeps

variable {β : Type}

theorem keeps_runs_onTable {step : Step (EventTable α) β} (h : step.Keeps EventTable.runs) :
    (onTable step).Keeps fun v => v.table.runs :=
  .within (fun _ _ => rfl) (fun _ => rfl) h

theorem keeps_runs_defineColumn (name : String) (kernel : Kernel) (inputs : List String) :
    (Step.attempt fun t : EventTable α => t.defineColumn name kernel inputs).Keeps
      EventTable.runs := by
  refine .attempt fun t t' h => ?_
  obtain ⟨-, ids, -, rfl⟩ := EventTable.defineColumn_eq_ok_iff.1 h
  rfl

theorem keeps_runs_register (systematic : String) (columns : List String) :
    (register systematic columns : Step (VariedTable α) Unit).Keeps fun v => v.table.runs :=
  fun _ => rfl

theorem keeps_runs_define (name : String) (kernel : Kernel) (inputs : List String) :
    (define name kernel inputs : Step (VariedTable α) (List String)).Keeps
      fun v => v.table.runs := by
  refine .bind (.ask _) fun plan => ?_
  refine .bind (keeps_runs_onTable (keeps_runs_defineColumn _ _ _)) fun _ => ?_
  refine .bind (.forM (fun copy => ?_) _) fun _ => ?_
  · exact keeps_runs_onTable (keeps_runs_defineColumn _ _ _)
  · exact .bind (.forM (fun s => keeps_runs_register s _) _) fun _ => .pure _

theorem keeps_runs_defineFormula (name source : String) :
    (VariedTable.defineFormula name source : Step (VariedTable α) (List String)).Keeps
      fun v => v.table.runs := by
  unfold VariedTable.defineFormula
  cases Formula.compile source with
  | error fault => exact .throw _
  | ok formula => exact keeps_runs_define _ _ _

theorem keeps_runs_keepWhere (name : String) :
    (keepWhere name : Step (VariedTable α) Unit).Keeps fun v => v.table.runs := by
  refine keeps_runs_onTable (.attempt fun t t' h => ?_)
  obtain ⟨id, -, rfl⟩ := EventTable.filterRows_eq_ok_iff.1 h
  rfl

theorem keeps_runs_buildCatalog (base : String) :
    (buildCatalog base : Step (VariedTable α) (List String)).Keeps fun v => v.table.runs := by
  refine .bind .get fun v => ?_
  cases (v.indexColumns base).find? v.table.hasColumn with
  | some taken => exact .throw _
  | none =>
    refine .bind (.forM (fun column => ?_) _) fun _ => ?_
    · exact keeps_runs_onTable (keeps_runs_defineColumn _ _ _)
    · exact .bind (.forM (fun s => keeps_runs_register s _) _) fun _ => .pure _

theorem keeps_runs_propagate (a : Analysis) :
    (a.propagate : Step (VariedTable α) (List String)).Keeps fun v => v.table.runs := by
  refine .bind (.forM (fun d => ?_) _) fun _ => ?_
  · obtain ⟨name, formula, value⟩ := d
    cases formula with
    | some formula => exact .bind (keeps_runs_defineFormula _ _) fun _ => .pure _
    | none =>
      cases value with
      | some value => exact keeps_runs_onTable (keeps_runs_defineColumn _ _ _)
      | none => exact .throw _
  · refine .bind (.forM (fun f => ?_) _) fun _ => keeps_runs_buildCatalog _
    refine .bind ?_ fun _ => .pure _
    exact .bind (keeps_runs_defineFormula _ _) fun _ =>
      .bind (keeps_runs_keepWhere _) fun _ => .pure _

theorem keeps_runs_withRegistry (registry : Registry) {step : Step (VariedTable α) β}
    (h : step.Keeps fun v => v.table.runs) :
    (Analysis.withRegistry registry step).Keeps EventTable.runs := by
  intro t
  have hstep := h ⟨t, registry⟩
  unfold Step.stateAfter at hstep ⊢
  unfold Analysis.withRegistry
  cases hs : step ⟨t, registry⟩ with
  | error e v =>
    rw [hs] at hstep
    exact hstep
  | ok b v =>
    rw [hs] at hstep
    exact hstep

theorem keeps_runs_book [FillNumber ν] [HoldsHistograms α ν] [Machine] (registry : Registry)
    (r : BookingRequest) : (EventTable.book (α := α) registry r).Keeps EventTable.runs := by
  refine .bind (.ask _) fun plans => .mapM (fun p => ?_) _
  refine .bind (keeps_runs_defineColumn _ _ _) fun _ => .bind (.ask _) fun ticket => ?_
  refine .bind (.attempt fun t t' h => ?_) fun _ => .pure _
  obtain ⟨id, -, rfl⟩ := EventTable.subscribe_eq_ok_iff.1 h
  rfl

end Keeps

/-! ## Booked histograms -/

section Booked

variable [HoldsHistograms α ν] {plans : List (BookingRequest.Plan ν)}
  {added : List (Subscription α)} {h h' : HistogramEntry} {p : BookingRequest.Plan ν}

/-- What is known of an analysis whose histograms are booked: they were planned on the table and the
registry that the analysis made, no two of their spectra share a place, and each of them is
subscribed to the columns of its slices. -/
structure Booked (a : Analysis) (v : VariedTable α) (plans : List (BookingRequest.Plan ν))
    (added : List (Subscription α)) (t₁ : EventTable α) : Prop where
  shape : (a.requestFor v.registry).checkShape = .ok ()
  planned : List.Forall₂ (fun h p =>
    (a.requestFor v.registry).Planned v.table v.registry h.observable p) a.histograms plans
  keys : (plans.flatMap fun p => p.booking.outputKeys).Nodup
  subscribes : v.table.Subscribes t₁ added
  collects : List.Forall₂ (fun p s => t₁.Collects p s) plans added

/-- The bookings of plans that are booked one after another, `ticket` being that of the first. -/
def bookingsFrom (ticket : Nat) (plans : List (BookingRequest.Plan ν)) : List Booking :=
  plans.zipIdx.map fun (p, i) => { p.booking with ticket := ticket + i }

omit [HoldsHistograms α ν] in
theorem mem_bookingsFrom {ticket : Nat} {b : Booking} : b ∈ bookingsFrom ticket plans ↔
    ∃ (p : BookingRequest.Plan ν) (i : Nat), plans[i]? = some p ∧
      b = { p.booking with ticket := ticket + i } := by
  constructor
  · intro hb
    obtain ⟨⟨p, i⟩, hp, rfl⟩ := List.mem_map.1 hb
    exact ⟨p, i, List.mem_zipIdx_iff_getElem?.1 hp, rfl⟩
  · rintro ⟨p, i, hp, rfl⟩
    exact List.mem_map.2 ⟨(p, i), List.mem_zipIdx_iff_getElem?.2 hp, rfl⟩

namespace Booked

theorem variations_requestFor (a : Analysis) (r : Registry) :
    (a.requestFor r).variations = variationLabels r.systematics := by
  simp [BookingRequest.variations, Analysis.requestFor]

theorem columnsOf_requestFor (a : Analysis) (r : Registry) (h : HistogramEntry) :
    (a.requestFor r).columnsOf h.observable =
      a.regions.map RegionEntry.column ++ a.variationIndex :: [h.column, h.weight] := by
  simp [BookingRequest.columnsOf, Analysis.requestFor, HistogramEntry.observable,
    RegionEntry.binned]

/-- No systematic is without a name. -/
theorem names (hr : Booked a v plans added t₁) : ∀ s ∈ v.registry.systematics, s ≠ "" := by
  rintro s hs rfl
  have hlabel : variationLabel "" .up ∈ variationLabels v.registry.systematics := by
    rw [variationLabels_eq]
    exact List.mem_cons_of_mem _ (List.mem_map.2 ⟨("", .up), mem_shiftsOf.2 hs, rfl⟩)
  rw [← variations_requestFor a] at hlabel
  have hformed := (BookingRequest.checkShape_eq_ok hr.shape).variations _ hlabel
  exact absurd hformed (by decide +kernel)

/-- The slices of a histogram are the shifts that concern it. -/
theorem slices (hr : Booked a v plans added t₁)
    (hbase : ∀ s ∈ v.registry.systematics, v.registry.affects s a.variationIndex = true) :
    (a.bookingOf v.registry h).slices = (a.shiftsFor h v.registry).map
      (sliceOf v.registry ((a.requestFor v.registry).columnsOf h.observable)) := by
  change fillSlices _ _ _ = _
  rw [variations_requestFor, columnsOf_requestFor, fillSlices_eq hr.names hbase]
  rfl

omit [HoldsHistograms α ν] in
/-- The axes of a booked histogram are countable, as their sizes do not overflow. -/
theorem countable_axes
    (hplan : (a.requestFor v.registry).Planned v.table v.registry h.observable p)
    (hregions : ∀ r ∈ a.regions, r.bins.toNat + 2 < 2 ^ 64) (hbins : h.bins.toNat + 2 < 2 ^ 64)
    (hcount : (variationLabels v.registry.systematics).length + 2 < 2 ^ 64) :
    Countable (a.bookingOf v.registry h).axes := by
  obtain ⟨slots, hmake⟩ := hplan.histogram
  rw [show p.booking = a.bookingOf v.registry h from hplan.booking] at hmake
  refine Countable.of_make hmake fun axis haxis => ?_
  rw [Analysis.axes_bookingOf, List.mem_append, List.mem_map] at haxis
  obtain ⟨r, hr, rfl⟩ | haxis := haxis
  · exact hregions r hr
  · rw [List.mem_pair] at haxis
    obtain rfl | rfl := haxis
    · rw [Booking.toNat_bins_indexAxis (by omega)]
      exact hcount
    · exact hbins

/-- Every region axis has a label. -/
theorem labels_ne_nil (hr : Booked a v plans added t₁)
    (hc : Countable (a.bookingOf v.registry h).axes) : ∀ labels ∈ a.catalogs, labels ≠ [] := by
  intro labels hlabels hnil
  obtain ⟨r, hr', rfl⟩ := List.mem_map.1 hlabels
  have hzip : (r.binned, r.labels) ∈
      (a.requestFor v.registry).selection.zip (a.requestFor v.registry).catalogs := by
    rw [Analysis.requestFor, Analysis.catalogs, List.zip_append (by simp), List.zip_map']
    exact List.mem_append_left _ (List.mem_map_of_mem hr')
  have hlength := List.forall₂_zip (BookingRequest.checkShape_eq_ok hr.shape).sizes hzip
  have hsound := hc.sound (Axis.ofColumn r.binned) (by
    rw [Analysis.axes_bookingOf]
    exact List.mem_append_left _ (List.mem_map_of_mem hr'))
  rw [hnil] at hlength
  exact hsound.1 (UInt64.toNat_inj.1 hlength.symm)

/-- The labels along each region axis are distinct. -/
theorem nodup_labels (hr : Booked a v plans added t₁) (hp : p ∈ plans)
    (hbooking : p.booking = a.bookingOf v.registry h)
    (hc : Countable (a.bookingOf v.registry h).axes) : ∀ labels ∈ a.catalogs, labels.Nodup := by
  have hkeys : p.booking.outputKeys.Nodup := (List.nodup_flatMap.1 hr.keys).1 p hp
  have hslices : p.booking.slices ≠ [] := by
    rw [hbooking]
    exact List.cons_ne_nil _ _
  have hpaths := nodup_regionPaths hslices hkeys
  rw [hbooking, (a.indexed_bookingOf v.registry h).catalogs, List.dropLast_concat] at hpaths
  exact nodup_of_nodup_regionPaths (hr.labels_ne_nil hc) hpaths

theorem mem_outputKeys_of_mem_shiftsFor (hr : Booked a v plans added t₁)
    (hbase : ∀ s ∈ v.registry.systematics, v.registry.affects s a.variationIndex = true)
    {shift : Shift} {path : List String} (hpath : path ∈ regionPaths a.catalogs)
    (hs : shift ∈ a.shiftsFor h v.registry) :
    (⟨path, leafName h.column shift.label⟩ : OutputKey) ∈
      (a.bookingOf v.registry h).outputKeys := by
  rw [mem_outputKeys, (a.indexed_bookingOf v.registry h).catalogs, List.dropLast_concat,
    hr.slices hbase]
  exact ⟨hpath, _, List.mem_map_of_mem hs, rfl⟩

/-- A leaf tells its histogram and its shift. -/
theorem eq_of_leafName (hr : Booked a v plans added t₁)
    (hbase : ∀ s ∈ v.registry.systematics, v.registry.affects s a.variationIndex = true)
    {shift shift' : Shift} {path : List String} (hpath : path ∈ regionPaths a.catalogs)
    (hh : h ∈ a.histograms) (hh' : h' ∈ a.histograms)
    (hs : shift ∈ a.shiftsFor h v.registry) (hs' : shift' ∈ a.shiftsFor h' v.registry)
    (hleaf : leafName h.column shift.label = leafName h'.column shift'.label) :
    h = h' ∧ shift = shift' := by
  have hbookings : plans.map BookingRequest.Plan.booking =
      a.histograms.map (a.bookingOf v.registry) := by
    rw [← List.forall₂_eq_eq_eq, List.forall₂_map_left_iff, List.forall₂_map_right_iff]
    exact hr.planned.flip.imp fun p h hplan => hplan.booking
  have hkeys : (a.histograms.flatMap fun h => (a.bookingOf v.registry h).outputKeys).Nodup := by
    have hnd := hr.keys
    rwa [← List.flatMap_map, hbookings, List.flatMap_map] at hnd
  have hkey := hr.mem_outputKeys_of_mem_shiftsFor hbase hpath hs
  have hkey' := hr.mem_outputKeys_of_mem_shiftsFor hbase hpath hs'
  rw [← hleaf] at hkey'
  obtain rfl : h = h' := by
    by_contra hne
    have : Std.Symm (Function.onFun List.Disjoint fun h =>
        (a.bookingOf v.registry h).outputKeys) := ⟨fun _ _ hd => List.Disjoint.symm hd⟩
    exact (List.nodup_flatMap.1 hkeys).2.forall hh hh' hne hkey hkey'
  exact ⟨rfl, Shift.label_injective (leafName_injective _ hleaf)⟩

variable [FillNumber ν] [LawfulFillNumber ν] [Aggregation α] [LawfulHistograms α ν]

/-- After the event loop every histogram has a result, and each of its spectra lies in a region and
under a shift that concerns it. -/
theorem exists_shift [Machine] (hr : Booked a v plans added t₁) (hu : v.table.Reachable)
    (hbase : ∀ s ∈ v.registry.systematics, v.registry.affects s a.variationIndex = true)
    (hv : a.HoldsPositions v)
    (htells : Booking.TellsIndices ν (variationLabels v.registry.systematics).length)
    (hcount : (variationLabels v.registry.systematics).length < 2 ^ 64)
    (hplan : (a.requestFor v.registry).Planned v.table v.registry h.observable p)
    (hc : Countable (a.bookingOf v.registry h).axes) {i : Nat} (hi : plans[i]? = some p)
    (hrun : EventTable.run t₁ = .ok () t') :
    ∃ res, Booking.result? { p.booking with ticket := v.table.nextTicket + i } t' = some res ∧
      ∀ key ∈ p.booking.spectraOf res, key.path ∈ regionPaths a.catalogs ∧
        ∃ shift ∈ a.shiftsFor h v.registry, key.leaf = leafName h.column shift.label := by
  have hbooking : p.booking = a.bookingOf v.registry h := hplan.booking
  obtain ⟨s, hs, hcollects⟩ := forall₂_exists_getElem? hr.collects.flip hi
  obtain ⟨res, hres, hsame⟩ := exists_result?_of_run BinContent.additive_entries hu hr.subscribes
    hplan hcollects (hbooking ▸ hr.slices hbase) hrun hs
  refine ⟨res, hres, fun key hkey => ?_⟩
  rw [hbooking] at hsame hkey
  have hpoints : ∀ q ∈ ((a.requestFor v.registry).pointsOver v.registry v.table h.observable
      (a.shiftsFor h v.registry)).map (WeightedPoint.read (ν := ν)),
        ∃ row, ∃ shift ∈ a.shiftsFor h v.registry, q = (a.pointOf v h row shift).read := by
    rw [List.forall_mem_map]
    intro point hpoint
    obtain ⟨row, shift, hs, rfl⟩ := BookingRequest.exists_of_mem_pointsOver hpoint
    exact ⟨row, shift, hs, rfl⟩
  obtain ⟨q, hq, hkeyOf⟩ := Booking.exists_point_of_mem_spectraOf hc (fun q hq => by
    obtain ⟨row, shift, -, rfl⟩ := hpoints q hq
    exact a.length_coords_pointOf v h row shift) hsame hkey
  obtain ⟨row, shift, hshift, rfl⟩ := hpoints q hq
  obtain ⟨hpath, hleaf⟩ := hv.of_keyOf? htells hcount (List.mem_filter.1 hshift).1 hkeyOf
  exact ⟨hpath, shift, hshift, hleaf⟩

end Booked

end Booked

/-! ## Up to the projection -/

variable [FillNumber ν] [HoldsHistograms α ν]

namespace Analysis

/-- What an analysis does before its event loop: the columns are made, and the histograms are
booked. -/
def prepare [Machine] (a : Analysis) : Step (EventTable α) (List String × List Booking) := do
  let t ← get
  let (catalog, registry) ← withRegistry (a.registry t) a.propagate
  let request ← Step.ask fun _ => (a.request catalog).mapError .config
  let bookings ← EventTable.book registry request
  return (catalog, bookings)

/-- What is reported of an analysis once its spectra are in a tree. -/
def reportOn [Machine] (catalog : List String) (bookings : List Booking) (tree : HistogramTree ν)
    (t : EventTable α) : RunReport where
  rows := t.rows
  threads := t.slotCount
  variations := catalog
  histograms := bookings.map (reportOf t)
  outputs := tree.count

/-- What comes before the event loop leaves the number of event loops as it is, whether it fails or
not. -/
theorem keeps_runs_prepare [Machine] (a : Analysis) :
    (a.prepare : Step (EventTable α) _).Keeps EventTable.runs := by
  refine .bind .get fun t => ?_
  refine .bind (keeps_runs_withRegistry _ (keeps_runs_propagate a)) fun answer => ?_
  refine .bind (.ask _) fun request => ?_
  exact .bind (keeps_runs_book _ _) fun _ => .pure _

/-- When nothing fails before the projection, the histograms are booked. -/
theorem prepare_eq_ok [Machine] {catalog : List String} {bookings : List Booking}
    (hnd : (a.registry t).systematics.Nodup)
    (h : a.prepare t = .ok (catalog, bookings) t₁) :
    Propagated a ⟨t, a.registry t⟩ (a.propagated t) ∧
      catalog = variationLabels (a.propagated t).registry.systematics ∧
      ∃ (plans : List (BookingRequest.Plan ν)) (added : List (Subscription α)),
        Booked a (a.propagated t) plans added t₁ ∧
          bookings = bookingsFrom (a.propagated t).table.nextTicket plans := by
  obtain ⟨_, _, hget, hwith⟩ := Step.bind_eq_ok_iff.1 h
  cases hget
  obtain ⟨⟨catalog, registry⟩, u, hregistry, hrequest⟩ := Step.bind_eq_ok_iff.1 hwith
  obtain ⟨request, u', hask, hbook⟩ := Step.bind_eq_ok_iff.1 hrequest
  obtain ⟨bookings, t₁, hbooked, hanswer⟩ := Step.bind_eq_ok_iff.1 hbook
  cases hanswer
  have hpropagate : a.propagate ⟨t, a.registry t⟩ = .ok catalog ⟨u, registry⟩ := by
    unfold withRegistry at hregistry
    split at hregistry
    · cases hregistry
      assumption
    · cases hregistry
  have hv : a.propagated t = ⟨u, registry⟩ := by
    rw [propagated, Step.stateAfter, hpropagate]
  obtain ⟨hpropagated, hcatalog⟩ := propagate_eq_ok hnd hpropagate
  obtain ⟨hrequested, rfl⟩ := Step.ask_eq_ok_iff.1 hask
  subst hcatalog
  obtain rfl := request_eq_ok (mapError_eq_ok_iff.1 hrequested)
  obtain ⟨plans, added, hshape, hplanned, hkeys, hsubscribes, hcollects, rfl⟩ :=
    EventTable.exists_plans_of_book hbooked
  rw [hv]
  exact ⟨hpropagated, rfl, plans, added,
    ⟨hshape, List.forall₂_map_left_iff.1 hplanned, hkeys, hsubscribes, hcollects⟩, rfl⟩

variable [Aggregation α]

/-- An analysis is prepared, and then its bookings are projected. -/
theorem run_eq [Machine] (a : Analysis) :
    (a.run : Step (EventTable α) (HistogramTree ν × RunReport)) =
    a.prepare >>= fun answer => EventTable.project answer.2 >>= fun tree =>
      get >>= fun t => pure (tree, reportOn answer.1 answer.2 tree t) := by
  unfold run prepare reportOn
  simp only [bind_assoc, pure_bind]

theorem run_eq_ok_iff [Machine] {tree : HistogramTree ν} {report : RunReport} :
    a.run t = .ok (tree, report) t' ↔ ∃ catalog bookings t₁,
      a.prepare t = .ok (catalog, bookings) t₁ ∧ EventTable.project bookings t₁ = .ok tree t' ∧
        report = reportOn catalog bookings tree t' := by
  rw [run_eq, Step.bind_eq_ok_iff]
  constructor
  · rintro ⟨⟨catalog, bookings⟩, t₁, hprepare, h⟩
    obtain ⟨tree', t₂, hproject, h⟩ := Step.bind_eq_ok_iff.1 h
    obtain ⟨_, _, hlast, hanswer⟩ := Step.bind_eq_ok_iff.1 h
    cases hlast
    cases hanswer
    exact ⟨catalog, bookings, t₁, hprepare, hproject, rfl⟩
  · rintro ⟨catalog, bookings, t₁, hprepare, hproject, rfl⟩
    exact ⟨(catalog, bookings), t₁, hprepare, Step.bind_eq_ok_iff.2 ⟨tree, t', hproject, rfl⟩⟩

theorem run_eq_error_iff [Machine] {e : Error} : a.run t = .error e t' ↔ a.prepare t = .error e t' ∨
    ∃ catalog bookings t₁, a.prepare t = .ok (catalog, bookings) t₁ ∧
      EventTable.project bookings t₁ = .error e t' := by
  rw [run_eq, Step.bind_eq_error_iff]
  refine or_congr_right ?_
  constructor
  · rintro ⟨⟨catalog, bookings⟩, t₁, hprepare, h⟩
    rcases Step.bind_eq_error_iff.1 h with hproject | ⟨tree, t₂, -, h⟩
    · exact ⟨catalog, bookings, t₁, hprepare, hproject⟩
    · cases h
  · rintro ⟨catalog, bookings, t₁, hprepare, hproject⟩
    exact ⟨(catalog, bookings), t₁, hprepare, Step.bind_eq_error_iff.2 (.inl hproject)⟩

end Analysis

end VariHist
