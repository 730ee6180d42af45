import VariHist.Proofs.Analysis.Booked
import VariHist.Proofs.Booking.Unforeseen

/-!
# Analyses that fail

An analysis that passed its check can fail: a column is missing, a formula cannot be read, two
spectra claim one place.  All of this is found out before the event loop.  What is not found out in
time is a name that the tree does not take: the check of an analysis refuses labels that are blank
or hold a slash, the tree refuses more than that, and it is asked after the event loop only.

* `Booked.project_eq_error` — the ways in which the projection of booked histograms fails.
* `Analysis.run_failure` — an analysis fails before its event loop, or because of a label or a leaf
  that is no segment.
* `checked_analysis_fails_late` — there are such analyses that pass their check.
-/

namespace VariHist

variable {α ν : Type} {a : Analysis} {t t₁ t' : EventTable α} {v : VariedTable α} {e : Error}

/-! ## Labels -/

namespace Analysis

/-- What the check of an analysis knows of the labels of its regions. -/
theorem label_of_check (hcheck : a.check = .ok ()) {r : RegionEntry} (hr : r ∈ a.regions)
    {label : String} (hl : label ∈ r.labels) :
    Text.isBlankText label = false ∧ '/' ∉ label.toList := by
  unfold check at hcheck
  obtain ⟨-, hcheck⟩ := guard_eq_ok_iff.1 hcheck
  obtain ⟨-, hcheck⟩ := guard_eq_ok_iff.1 hcheck
  obtain ⟨-, hcheck⟩ := guard_eq_ok_iff.1 hcheck
  obtain ⟨-, hcheck⟩ := guard_eq_ok_iff.1 hcheck
  obtain ⟨⟨⟩, -, hcheck⟩ := bind_except_eq_ok_iff.1 hcheck
  obtain ⟨⟨⟩, -, hcheck⟩ := bind_except_eq_ok_iff.1 hcheck
  obtain ⟨⟨⟩, hregions, -⟩ := bind_except_eq_ok_iff.1 hcheck
  have hregion := forM_except_eq_ok_iff.1 hregions r hr
  unfold checkRegion at hregion
  split_ifs at hregion
  cases hfind : r.labels.find? fun l => Text.isBlankText l || l.toList.contains '/' with
  | some bad =>
    rw [hfind] at hregion
    cases hregion
  | none => simpa using List.find?_eq_none.1 hfind label hl

/-- A label that passes the check and is no segment refers to a directory by its place, or holds a
backslash. -/
theorem cases_of_label (hcheck : a.check = .ok ()) {r : RegionEntry} (hr : r ∈ a.regions)
    {label : String} (hl : label ∈ r.labels) (hbad : isSegment label = false) :
    label = "." ∨ label = ".." ∨ '\\' ∈ label.toList := by
  obtain ⟨hblank, hslash⟩ := label_of_check hcheck hr hl
  have hempty : label ≠ "" := by
    rintro rfl
    exact absurd hblank (by decide +kernel)
  unfold isSegment at hbad
  simp only [Bool.not_eq_false', Bool.or_eq_true, String.isEmpty_iff, decide_eq_true_eq,
    List.any_eq_true] at hbad
  rcases hbad with ((h | h) | h) | ⟨c, hc, rfl | rfl⟩
  · exact absurd h hempty
  · exact .inl h
  · exact .inr (.inl h)
  · exact absurd hc hslash
  · exact .inr (.inr hc)

end Analysis

/-! ## The projection -/

section Projection

variable [HoldsHistograms α ν] {plans : List (BookingRequest.Plan ν)}
  {added : List (Subscription α)} {b : Booking} {ticket : Nat}

/-- A place under which an analysis puts a spectrum: it lies in a region, and its leaf is that of a
histogram under a shift which concerns it. -/
def Analysis.Expects (a : Analysis) (r : Registry) (key : OutputKey) : Prop :=
  key.path ∈ regionPaths a.catalogs ∧
    ∃ h ∈ a.histograms, ∃ shift ∈ a.shiftsFor h r, key.leaf = leafName h.column shift.label

variable [FillNumber ν]

/-- If the spectra of all bookings are expected and their places were checked, the tree refuses one
for its names only. -/
theorem refused_for_names {bookings : List Booking} {selection : List BinnedColumn} {r : Registry}
    (hplaces : EventTable.checkPlaces bookings (.empty : HistogramTree ν) = .ok ())
    (hknown : ∀ b ∈ bookings, b.result? t ≠ none ∧ b.selection = selection ∧
      ∀ key, b.Yields t key → a.Expects r key ∧ key ∈ b.outputKeys)
    {s : EventTable α × HistogramTree ν}
    (hstep : bookings.forM Booking.put (t, .empty) = .error e s) :
    s.1 = t ∧ (∃ b, b ∈ bookings) ∧
      ∃ key f, a.Expects r key ∧ e = .config f ∧ Rejects key False f := by
  obtain ⟨hs, before, b, after, hsplit, hfault⟩ := exists_of_putAll_eq_error hstep
  have hb : b ∈ bookings := by
    rw [hsplit]
    simp
  refine ⟨hs, ⟨b, hb⟩, ?_⟩
  obtain ⟨hresult, hselection, hyields⟩ := hknown b hb
  rcases hfault with ⟨hnone, -⟩ | ⟨key, f, hkey, rfl, hf⟩
  · exact absurd hnone hresult
  obtain ⟨hexpects, hmem⟩ := hyields key hkey
  refine ⟨key, f, hexpects, rfl, hf.imp ?_⟩
  -- the check has seen to it that no place is occupied
  rintro (htaken | ⟨b', hb', key', hkey', htakes⟩)
  · rw [HistogramTree.isTaken_empty] at htaken
    cases htaken
  have hb'' : b' ∈ bookings := by
    rw [hsplit]
    exact List.mem_append_left _ hb'
  obtain ⟨-, hselection', hyields'⟩ := hknown b' hb''
  rcases htakes with rfl | hprefix
  · exact (checkOutputKeys_eq_ok hplaces hsplit hmem).2 b' hb' (hyields' key hkey').2
  · obtain ⟨h, -, hspectrum⟩ := hkey
    obtain ⟨h', -, hspectrum'⟩ := hkey'
    have hlength := hprefix.length_le
    rw [List.length_append, Booking.length_path_of_mem hspectrum,
      Booking.length_path_of_mem hspectrum', hselection, hselection'] at hlength
    simp at hlength

namespace Booked

omit [FillNumber ν] in
/-- The places of the spectra have been checked when the histograms were booked, so that they pass
once more. -/
theorem checkPlaces (hr : Booked a v plans added t₁) (ticket : Nat) :
    EventTable.checkPlaces (bookingsFrom ticket plans) (.empty : HistogramTree ν) = .ok () := by
  refine checkOutputKeys_of_nodup ?_ fun key => HistogramTree.isTaken_empty _ _
  have hkeys : (bookingsFrom ticket plans).flatMap Booking.outputKeys =
      plans.flatMap fun p => p.booking.outputKeys := by
    rw [bookingsFrom, List.flatMap_map]
    conv_rhs => rw [← List.zipIdx_map_fst 0 plans, List.flatMap_map]
    rfl
  rw [hkeys]
  exact hr.keys

omit [FillNumber ν] in
/-- If there is a histogram at all, an event loop is completed. -/
theorem runs_of_run [Aggregation α] [Machine] (hr : Booked a v plans added t₁)
    (hb : b ∈ bookingsFrom ticket plans) (hrun : EventTable.run t₁ = .ok () t') :
    t'.runs = t₁.runs + 1 := by
  refine EventTable.runs_of_run_eq_ok (fun hnil => ?_) hrun
  obtain ⟨p, i, hp, -⟩ := mem_bookingsFrom.1 hb
  obtain ⟨s, hs, -⟩ := forall₂_exists_getElem? hr.collects.flip hp
  have happend := hr.subscribes.pending
  rw [hnil] at happend
  rw [(List.append_eq_nil_iff.1 happend.symm).2] at hs
  cases hs

variable [Aggregation α]

/-- A spectrum with a name that is no segment makes the projection fail when the event loop has been
completed. -/
theorem exists_project_eq_error [Machine] (hr : Booked a v plans added t₁)
    (hrun : EventTable.run t₁ = .ok () t') (hb : b ∈ bookingsFrom ticket plans) {key : OutputKey}
    (hkey : b.Yields t' key) (hbad : ¬∀ s ∈ key.path ++ [key.leaf], isSegment s = true) :
    ∃ e, EventTable.project (bookingsFrom ticket plans) t₁ = .error e t' ∧
      t'.runs = t₁.runs + 1 := by
  obtain ⟨before, after, hsplit⟩ := List.append_of_mem hb
  cases hput : (bookingsFrom ticket plans).forM Booking.put (t', (.empty : HistogramTree ν)) with
  | ok u s =>
    have hfree := not_rejects_iff.1 fun f => putAll_eq_ok hput hsplit hkey f
    refine absurd (fun s hs => ?_) hbad
    rcases List.mem_append.1 hs with hs | hs
    · exact hfree.2.1 s hs
    · rw [List.mem_singleton.1 hs]
      exact hfree.1
  | error e s =>
    obtain ⟨t₂, tree⟩ := s
    obtain ⟨rfl, -⟩ := exists_of_putAll_eq_error hput
    rw [← EventTable.projectInto_eq_putAll (hr.checkPlaces ticket) hrun] at hput
    exact ⟨e, EventTable.project_eq_error_iff.2 ⟨tree, hput⟩, hr.runs_of_run hb hrun⟩

variable [LawfulFillNumber ν] [LawfulHistograms α ν]

/-- When the event loop is over, a booking has a result, and its spectra are expected and among
those whose places were checked. -/
theorem yields [Machine] (hr : Booked a v plans added t₁) (hu : v.table.Reachable)
    {v₀ : VariedTable α} (hv : Propagated a v₀ v)
    (htells : Booking.TellsIndices ν (variationLabels v.registry.systematics).length)
    (hregions : ∀ r ∈ a.regions, r.bins.toNat + 2 < 2 ^ 64)
    (hbins : ∀ h ∈ a.histograms, h.bins.toNat + 2 < 2 ^ 64)
    (hcount : (variationLabels v.registry.systematics).length + 2 < 2 ^ 64)
    (hrun : EventTable.run t₁ = .ok () t') (hb : b ∈ bookingsFrom v.table.nextTicket plans) :
    b.result? t' ≠ none ∧ b.selection = (a.requestFor v.registry).selection ∧
      ∀ key, b.Yields t' key → a.Expects v.registry key ∧ key ∈ b.outputKeys := by
  obtain ⟨p, i, hp, rfl⟩ := mem_bookingsFrom.1 hb
  obtain ⟨h, hh, hplan⟩ := forall₂_exists_getElem? hr.planned hp
  have hh := List.mem_of_getElem? hh
  have hbooking : p.booking = a.bookingOf v.registry h := hplan.booking
  have hpositions := hv.holdsPositions hu.wellFormed.inputs
  obtain ⟨res, hres, hspectra⟩ := hr.exists_shift hu hv.base hpositions htells (by omega) hplan
    (Booked.countable_axes hplan hregions (hbins h hh) hcount) hp hrun
  refine ⟨by rw [hres]; simp, by rw [hbooking]; rfl, ?_⟩
  rintro key ⟨res', hres', hkey⟩
  obtain rfl := Option.some.inj (hres.symm.trans hres')
  obtain ⟨hpath, shift, hshift, hleaf⟩ := hspectra key hkey
  refine ⟨⟨hpath, h, hh, shift, hshift, hleaf⟩, ?_⟩
  have hmem := hr.mem_outputKeys_of_mem_shiftsFor hv.base hpath hshift
  rw [← hleaf, ← hbooking] at hmem
  exact hmem

/-- When the projection of booked histograms fails, the event loop has not been completed, or an
expected spectrum is refused by the tree for its names. -/
theorem project_eq_error [Machine] (hr : Booked a v plans added t₁) (hu : v.table.Reachable)
    {v₀ : VariedTable α} (hv : Propagated a v₀ v)
    (htells : Booking.TellsIndices ν (variationLabels v.registry.systematics).length)
    (hregions : ∀ r ∈ a.regions, r.bins.toNat + 2 < 2 ^ 64)
    (hbins : ∀ h ∈ a.histograms, h.bins.toNat + 2 < 2 ^ 64)
    (hcount : (variationLabels v.registry.systematics).length + 2 < 2 ^ 64)
    (hproject : EventTable.project (bookingsFrom v.table.nextTicket plans) t₁ = .error e t') :
    t'.runs = t₁.runs ∨ t'.runs = t₁.runs + 1 ∧
      ∃ key f, a.Expects v.registry key ∧ e = .config f ∧ Rejects key False f := by
  obtain ⟨tree, hinto⟩ := EventTable.project_eq_error_iff.1 hproject
  have hplaces := hr.checkPlaces v.table.nextTicket
  cases hrun : EventTable.run t₁ with
  | error fault t₂ =>
    rw [EventTable.projectInto_of_run_eq_error hplaces hrun] at hinto
    cases hinto
    exact .inl (EventTable.runs_of_run_eq_error hrun)
  | ok u t₂ =>
    rw [EventTable.projectInto_eq_putAll hplaces hrun] at hinto
    obtain ⟨rfl, ⟨b, hb⟩, hrefused⟩ := refused_for_names hplaces
      (fun b hb => hr.yields hu hv htells hregions hbins hcount hrun hb) hinto
    exact .inr ⟨hr.runs_of_run hb hrun, hrefused⟩

end Booked

end Projection

/-! ## The whole analysis -/

/-- An analysis that passed its check fails before its event loop is completed, or the tree refuses
a name: the label of a region that refers to a directory by its place or holds a backslash, or the
leaf of a histogram.  And an analysis that has a spectrum of such a name fails when its event loop
is over. -/
theorem Analysis.run_failure {α : Type} [Aggregation α] [HoldsHistograms α Float]
    [LawfulHistograms α Float] [Machine] {a : Analysis} {t : EventTable α} (ht : t.Reachable)
    (hcheck : a.check = .ok ()) (hregions : ∀ r ∈ a.regions, r.bins.toNat + 2 < 2 ^ 64)
    (hbins : ∀ h ∈ a.histograms, h.bins.toNat + 2 < 2 ^ 64)
    (hcount : (a.registry t).systematics.length < 2 ^ 49) :
    (∀ e t', a.run t = .error e t' → t'.runs = t.runs ∨
      t'.runs = t.runs + 1 ∧ ∃ name, e = .config (.badSegment name) ∧
        ((∃ r ∈ a.regions, name ∈ r.labels ∧ (name = "." ∨ name = ".." ∨ '\\' ∈ name.toList)) ∨
          ∃ h ∈ a.histograms, ∃ shift ∈ a.shiftsFor h (a.propagated t).registry,
            name = leafName h.column shift.label ∧ isSegment name = false)) ∧
    ∀ catalog bookings t₁ t', a.prepare t = .ok (catalog, bookings) t₁ →
      EventTable.run t₁ = .ok () t' →
      (∃ b ∈ bookings, ∃ key, b.Yields t' key ∧
        ¬∀ s ∈ key.path ++ [key.leaf], isSegment s = true) →
      ∃ e, a.run t = .error e t' ∧ t'.runs = t.runs + 1 := by
  have hnd : (a.registry t).systematics.Nodup := Registry.nodup_systematics
  have hkept := keeps_runs_prepare a t
  constructor
  · intro e t' hrun
    rcases run_eq_error_iff.1 hrun with hprepare | ⟨catalog, bookings, t₁, hprepare, hproject⟩
    · rw [Step.stateAfter_of_eq_error hprepare] at hkept
      exact .inl hkept
    · rw [Step.stateAfter_of_eq_ok hprepare] at hkept
      obtain ⟨hv, -, plans, added, hbooked, rfl⟩ := prepare_eq_ok hnd hprepare
      have hlength : (variationLabels (a.propagated t).registry.systematics).length =
          2 * (a.registry t).systematics.length + 1 := by
        rw [length_variationLabels, hv.systematics]
      rcases hbooked.project_eq_error (hv.reachable ht) hv (Booking.tellsIndices_float (by omega))
        hregions hbins (by omega) hproject with hruns | ⟨hruns, key, f, hexpects, rfl, hf⟩
      · exact .inl (hruns.trans hkept)
      · refine .inr ⟨hkept ▸ hruns, ?_⟩
        obtain ⟨hpath, h, hh, shift, hshift, hleaf⟩ := hexpects
        cases hf with
        | leaf hbad => exact ⟨key.leaf, rfl, .inr ⟨h, hh, shift, hshift, hleaf, hbad⟩⟩
        | @directory segment _ hfind =>
          have hbad : isSegment segment = false := by simpa using List.find?_some hfind
          obtain ⟨labels, hlabels, hmem⟩ :=
            exists_labels_of_mem_regionPaths hpath (List.mem_of_find?_eq_some hfind)
          obtain ⟨r, hr, rfl⟩ := List.mem_map.1 hlabels
          exact ⟨segment, rfl, .inl ⟨r, hr, hmem, cases_of_label hcheck hr hmem hbad⟩⟩
        | taken _ _ hfalse => exact hfalse.elim
  · rintro catalog bookings t₁ t' hprepare hrun ⟨b, hb, key, hkey, hbad⟩
    rw [Step.stateAfter_of_eq_ok hprepare] at hkept
    obtain ⟨-, -, plans, added, hbooked, rfl⟩ := prepare_eq_ok hnd hprepare
    obtain ⟨e, hproject, hruns⟩ := hbooked.exists_project_eq_error hrun hb hkey hbad
    exact ⟨e, run_eq_error_iff.2 (.inr ⟨catalog, _, t₁, hprepare, hproject⟩), hkept ▸ hruns⟩

section DirectoryAbove

attribute [local instance] Machine.oneThread

/-- One event. -/
def oneEvent : EventTable (SlottedHistogram Float) :=
  ⟨1, 1, #[⟨"r", .stored #[0]⟩, ⟨"x", .stored #[0]⟩, ⟨"w", .stored #[1]⟩], [], [], [], 0⟩

/-- One histogram, in a region whose label is the directory above. -/
def aboveAnalysis : Analysis where
  systematics := []
  affects := []
  defines := []
  filters := []
  variationIndex := "variation"
  regions := [⟨"r", 1, 0, 1, [".."]⟩]
  histograms := [⟨"first", "x", none, "w", 1, 0, 1⟩]
  suffix := "spectrum"

theorem reachable_oneEvent : oneEvent.Reachable := by
  have hcolumns : EventTable.ofColumns (α := SlottedHistogram Float)
      [("r", #[0]), ("x", #[0]), ("w", #[1])] = .ok { oneEvent with threads := 0 } := rfl
  exact (EventTable.Reachable.ofColumns hcolumns).withThreads 1

theorem aboveAnalysis_fails :
    ∃ e t', aboveAnalysis.run oneEvent = .error e t' ∧ t'.runs = oneEvent.runs + 1 := by
  have hfault : (Step.configFault? aboveAnalysis.run oneEvent).isSome = true := by decide +kernel
  have hruns : (Step.stateAfter aboveAnalysis.run oneEvent).runs = 1 := by decide +kernel
  obtain ⟨f, hf⟩ := Option.isSome_iff_exists.1 hfault
  exact ⟨_, _, Step.eq_error_of_configFault? hf, hruns⟩

theorem run_failure_of_aboveAnalysis :
    ∃ e t', aboveAnalysis.run oneEvent = .error e t' ∧ ∃ name, e = .config (.badSegment name) ∧
      ((∃ r ∈ aboveAnalysis.regions,
          name ∈ r.labels ∧ (name = "." ∨ name = ".." ∨ '\\' ∈ name.toList)) ∨
        ∃ h ∈ aboveAnalysis.histograms,
          ∃ shift ∈ aboveAnalysis.shiftsFor h (aboveAnalysis.propagated oneEvent).registry,
            name = leafName h.column shift.label ∧ isSegment name = false) := by
  obtain ⟨e, t', hrun, hruns⟩ := aboveAnalysis_fails
  refine ⟨e, t', hrun, ?_⟩
  rcases (Analysis.run_failure reachable_oneEvent rfl (by decide +kernel) (by decide +kernel)
    (by decide +kernel)).1 e t' hrun with hsame | ⟨-, hname⟩
  · omega
  · exact hname

/-- An analysis that passed its check may fail when its event loop is over. -/
theorem checked_analysis_fails_late :
    ¬ ∀ (a : Analysis) (t t' : EventTable (SlottedHistogram Float)) (e : Error),
      a.check = .ok () → t.Reachable → a.run t = .error e t' → t'.runs = t.runs := by
  intro hearly
  obtain ⟨e, t', hrun, hruns⟩ := aboveAnalysis_fails
  have hsame := hearly aboveAnalysis oneEvent t' e rfl reachable_oneEvent hrun
  omega

end DirectoryAbove

end VariHist
