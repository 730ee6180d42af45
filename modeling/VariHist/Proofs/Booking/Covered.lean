import Mathlib
import VariHist.Proofs.Booking.Spectra

/-!
# The places that a booking claims

The places of a booking are worked out from its slices, before the event loop, while its spectra
come from the bins that the event loop fills.  The two agree only as long as no row lies in the bin
of a variation without a slice.

* `Booking.PutsUnder` — a row lies, read through a slice, in the bin of a variation.
* `places_of_spectra` — every spectrum lies in a region and under a variation in whose bin a row
  lies; its place is one that the booking claims exactly if the variation has a slice.
* `spectrum_outside_outputKeys` — a spectrum at a place that the booking does not claim.
-/

namespace VariHist

variable {α ν : Type} [FillNumber ν] {b : Booking} {u t : EventTable α} {row : Nat} {s : Slice}
  {label : String} {key : OutputKey}

namespace Booking

/-- Read through a slice, the row lies in the bin of a variation: the column that the slice reads
for the last selection axis has a value in the bin with this label. -/
def PutsUnder (ν : Type) [FillNumber ν] (b : Booking) (u : EventTable α) (row : Nat) (s : Slice)
    (label : String) : Prop :=
  ∃ axis column, b.selection.getLast? = some axis ∧
    s.columns[b.selection.length - 1]? = some column ∧
    labelOf? b.variations ((Axis.ofColumn axis).findBin
      (FillNumber.ofFloat (u.numberOn row column) : ν)) = some label

/-- The label of the last bin of a selection is the label of a variation. -/
theorem labelOf?_getLast (hb : b.Labelled) {sel : List UInt64} {path : List String}
    (hlen : sel.length = b.selection.length)
    (hlabels : labelsOf? b.catalogs sel = some (path ++ [label])) :
    path ∈ regionPaths b.catalogs.dropLast ∧
      ∃ bin, sel[b.selection.length - 1]? = some bin ∧ labelOf? b.variations bin = some label := by
  obtain ⟨regions, last, hcatalogs⟩ :=
    (List.eq_nil_or_concat b.catalogs).resolve_left hb.catalogs
  rw [List.concat_eq_append] at hcatalogs
  have hcount : b.selection.length = regions.length + 1 := by rw [hb.length, hcatalogs]; simp
  obtain ⟨front, bin, hsel⟩ := (List.eq_nil_or_concat sel).resolve_left fun hnil => by
    rw [hnil, hcount] at hlen
    cases hlen
  rw [List.concat_eq_append] at hsel
  have hfront : front.length = regions.length := by
    rw [hsel, hcount] at hlen
    simpa using hlen
  rw [hcatalogs, hsel, labelsOf?_append hfront, Option.bind_eq_some_iff] at hlabels
  obtain ⟨path', hpath, hlast⟩ := hlabels
  obtain ⟨l, hl, heq⟩ := Option.map_eq_some_iff.1 hlast
  obtain ⟨rfl, hlabel⟩ := List.append_inj' heq rfl
  obtain rfl := List.singleton_inj.1 hlabel
  refine ⟨?_, bin, ?_, ?_⟩
  · rw [hcatalogs, List.dropLast_concat]
    exact mem_regionPaths_of_labelsOf? hfront hpath
  · rw [hsel, hcount, Nat.add_sub_cancel, ← hfront, List.getElem?_concat_length]
  · rw [variations, hcatalogs, List.getLast?_concat, Option.getD_some]
    exact hl

/-- Where the row lies along the last selection axis is read from the column of this axis. -/
theorem putsUnder_of_bin {s : Slice} {bin : UInt64} (hpos : 0 < b.selection.length)
    (hbin : (binsOf b.axes ((s.pointOn u row).read : WeightedPoint ν).coords)[
      b.selection.length - 1]? = some bin)
    (hlabel : labelOf? b.variations bin = some label) : b.PutsUnder ν u row s label := by
  rw [binsOf, List.getElem?_map, Option.map_eq_some_iff] at hbin
  obtain ⟨⟨a, x⟩, hzip, rfl⟩ := hbin
  obtain ⟨haxis, hvalue⟩ := List.getElem?_zip_eq_some.1 hzip
  rw [axes, List.getElem?_append_left (by rw [List.length_map]; omega), List.getElem?_map,
    Option.map_eq_some_iff] at haxis
  obtain ⟨axis, haxis, rfl⟩ := haxis
  rw [WeightedPoint.read, Slice.pointOn, List.map_map, List.getElem?_map,
    Option.map_eq_some_iff] at hvalue
  obtain ⟨column, hcolumn, rfl⟩ := hvalue
  rw [List.getElem?_dropLast] at hcolumn
  split_ifs at hcolumn
  exact ⟨axis, column, List.getLast?_eq_getElem?.trans haxis, hcolumn, hlabel⟩

/-- A spectrum of what an event loop makes of a booking comes from a row that is kept, and from a
slice. -/
theorem exists_row_of_mem [Machine] (hb : b.Labelled) (hc : Countable b.axes) (hreads : b.ReadsAxes)
    (hkey : key ∈ b.spectraOf (b.filledBy u t : SparseHistogram ν)) :
    ∃ path label, key = ⟨path, leafName b.observable.column label⟩ ∧
      path ∈ regionPaths b.catalogs.dropLast ∧ ∃ s ∈ b.slices, ∃ row < t.rows,
        passesOn t.columns t.filters row = true ∧ b.PutsUnder ν u row s label := by
  obtain ⟨e, he, hkeyOf⟩ := exists_of_mem_spectraOf hkey
  obtain ⟨slot, hslot, p, hp, hindex⟩ :=
    mem_filledBy_iff.1 (SparseHistogram.mem_bins_of_mem_sorted he)
  obtain ⟨row, hrow, s, hs, hpasses, rfl⟩ := exists_of_mem_pointsOfSlot hp
  have hr := inRange_pointOn (ν := ν) hc hreads hs u row
  rw [axes_filledBy, ← hindex, coordinates_linearIndex hr hc.count] at hkeyOf
  obtain ⟨sel, v, hbins, hfront, -⟩ := (inRange_axes_iff hc).1 hr
  have hlen : sel.length = b.selection.length := by rw [← hfront.length_eq, List.length_map]
  rw [hbins] at hkeyOf
  obtain ⟨path, label, hlabels, rfl⟩ := exists_of_keyOf? hb hlen hkeyOf
  obtain ⟨hpath, bin, hbin, hlabel⟩ := labelOf?_getLast hb hlen hlabels
  refine ⟨path, label, rfl, hpath, s, hs, row, mem_rows_ofSlot_lt hslot hrow, hpasses, ?_⟩
  have hposition : b.selection.length - 1 < sel.length := (List.getElem?_eq_some_iff.1 hbin).1
  refine putsUnder_of_bin (by omega) ?_ hlabel
  rw [hbins, List.getElem?_append_left hposition, hbin]

end Booking

variable [HoldsHistograms α ν] {registry : Registry} {r : BookingRequest} {bookings : List Booking}
  {h : SparseHistogram ν}

/-- A spectrum of a booked histogram, whatever was done to the table since it was booked, lies in a
region and under a variation in whose bin a row lies, read through a slice.  Its place is one that
the booking claims exactly if this variation has a slice.  So the booking claims the places of all
spectra if no row lies in the bin of a variation without a slice. -/
theorem places_of_spectra [Aggregation α] [LawfulFillNumber ν] [LawfulHistograms α ν] [Machine]
    (hu : u.Reachable) (hbook : EventTable.book registry r u = .ok bookings t) (hb : b ∈ bookings)
    (later : List (EventTable.Operation α)) (hresult : b.result? (t.afterAll later) = some h)
    (hbins : ∀ a ∈ b.axes, a.bins.toNat + 2 < 2 ^ 64) :
    (∀ key ∈ b.spectraOf h, ∃ path label, key = ⟨path, leafName b.observable.column label⟩ ∧
      path ∈ regionPaths b.catalogs.dropLast ∧
      (∃ s ∈ b.slices, ∃ row < u.rows, passesOn u.columns u.filters row = true ∧
        b.PutsUnder ν u row s label) ∧
      (key ∈ b.outputKeys ↔ ∃ s ∈ b.slices, s.label = label)) ∧
    ((∀ s ∈ b.slices, ∀ row < u.rows, passesOn u.columns u.filters row = true →
        ∀ label, b.PutsUnder ν u row s label → ∃ s' ∈ b.slices, s'.label = label) →
      ∀ key ∈ b.spectraOf h, key ∈ b.outputKeys) := by
  have hplaces : ∀ key ∈ b.spectraOf h, ∃ path label,
      key = ⟨path, leafName b.observable.column label⟩ ∧
      path ∈ regionPaths b.catalogs.dropLast ∧
      (∃ s ∈ b.slices, ∃ row < u.rows, passesOn u.columns u.filters row = true ∧
        b.PutsUnder ν u row s label) ∧
      (key ∈ b.outputKeys ↔ ∃ s ∈ b.slices, s.label = label) := by
    have hlabelled := Booking.labelled_of_book hbook hb
    have hcountable := Booking.countable_of_book hbook hb hbins
    have hreads := Booking.readsAxes_of_book hbook hb
    obtain ⟨machine, loop, hgrows, -, rfl⟩ := exists_filledBy_of_result? hu hbook hb later hresult
    intro key hkey
    obtain ⟨path, label, rfl, hpath, s, hs, row, hrow, hpasses, hputs⟩ :=
      Booking.exists_row_of_mem hlabelled hcountable hreads hkey
    refine ⟨path, label, rfl, hpath,
      ⟨s, hs, row, hgrows.rows ▸ hrow, hgrows.passesOn hu.wellFormed hpasses, hputs⟩, ?_⟩
    rw [mem_outputKeys, and_iff_right hpath]
    exact exists_congr fun s => and_congr_right fun _ => (leafName_injective _).eq_iff
  refine ⟨hplaces, fun hsliced key hkey => ?_⟩
  obtain ⟨path, label, -, -, ⟨s, hs, row, hrow, hpasses, hputs⟩, hiff⟩ := hplaces key hkey
  exact hiff.2 (hsliced s hs row hrow hpasses label hputs)

section Variation

attribute [local instance] Machine.oneThread

/-- One event, in the bin of the variation `AUp`. -/
def eventInVariation : EventTable (SlottedHistogram Float) :=
  ⟨1, 0, #[⟨"idx", .stored #[1]⟩, ⟨"x", .stored #[1]⟩, ⟨"w", .stored #[1]⟩], [], [], [], 0⟩

/-- A histogram with an axis for the variation `AUp`, which has no slice. -/
def requestOverVariation : BookingRequest :=
  ⟨[⟨"h", "x", "x", "w", 2, 0, 2⟩], [⟨"idx", 2, -0.5, 1.5⟩], "sr", [["Nominal", "AUp"]]⟩

theorem eventInVariation_reachable : eventInVariation.Reachable := by
  have hcolumns : (EventTable.ofColumns [("idx", #[1]), ("x", #[1]), ("w", #[1])] :
      Except Error (EventTable (SlottedHistogram Float))) = .ok eventInVariation := rfl
  exact .ofColumns hcolumns

/-- The event makes a spectrum, and its place is not claimed. -/
theorem exists_spectrum_of_variation :
    ∃ bookings t b h, EventTable.book .empty requestOverVariation eventInVariation =
        .ok bookings t ∧ b ∈ bookings ∧ b.result? (t.afterAll [.run]) = some h ∧
      (⟨[], "x_AUp"⟩ : OutputKey) ∈ b.spectraOf h ∧ (⟨[], "x_AUp"⟩ : OutputKey) ∉ b.outputKeys ∧
      ∀ a ∈ b.axes, a.bins.toNat + 2 < 2 ^ 64 := by
  have hcheck : (Step.answer (EventTable.book .empty requestOverVariation)
      eventInVariation).toOption.any (fun bookings => bookings.any fun b =>
        (b.result? ((Step.stateAfter (EventTable.book .empty requestOverVariation)
          eventInVariation).afterAll [.run])).any fun h =>
            (b.spectraOf h).contains ⟨[], "x_AUp"⟩ && !b.outputKeys.contains ⟨[], "x_AUp"⟩ &&
              b.axes.all fun a => a.bins.toNat + 2 < 2 ^ 64) = true := by decide +kernel
  obtain ⟨bookings, hbook, hany⟩ := Step.exists_of_answer_any hcheck
  obtain ⟨b, hb, hfilled⟩ := List.any_eq_true.1 hany
  obtain ⟨h, hresult, hspectrum⟩ := (Option.any_eq_true _ _).1 hfilled
  rw [Bool.and_eq_true, Bool.and_eq_true] at hspectrum
  obtain ⟨⟨hmem, hout⟩, hbins⟩ := hspectrum
  exact ⟨bookings, _, b, h, hbook, hb, hresult, Std.TreeMap.mem_iff_contains.2 hmem,
    by simpa using hout, by simpa using hbins⟩

/-- A booking may have a spectrum at a place that it does not claim. -/
theorem spectrum_outside_outputKeys :
    ¬ ∀ (registry : Registry) (r : BookingRequest) (u t : EventTable (SlottedHistogram Float))
      (bookings : List Booking) (b : Booking)
      (later : List (EventTable.Operation (SlottedHistogram Float))) (h : SparseHistogram Float)
      (key : OutputKey), u.Reachable → EventTable.book registry r u = .ok bookings t →
        b ∈ bookings → b.result? (t.afterAll later) = some h → key ∈ b.spectraOf h →
        key ∈ b.outputKeys := by
  intro hcovered
  obtain ⟨bookings, t, b, h, hbook, hb, hresult, hmem, hout, -⟩ := exists_spectrum_of_variation
  exact hout (hcovered _ _ _ _ _ _ _ _ _ eventInVariation_reachable hbook hb hresult hmem)

/-- The variation of this spectrum has no slice. -/
theorem places_of_spectra_outside :
    ∃ bookings t b h label,
      EventTable.book .empty requestOverVariation eventInVariation = .ok bookings t ∧
      b ∈ bookings ∧ b.result? (t.afterAll [.run]) = some h ∧
      leafName b.observable.column label = "x_AUp" ∧
      (⟨[], "x_AUp"⟩ : OutputKey) ∈ b.spectraOf h ∧ (¬∃ s ∈ b.slices, s.label = label) ∧
      ∃ s ∈ b.slices, ∃ row < eventInVariation.rows,
        b.PutsUnder Float eventInVariation row s label := by
  obtain ⟨bookings, t, b, h, hbook, hb, hresult, hmem, hout, hbins⟩ :=
    exists_spectrum_of_variation
  obtain ⟨path, label, hkey, -, ⟨s, hs, row, hrow, -, hputs⟩, hiff⟩ :=
    (places_of_spectra eventInVariation_reachable hbook hb [.run] hresult hbins).1 _ hmem
  exact ⟨bookings, t, b, h, label, hbook, hb, hresult, (congrArg OutputKey.leaf hkey).symm, hmem,
    fun hsliced => hout (hiff.2 hsliced), s, hs, row, hrow, hputs⟩

end Variation

end VariHist
