import Mathlib
import VariHist.Proofs.Booking.Book
import VariHist.Proofs.Histogram.Collected

/-!
# What a booked histogram collects

* `BookingRequest.pointOn` — the point that a row fills under a shift.
* `BookingRequest.pointsOver` — the points of weight other than zero of the rows that are kept.
* `vectorOn_eq_numbers` — a booked histogram collects the values of the columns of its slices.
-/

namespace VariHist

open SlottedHistogram

variable {α ν : Type} {t t' u : EventTable α} {registry : Registry} {r : BookingRequest}
  {o : Observable} {row : Nat} {shifts : List Shift}

namespace BookingRequest

/-- The point that a row fills under a shift. -/
def pointOn (r : BookingRequest) (registry : Registry) (u : EventTable α) (o : Observable)
    (row : Nat) (shift : Shift) : WeightedPoint Float :=
  ⟨(r.selection.map BinnedColumn.column ++ [o.column]).map fun c =>
      u.numberOn row (registry.under shift c),
    u.numberOn row (registry.under shift o.weight)⟩

/-- The points of weight other than zero that the kept rows fill under some shifts. -/
def pointsOver (r : BookingRequest) (registry : Registry) (u : EventTable α) (o : Observable)
    (shifts : List Shift) : List (WeightedPoint Float) :=
  (((List.range u.rows).filter (passesOn u.columns u.filters)).flatMap fun row =>
    shifts.map (r.pointOn registry u o row)).filter fun p => !(p.weight == 0)

theorem exists_of_mem_pointsOver {p : WeightedPoint Float} {u : EventTable α}
    (hp : p ∈ r.pointsOver registry u o shifts) :
    ∃ row, ∃ shift ∈ shifts, r.pointOn registry u o row shift = p := by
  obtain ⟨row, -, hrow⟩ := List.mem_flatMap.1 (List.mem_filter.1 hp).1
  obtain ⟨shift, hs, rfl⟩ := List.mem_map.1 hrow
  exact ⟨row, shift, hs, rfl⟩

end BookingRequest

variable [HoldsHistograms α ν] {p : BookingRequest.Plan ν} {s : Subscription α}
  {added : List (Subscription α)}

/-- A booked histogram collects what the columns of its slices hold, lined up, whatever columns are
added after it was planned. -/
theorem vectorOn_eq_numbers (hu : u.WellFormed) (hk : u.KeepsColumns t)
    (hplan : r.Planned u registry o p) (hcol : t.Collects p s) (row : Nat) :
    vectorOn t.columns row s.column =
      (p.booking.slices.flatMap Slice.columns).map (u.numberOn row) := by
  obtain ⟨ids, hcolumn, hids⟩ := hcol.column
  have hnumber : ∀ c i, t.idOfKind .scalar c = .ok i → u.idOf? c ≠ none →
      scalarOn t.columns row i = u.numberOn row c := by
    intro c i hi hc
    obtain ⟨j, hj⟩ := Option.ne_none_iff_exists'.1 hc
    obtain ⟨hi', hkind⟩ := EventTable.idOfKind_eq_ok_iff.1 hi
    obtain rfl := Option.some.inj (hi'.symm.trans (hk.idOf? c j hj))
    obtain ⟨column, hcolumn, -⟩ := EventTable.exists_of_idOf? hj
    have hkind' : kindIn u.columns i = some .scalar := by
      rw [kindIn, hk.column _ _ hcolumn] at hkind
      rw [kindIn, hcolumn, hkind]
    have hscalar := EventTable.idOfKind_eq_ok_iff.2 ⟨hj, hkind'⟩
    rw [EventTable.numberOn_of_idOfKind hu.inputs hscalar]
    exact EventTable.scalarOn_of_keepsColumns hk hu.inputs (kindIn_eq_some_lt hkind')
  rw [vectorOn_derived hcolumn, id]
  rw [← List.forall₂_eq_eq_eq, List.forall₂_map_left_iff, List.forall₂_map_right_iff]
  have hall := (List.forall₂_and_left _ _).2 ⟨hplan.columns, hids⟩
  exact hall.flip.imp fun i c hi => hnumber c i hi.2 hi.1

end VariHist
