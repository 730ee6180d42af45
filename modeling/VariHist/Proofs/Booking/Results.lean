import Mathlib
import VariHist.Proofs.Booking.Filled
import VariHist.Proofs.Table.Growth

/-!
# The result of a booked histogram

After a histogram is booked, the table may go through any number of operations before somebody asks
for the result: further columns, filters and bookings, event loops that are refused, and event loops
that succeed.  Only one of them matters, the first event loop that succeeds.

* `Booking.filledBy` — what an event loop makes of a booking: each slot fills the points of its own
  rows, and the slots are added up in order.
* `Booking.Awaits` — the invariant of a booking that still waits.  Each operation either keeps it
  (`Awaits.carryOut`) or is the event loop that fills the histogram (`Awaits.result?_of_run`).
* `exists_filledBy_of_result?` — so a result is what one event loop made, over a table that has
  grown out of the one on which the histogram was booked.
* `exists_result?_of_run` — right after it was booked, an event loop makes of a histogram what one
  histogram holds that is filled with the points of the rows that are kept; by `result?_of_run` all
  of it in exact arithmetic.
-/

namespace VariHist

open SlottedHistogram HoldsHistograms

variable {α ν : Type} [FillNumber ν] {u t t' : EventTable α} {b : Booking} {row : Nat}
  {registry : Registry} {r : BookingRequest} {bookings : List Booking}

/-- The point that a row fills through a slice: the values of its columns, the weight at the end. -/
def Slice.pointOn (s : Slice) (u : EventTable α) (row : Nat) : WeightedPoint Float :=
  ⟨s.columns.dropLast.map (u.numberOn row), u.numberOn row (s.columns.getLast?.getD "")⟩

/-- The columns of the slices hold the points of a row, lined up. -/
theorem Slice.buffer_pointOn {slices : List Slice} (hs : ∀ s ∈ slices, s.columns ≠ []) :
    SlottedCall.buffer (slices.map fun s => s.pointOn u row) =
      (slices.flatMap Slice.columns).map (u.numberOn row) := by
  rw [SlottedCall.buffer, List.flatMap_map, List.map_flatMap]
  refine List.flatMap_congr fun s hmem => ?_
  have hlast := List.dropLast_append_getLast (hs s hmem)
  rw [pointOn, List.getLast?_eq_some_getLast (hs s hmem), Option.getD_some]
  dsimp only
  rw [← List.map_singleton (f := u.numberOn row), ← List.map_append, hlast]

namespace Booking

/-- The points that the rows of a slot fill, those of weight zero left out.  The table `u` gives the
values of the columns. -/
def pointsOfSlot [Machine] (b : Booking) (u t : EventTable α) (slot : Nat) :
    List (WeightedPoint Float) :=
  (((RowRange.ofSlot t.rows t.slotCount slot).rows.filter
    (passesOn t.columns t.filters)).flatMap fun row =>
      b.slices.map fun s => s.pointOn u row).filter fun p => !(p.weight == 0)

/-- What the event loop of a table makes of a booking. -/
def filledBy [Machine] (b : Booking) (u t : EventTable α) : SparseHistogram ν :=
  (SparseHistogram.blank b.name b.axes).absorbAll
    (((List.range t.slotCount).map fun slot => (b.pointsOfSlot u t slot).map .read).map
      (SparseHistogram.blank b.name b.axes).fillAll)

theorem exists_of_mem_pointsOfSlot [Machine] {slot : Nat} {p : WeightedPoint Float}
    (hp : p ∈ b.pointsOfSlot u t slot) :
    ∃ row ∈ (RowRange.ofSlot t.rows t.slotCount slot).rows, ∃ s ∈ b.slices,
      passesOn t.columns t.filters row = true ∧ s.pointOn u row = p := by
  obtain ⟨row, hrow, hpoint⟩ := List.mem_flatMap.1 (List.mem_filter.1 hp).1
  obtain ⟨s, hs, rfl⟩ := List.mem_map.1 hpoint
  obtain ⟨hrow, hpasses⟩ := List.mem_filter.1 hrow
  exact ⟨row, hrow, s, hs, hpasses, rfl⟩

theorem axes_filledBy [Machine] : (b.filledBy u t : SparseHistogram ν).axes = b.axes := by
  rw [filledBy, SparseHistogram.axes_absorbAll]
  rfl

/-- A bin is stored exactly when a point lies in it. -/
theorem mem_filledBy_iff [Machine] {index : UInt64} :
    index ∈ (b.filledBy u t : SparseHistogram ν).bins ↔
      ∃ slot < t.slotCount, ∃ p ∈ b.pointsOfSlot u t slot,
        linearIndex b.axes (binsOf b.axes (p.read : WeightedPoint ν).coords) = index := by
  simp only [filledBy, SparseHistogram.mem_absorbAll, SparseHistogram.not_mem_blank, false_or,
    List.mem_map, List.mem_range, exists_exists_and_eq_and, SparseHistogram.mem_fillAll]
  rfl

/-- Does each slice read a column for each axis, and one for the weight? -/
def ReadsAxes (b : Booking) : Prop :=
  ∀ s ∈ b.slices, s.columns.length = b.axes.length + 1

/-- A point has a coordinate for each axis. -/
theorem length_coords_pointOn (hb : b.ReadsAxes) {s : Slice} (hs : s ∈ b.slices)
    (u : EventTable α) (row : Nat) : (s.pointOn u row).coords.length = b.axes.length := by
  rw [Slice.pointOn, List.length_map, List.length_dropLast, hb s hs, Nat.add_sub_cancel]

variable [Aggregation α] [HoldsHistograms α ν]

/-- The booking waits for an event loop, as a histogram without a result that collects the columns
of its slices. -/
structure Awaits (b : Booking) (u t : EventTable α) : Prop where
  reachable : t.Reachable
  grows : u.Grows t
  unfinished : t.finished.length ≤ b.ticket
  subscription : ∃ (s : Subscription α) (g : SlottedHistogram ν) (slots : Nat),
    t.subscription? b.ticket = some s ∧ histogram? s.action = some g ∧ g.result = none ∧
    SlotsFilled b.name b.axes b.slices.length slots [] g ∧
    ∀ row, vectorOn t.columns row s.column =
      (b.slices.flatMap Slice.columns).map (u.numberOn row)

/-- A booking that waits has no result. -/
theorem Awaits.result?_eq_none (h : b.Awaits (ν := ν) u t) :
    (b.result? t : Option (SparseHistogram ν)) = none := by
  obtain ⟨s, g, slots, hs, hg, hresult, -⟩ := h.subscription
  rw [result?, EventTable.aggregation?, ← EventTable.subscription?, hs, Option.map_some,
    Option.bind_some, hg, Option.bind_some, hresult]

variable [LawfulFillNumber ν] [LawfulHistograms α ν]

/-- The event loop that succeeds fills the histogram. -/
theorem Awaits.result?_of_run [Machine] (h : b.Awaits (ν := ν) u t) (hb : b.ReadsAxes)
    (hrun : EventTable.run t = .ok () t') :
    b.ticket < t'.finished.length ∧ b.result? t' = some (b.filledBy u t : SparseHistogram ν) := by
  obtain ⟨s, g, slots, hs, hg, hresult, hstart, hvector⟩ := h.subscription
  rw [EventTable.subscription?_pending h.unfinished] at hs
  have hfinished := EventTable.finished_of_run h.reachable.wellFormed hrun hs
  rw [Nat.add_sub_cancel' h.unfinished] at hfinished
  have hlt := (List.getElem?_eq_some_iff.1 hfinished).1
  have hcolumns : ∀ s ∈ b.slices, s.columns ≠ [] := fun s hs hnil => by
    have := hb s hs
    rw [hnil] at this
    cases this
  have hcalls : t.callsFor s.column = (List.range t.slotCount).flatMap fun slot =>
      slotCalls slot (((RowRange.ofSlot t.rows t.slotCount slot).rows.filter
        (passesOn t.columns t.filters)).map fun row => b.slices.map fun s => s.pointOn u row) := by
    refine List.flatMap_congr fun slot _ => ?_
    rw [slotCalls, List.map_map]
    refine congrArg (List.cons _) (List.map_congr_left fun row _ => ?_)
    rw [hvector, ← Slice.buffer_pointOn hcolumns]
    rfl
  have hfit : ∀ slot, RowsFit b.axes.length b.slices.length
      (((RowRange.ofSlot t.rows t.slotCount slot).rows.filter
        (passesOn t.columns t.filters)).map fun row => b.slices.map fun s => s.pointOn u row) := by
    intro slot
    rw [RowsFit, List.forall_mem_map]
    refine fun row _ => ⟨List.length_map _, ?_⟩
    rw [List.forall_mem_map]
    exact fun s hs => length_coords_pointOn hb hs u row
  refine ⟨hlt, ?_⟩
  rw [result?, EventTable.aggregation?, ← EventTable.subscription?,
    EventTable.subscription?_finished hlt, hfinished, Option.map_some, Option.bind_some, hcalls,
    result_of_driven_slots hg hstart hresult t.slotCount hfit]
  simp only [← List.flatMap_def]
  rfl

omit [LawfulFillNumber ν] in
/-- An operation other than the event loop that succeeds leaves a booking waiting. -/
theorem Awaits.carryOut (h : b.Awaits (ν := ν) u t) (op : EventTable.Operation α) :
    b.Awaits (ν := ν) u (op.carryOut t) ∨
      ∃ _ : Machine, op = .run ∧ ∃ t', EventTable.run t = .ok () t' := by
  obtain ⟨s, g, slots, hs, hg, hresult, hstart, hvector⟩ := h.subscription
  have hgrows := EventTable.grows_carryOut op t
  have hmem := hs
  rw [EventTable.subscription?_pending h.unfinished] at hmem
  have hcolumn : s.column < t.columns.size :=
    kindIn_eq_some_lt (h.reachable.wellFormed.subscriptions s (List.mem_of_getElem? hmem))
  have hvector' : ∀ row, vectorOn (op.carryOut t).columns row s.column =
      (b.slices.flatMap Slice.columns).map (u.numberOn row) := fun row => by
    rw [EventTable.vectorOn_of_keepsColumns hgrows.toKeepsColumns h.reachable.wellFormed.inputs
      hcolumn, hvector]
  rcases EventTable.books_carryOut op t with ⟨machine, rfl⟩ | hbooks
  · have hreachable := h.reachable.carryOut .run
    cases hrun : EventTable.run t with
    | ok answer t' => exact .inr ⟨machine, rfl, t', hrun⟩
    | error e t' =>
      rw [show EventTable.Operation.run.carryOut t = t' from Step.stateAfter_of_eq_error hrun]
        at hgrows hvector' hreachable ⊢
      obtain ⟨hunfinished, hkept | hprepared⟩ :=
        EventTable.subscription?_of_run_eq_error hrun h.unfinished hs
      · exact .inl ⟨hreachable, h.grows.trans hgrows, hunfinished, s, g, slots, hkept, hg, hresult,
          hstart, hvector'⟩
      · exact .inl ⟨hreachable, h.grows.trans hgrows, hunfinished, _, g.prepare t.slotCount,
          t.slotCount, hprepared, LawfulHistograms.histogram?_prepare _ _ _ hg, hresult,
          hstart.prepare _, hvector'⟩
  · obtain ⟨-, hunfinished, hs'⟩ := hbooks.subscription? h.unfinished hs
    exact .inl ⟨h.reachable.carryOut op, h.grows.trans hgrows, hunfinished,
      s, g, slots, hs', hg, hresult, hstart, hvector'⟩

/-- Whatever is done to the table, a booking waits, or it has the result that one event loop gave
it, on some machine. -/
theorem Awaits.afterAll (h : b.Awaits (ν := ν) u t) (hb : b.ReadsAxes)
    (ops : List (EventTable.Operation α)) :
    b.Awaits (ν := ν) u (t.afterAll ops) ∨ ∃ (_ : Machine) (loop : EventTable α),
      u.Grows loop ∧ loop.Reachable ∧
        b.result? (t.afterAll ops) = some (b.filledBy u loop : SparseHistogram ν) := by
  induction ops generalizing t with
  | nil => exact .inl h
  | cons op ops ih =>
    rcases h.carryOut op with hwaits | ⟨machine, rfl, t', hrun⟩
    · exact ih hwaits
    · obtain ⟨hlt, hresult⟩ := h.result?_of_run hb hrun
      refine .inr ⟨machine, t, h.grows, h.reachable, ?_⟩
      rw [← hresult, result?, result?, EventTable.aggregation?, EventTable.aggregation?,
        ← EventTable.subscription?, ← EventTable.subscription?,
        ← EventTable.subscription?_afterAll hlt ops]
      rw [show t' = EventTable.Operation.run.carryOut t from (Step.stateAfter_of_eq_ok hrun).symm]
      rfl

end Booking

/-! ## Booked histograms wait -/

variable {o : Observable} {p : BookingRequest.Plan ν} {s : Subscription α}
  {added : List (Subscription α)} {i : Nat}

/-- A table on which something is subscribed has grown. -/
theorem EventTable.Subscribes.grows (h : u.Subscribes t added) : u.Grows t :=
  ⟨h.toKeepsColumns, h.rows, h.filters ▸ List.prefix_refl _⟩

/-- What is subscribed is not finished. -/
theorem EventTable.Subscribes.unfinished (h : u.Subscribes t added) (i : Nat) :
    t.finished.length ≤ u.nextTicket + i := by
  rw [h.finished, EventTable.nextTicket]
  omega

/-- What is subscribed stands under the tickets that come next. -/
theorem EventTable.Subscribes.subscription? (h : u.Subscribes t added) (i : Nat) :
    t.subscription? (u.nextTicket + i) = added[i]? := by
  rw [EventTable.subscription?_pending (h.unfinished i), h.pending, h.finished,
    EventTable.nextTicket, Nat.add_assoc, Nat.add_sub_cancel_left,
    List.getElem?_append_right (Nat.le_add_right _ _), Nat.add_sub_cancel_left]

omit [FillNumber ν] in
/-- The slices of a histogram that is planned read a column for each axis, and one for the
weight. -/
theorem readsAxes_of_planned (hplan : r.Planned u registry o p) (ticket : Nat) :
    Booking.ReadsAxes { p.booking with ticket } := by
  intro s hs
  dsimp only at hs
  rw [hplan.booking] at hs
  rw [(of_mem_fillSlices hs).1, Booking.axes, hplan.booking]
  simp [BookingRequest.columnsOf, BookingRequest.bookingOf]

variable [HoldsHistograms α ν]

/-- A booked histogram was planned for an observable, and subscribed under its ticket. -/
theorem exists_plan_of_mem [Machine] (h : EventTable.book registry r u = .ok bookings t)
    (hb : b ∈ bookings) :
    ∃ (o : Observable) (p : BookingRequest.Plan ν) (added : List (Subscription α))
      (s : Subscription α) (i : Nat),
      o ∈ r.observables ∧ r.Planned u registry o p ∧ u.Subscribes t added ∧ t.Collects p s ∧
      added[i]? = some s ∧ b = { p.booking with ticket := u.nextTicket + i } := by
  obtain ⟨plans, added, -, hplanned, -, hsub, hcollects, rfl⟩ := EventTable.exists_plans_of_book h
  obtain ⟨⟨p, i⟩, hp, rfl⟩ := List.mem_map.1 hb
  have hi : plans[i]? = some p := List.mem_zipIdx_iff_getElem?.1 hp
  obtain ⟨o, ho, hplan⟩ := forall₂_exists_of_mem_right hplanned (List.mem_of_getElem? hi)
  obtain ⟨s, hs, hcollect⟩ := forall₂_exists_getElem? hcollects.flip hi
  exact ⟨o, p, added, s, i, ho, hplan, hsub, hcollect, hs, rfl⟩

theorem exists_bookingOf_of_mem [Machine] (h : EventTable.book registry r u = .ok bookings t)
    (hb : b ∈ bookings) :
    ∃ o ∈ r.observables, ∃ ticket, b = { r.bookingOf registry o with ticket } := by
  obtain ⟨o, p, -, -, i, ho, hplan, -, -, -, rfl⟩ := exists_plan_of_mem h hb
  exact ⟨o, ho, _, by rw [hplan.booking]⟩

variable [Aggregation α] [LawfulHistograms α ν]

/-- A histogram that was planned and subscribed waits. -/
theorem awaits_of_planned (hu : u.Reachable) (hsub : u.Subscribes t added)
    (hplan : r.Planned u registry o p) (hcol : t.Collects p s) (hi : added[i]? = some s) :
    Booking.Awaits (ν := ν) { p.booking with ticket := u.nextTicket + i } u t := by
  obtain ⟨slots, hmake⟩ := hplan.histogram
  obtain ⟨hstart, hresult⟩ := SlotsFilled.make hmake
  refine ⟨hsub.reachable hu, hsub.grows, hsub.unfinished i, s, p.histogram, _, ?_, ?_, hresult,
    hstart, fun row => vectorOn_eq_numbers hu.wellFormed hsub.toKeepsColumns hplan hcol row⟩
  · rw [hsub.subscription?, hi]
  · rw [hcol.action, LawfulHistograms.histogram?_ofHistogram]

variable [LawfulFillNumber ν]

/-- The result of a booked histogram, whenever it is asked for, is what one event loop made of it,
on some machine and over a table that has grown out of the one on which it was booked. -/
theorem exists_filledBy_of_result? [Machine] (hu : u.Reachable)
    (h : EventTable.book registry r u = .ok bookings t) (hb : b ∈ bookings)
    (later : List (EventTable.Operation α)) {filled : SparseHistogram ν}
    (hresult : b.result? (t.afterAll later) = some filled) :
    ∃ (_ : Machine) (loop : EventTable α), u.Grows loop ∧ loop.Reachable ∧
      filled = b.filledBy u loop := by
  obtain ⟨o, p, added, s, i, -, hplan, hsub, hcol, hi, rfl⟩ := exists_plan_of_mem h hb
  rcases (awaits_of_planned hu hsub hplan hcol hi).afterAll (readsAxes_of_planned hplan _) later
    with hwaits | ⟨machine, loop, hgrows, hreachable, hfilled⟩
  · rw [hwaits.result?_eq_none] at hresult
    cases hresult
  · rw [hresult] at hfilled
    exact ⟨machine, loop, hgrows, hreachable, Option.some.inj hfilled⟩

/-! ## The event loop right after -/

variable {shifts : List Shift}

omit [FillNumber ν] [HoldsHistograms α ν] [Aggregation α] [LawfulHistograms α ν]
  [LawfulFillNumber ν] in
/-- If its slices are shifts, the slots share out the points of the rows that are kept. -/
theorem flatMap_pointsOfSlot [Machine] (hu : u.WellFormed) (hk : u.KeepsColumns t)
    (hrows : t.rows = u.rows) (hfilters : t.filters = u.filters)
    (hslices : b.slices = shifts.map (sliceOf registry (r.columnsOf o))) :
    (List.range t.slotCount).flatMap (b.pointsOfSlot u t) = r.pointsOver registry u o shifts := by
  have hpasses : passesOn t.columns t.filters = passesOn u.columns u.filters := by
    funext row
    rw [hfilters]
    exact hk.passesOn hu.inputs hu.filters
  have hpoints : ∀ row, b.slices.map (fun s => s.pointOn u row) =
      shifts.map (r.pointOn registry u o row) := by
    intro row
    rw [hslices, List.map_map]
    refine List.map_congr_left fun shift _ => ?_
    simp [Slice.pointOn, sliceOf, BookingRequest.columnsOf, BookingRequest.pointOn]
  unfold Booking.pointsOfSlot BookingRequest.pointsOver
  simp only [hpasses, hrows, hpoints]
  rw [← List.filter_flatMap, ← flatMap_rows_ofSlot u.rows t.one_le_slotCount]
  refine congrArg (List.filter _) ?_
  rw [List.filter_flatMap, List.flatMap_assoc]

/-- After the event loop a booked histogram holds what one histogram holds that is filled with the
points of the rows that are kept, as far as sums do not depend on their order. -/
theorem exists_result?_of_run [Machine] {M : Type} [AddCommMonoid M] {q : BinContent ν → M}
    (hq : BinContent.IsAdditive q) (hu : u.Reachable) (hsub : u.Subscribes t added)
    (hplan : r.Planned u registry o p) (hcol : t.Collects p s)
    (hslices : p.booking.slices = shifts.map (sliceOf registry (r.columnsOf o)))
    (hrun : EventTable.run t = .ok () t') (hi : added[i]? = some s) :
    ∃ res, Booking.result? { p.booking with ticket := u.nextTicket + i } t' = some res ∧
      SparseHistogram.AgreeOn q res ((SparseHistogram.blank p.booking.name p.booking.axes).fillAll
        ((r.pointsOver registry u o shifts).map .read)) := by
  have hwaits := awaits_of_planned hu hsub hplan hcol hi
  refine ⟨_, (hwaits.result?_of_run (readsAxes_of_planned hplan _) hrun).2, ?_⟩
  have hparts : ((List.range t.slotCount).map fun slot =>
      (Booking.pointsOfSlot { p.booking with ticket := u.nextTicket + i } u t slot).map
        (WeightedPoint.read (ν := ν))).flatten = (r.pointsOver registry u o shifts).map .read := by
    rw [← flatMap_pointsOfSlot (b := { p.booking with ticket := u.nextTicket + i })
      hu.wellFormed hsub.toKeepsColumns hsub.rows hsub.filters hslices, ← List.flatMap_def,
      List.map_flatMap]
  rw [← hparts]
  exact SparseHistogram.absorbAll_map_fillAll hq _ _ _

/-- In exact arithmetic the order does not matter. -/
theorem result?_of_run [Machine] [ExactAddition ν] (hu : u.Reachable) (hsub : u.Subscribes t added)
    (hplan : r.Planned u registry o p) (hcol : t.Collects p s)
    (hslices : p.booking.slices = shifts.map (sliceOf registry (r.columnsOf o)))
    (hrun : EventTable.run t = .ok () t') (hi : added[i]? = some s) :
    ∃ res, Booking.result? { p.booking with ticket := u.nextTicket + i } t' = some res ∧
      SparseHistogram.SameContent res ((SparseHistogram.blank p.booking.name p.booking.axes).fillAll
        ((r.pointsOver registry u o shifts).map .read)) :=
  exists_result?_of_run BinContent.additive_id hu hsub hplan hcol hslices hrun hi

end VariHist
