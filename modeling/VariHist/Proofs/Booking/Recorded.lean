import Mathlib
import VariHist.Proofs.Booking.Book
import VariHist.Proofs.Table.Traced

/-!
# Booking with calls written down

Booking looks at the columns of a table and at the number of its slots, and not at what has become
of its aggregations.  So a request books the same histograms on a table whose aggregations write
down their calls, and these have no calls at first.

* `exists_book_of_untraced` — the request goes through there as well, with the same bookings.
-/

namespace VariHist

variable {α ν : Type} [Aggregation α] [FillNumber ν] [HoldsHistograms α ν]

/-- A histogram is booked without calls. -/
instance : HoldsHistograms (Traced α) ν where
  ofHistogram s := .start (HoldsHistograms.ofHistogram s)
  histogram? a := HoldsHistograms.histogram? a.action

namespace EventTable

variable {t : EventTable (Traced α)} {u' : EventTable α} {p : BookingRequest.Plan ν} {b : Booking}
  {registry : Registry} {r : BookingRequest} {bookings : List Booking}

theorem exists_of_untraced {x : Except Error (EventTable (Traced α))}
    (h : x.map untraced = .ok u') : ∃ t', x = .ok t' ∧ t'.untraced = u' := by
  cases x with
  | error e => cases h
  | ok t' => exact ⟨t', rfl, Except.ok.inj h⟩

theorem nextTicket_untraced (t : EventTable (Traced α)) :
    t.untraced.nextTicket = t.nextTicket := by
  rw [nextTicket, nextTicket, untraced, List.length_map, List.length_map]

omit [FillNumber ν] in
theorem exists_bookPlan_of_untraced (h : p.book t.untraced = .ok b u') :
    ∃ t', p.book t = .ok b t' ∧ t'.untraced = u' := by
  obtain ⟨⟨⟩, u₁, hfirst, hrest⟩ := Step.bind_eq_ok_iff.1 h
  obtain ⟨ticket, u₂, hticket, hlast⟩ := Step.bind_eq_ok_iff.1 hrest
  obtain ⟨⟨⟩, u₃, hsecond, hanswer⟩ := Step.bind_eq_ok_iff.1 hlast
  have hdefine := Step.attempt_eq_ok_iff.1 hfirst
  have hsubscribe := Step.attempt_eq_ok_iff.1 hsecond
  cases hticket
  cases hanswer
  rw [untraced_defineColumn] at hdefine
  obtain ⟨t₁, hdefined, rfl⟩ := exists_of_untraced hdefine
  have haction : (HoldsHistograms.ofHistogram p.histogram : α) =
      (Traced.start (HoldsHistograms.ofHistogram p.histogram)).action := rfl
  rw [haction, untraced_subscribe] at hsubscribe
  obtain ⟨t₂, hsubscribed, rfl⟩ := exists_of_untraced hsubscribe
  refine ⟨t₂, Step.bind_eq_ok_iff.2 ⟨(), t₁, Step.attempt_eq_ok_iff.2 hdefined,
    Step.bind_eq_ok_iff.2 ⟨t₁.nextTicket, t₁, rfl,
      Step.bind_eq_ok_iff.2 ⟨(), t₂, Step.attempt_eq_ok_iff.2 hsubscribed, ?_⟩⟩⟩, rfl⟩
  rw [nextTicket_untraced]
  rfl

omit [FillNumber ν] in
theorem exists_mapM_book_of_untraced {plans : List (BookingRequest.Plan ν)}
    (h : plans.mapM BookingRequest.Plan.book t.untraced = .ok bookings u') :
    ∃ t', plans.mapM BookingRequest.Plan.book t = .ok bookings t' ∧ t'.untraced = u' := by
  induction plans generalizing t bookings with
  | nil =>
    cases h
    exact ⟨t, rfl, rfl⟩
  | cons p plans ih =>
    rw [List.mapM_cons] at h
    obtain ⟨b, u₁, hfirst, h⟩ := Step.bind_eq_ok_iff.1 h
    obtain ⟨rest, u₂, hrest, h⟩ := Step.bind_eq_ok_iff.1 h
    cases h
    obtain ⟨t₁, hbooked, rfl⟩ := exists_bookPlan_of_untraced hfirst
    obtain ⟨t₂, hbookedRest, rfl⟩ := ih hrest
    refine ⟨t₂, ?_, rfl⟩
    rw [List.mapM_cons]
    exact Step.bind_eq_ok_iff.2 ⟨b, t₁, hbooked, Step.bind_eq_ok_iff.2 ⟨rest, t₂, hbookedRest, rfl⟩⟩

/-- A request that goes through does so with calls written down as well. -/
theorem exists_book_of_untraced [Machine]
    (h : EventTable.book registry r t.untraced = .ok bookings u') :
    ∃ t', EventTable.book registry r t = .ok bookings t' ∧ t'.untraced = u' := by
  obtain ⟨plans, u₁, hplan, hbooks⟩ := Step.bind_eq_ok_iff.1 h
  obtain ⟨hplans, rfl⟩ := Step.ask_eq_ok_iff.1 hplan
  obtain ⟨t', hbooks, hforget⟩ := exists_mapM_book_of_untraced hbooks
  exact ⟨t', Step.bind_eq_ok_iff.2 ⟨plans, t, Step.ask_eq_ok_iff.2 ⟨hplans, rfl⟩, hbooks⟩, hforget⟩

end EventTable

end VariHist
