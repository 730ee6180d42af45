import Mathlib
import VariHist.Booking.Book
import VariHist.Proofs.Booking.Keys
import VariHist.Proofs.Table.Values

/-!
# What booking does

* `BookingRequest.Planned` — what is known of a plan; by `plan_eq_ok` every plan of a request that
  goes through has it, and no two spectra share a place.
* `EventTable.Subscribes` — booking adds columns and aggregations to a table and touches nothing.
* `EventTable.Collects` — an aggregation is the histogram of a plan, and collects the columns of its
  slices.
* `mapM_book` — plans are booked one after another, each under the next ticket; by
  `exists_plans_of_book` all of this holds of a request that is booked.
-/

namespace VariHist

theorem mapError_eq_ok_iff {ε ε' β : Type} {f : ε → ε'} {x : Except ε β} {b : β} :
    x.mapError f = .ok b ↔ x = .ok b := by
  cases x with
  | error e => simp [Except.mapError]
  | ok b' => simp [Except.mapError]

theorem mapError_eq_error_iff {ε ε' β : Type} {f : ε → ε'} {x : Except ε β} {e : ε'} :
    x.mapError f = .error e ↔ ∃ d, x = .error d ∧ e = f d := by
  cases x with
  | error d => simp [Except.mapError, eq_comm]
  | ok b => simp [Except.mapError]

/-- A check before the rest has to pass. -/
theorem guard_eq_ok_iff {ε β : Type} {c : Prop} [Decidable c] {e : ε} {rest : Unit → Except ε β}
    {b : β} : (if c then throw e >>= rest else rest ()) = .ok b ↔ ¬c ∧ rest () = .ok b := by
  by_cases h : c
  · simp [h, throw, throwThe, MonadExceptOf.throw, bind, Except.bind]
  · simp [h]

variable {α ν : Type} {t t' t'' : EventTable α}
  {registry : Registry} {r : BookingRequest} {o : Observable}

/-! ## Plans -/

namespace BookingRequest

/-- The booking that is planned for an observable. -/
def bookingOf (r : BookingRequest) (registry : Registry) (o : Observable) : Booking :=
  ⟨o.name ++ "." ++ r.suffix, o, r.selection, r.catalogs,
    fillSlices registry (r.columnsOf o) r.variations, 0⟩

/-- What is known of the plan of an observable. -/
structure Planned (r : BookingRequest) (t : EventTable α) (registry : Registry) (o : Observable)
    (p : Plan ν) : Prop where
  booking : p.booking = r.bookingOf registry o
  columns : ∀ c ∈ p.booking.slices.flatMap Slice.columns, t.idOf? c ≠ none
  histogram : ∃ slots, SlottedHistogram.make p.booking.name p.booking.axes
    p.booking.slices.length slots = .ok p.histogram

theorem checkColumns_eq_ok_iff {columns : List String} :
    checkColumns t columns = .ok () ↔ ∀ c ∈ columns, t.idOf? c ≠ none := by
  unfold checkColumns
  cases hfind : columns.find? fun c => !t.hasColumn c with
  | none =>
    simp only [true_iff]
    intro c hc hid
    have := List.find?_eq_none.1 hfind c hc
    rw [EventTable.hasColumn_eq_false_iff.2 hid] at this
    exact this rfl
  | some missing =>
    refine iff_of_false (by simp) fun h => ?_
    have hmissing := List.find?_some hfind
    refine h missing (List.mem_of_find?_eq_some hfind) (EventTable.hasColumn_eq_false_iff.1 ?_)
    simpa using hmissing

theorem planOne_eq_ok [Machine] {planned : List String} {p : Plan ν}
    (h : r.planOne t registry planned o = .ok p) : r.Planned t registry o p := by
  unfold planOne at h
  obtain ⟨-, h⟩ := guard_eq_ok_iff.1 h
  obtain ⟨⟨⟩, hcolumns, h⟩ := bind_except_eq_ok_iff.1 h
  obtain ⟨histogram, hmake, h⟩ := bind_except_eq_ok_iff.1 h
  cases h
  exact ⟨rfl, checkColumns_eq_ok_iff.1 hcolumns, t.slotCount, mapError_eq_ok_iff.1 hmake⟩

theorem planAll_eq_ok [Machine] {observables done : List Observable} {plans plans' : List (Plan ν)}
    (hdone : List.Forall₂ (r.Planned t registry) done plans)
    (h : observables.foldlM (m := Except Error) (fun (plans : List (Plan ν)) o => do
      return plans ++ [← r.planOne t registry (plans.map Plan.fillColumn) o]) plans = .ok plans') :
    List.Forall₂ (r.Planned t registry) (done ++ observables) plans' := by
  induction observables generalizing done plans with
  | nil =>
    cases h
    rwa [List.append_nil]
  | cons o observables ih =>
    rw [List.foldlM_cons, bind_except_eq_ok_iff] at h
    obtain ⟨more, hfirst, hrest⟩ := h
    obtain ⟨p, hp, hmore⟩ := bind_except_eq_ok_iff.1 hfirst
    cases hmore
    rw [List.append_cons]
    exact ih (List.rel_append hdone (.cons (planOne_eq_ok hp) .nil)) hrest

/-- What is known of a request whose plans go through. -/
theorem plan_eq_ok [Machine] {plans : List (Plan ν)} (h : r.plan t registry = .ok plans) :
    r.checkShape = .ok () ∧ List.Forall₂ (r.Planned t registry) r.observables plans ∧
      (plans.flatMap fun p => p.booking.outputKeys).Nodup := by
  obtain ⟨⟨⟩, hcheck, h⟩ := bind_except_eq_ok_iff.1 h
  obtain ⟨plans', hplans, h⟩ := bind_except_eq_ok_iff.1 h
  obtain ⟨⟨⟩, hkeys, h⟩ := bind_except_eq_ok_iff.1 h
  cases h
  obtain ⟨⟨⟩, hshape, -⟩ := bind_except_eq_ok_iff.1 hcheck
  have hnd := nodup_outputKeys (mapError_eq_ok_iff.1 hkeys)
  rw [List.flatMap_map] at hnd
  exact ⟨mapError_eq_ok_iff.1 hshape, planAll_eq_ok .nil hplans, hnd⟩

/-- The shape of a request that is checked: there are catalogs, one for each selection axis and with
a label for each bin, and the variations can be told. -/
structure Shaped (r : BookingRequest) : Prop where
  catalogs : r.catalogs ≠ []
  sizes : List.Forall₂ (fun (c : BinnedColumn) (labels : List String) =>
    labels.length = c.bins.toNat) r.selection r.catalogs
  variations : ∀ label ∈ r.variations, isWellFormedLabel label = true

theorem checkShape_eq_ok (h : r.checkShape = .ok ()) : r.Shaped := by
  unfold checkShape at h
  obtain ⟨hcatalogs, h⟩ := guard_eq_ok_iff.1 h
  obtain ⟨-, h⟩ := guard_eq_ok_iff.1 h
  obtain ⟨hlength, h⟩ := guard_eq_ok_iff.1 h
  obtain ⟨⟨⟩, hsizes, h⟩ := bind_except_eq_ok_iff.1 h
  refine ⟨by simpa using hcatalogs, List.forall₂_iff_zip.2 ⟨(not_not.1 hlength).symm, ?_⟩, ?_⟩
  · intro c labels he
    have := forM_except_eq_ok_iff.1 hsizes (c, labels) he
    dsimp only at this
    split_ifs at this with hsize
    exact hsize
  · intro label hl
    cases hfind : r.variations.find? fun label => !isWellFormedLabel label with
    | some label => rw [hfind] at h; cases h
    | none => simpa using List.find?_eq_none.1 hfind label hl

end BookingRequest

/-! ## Tables with booked histograms -/

namespace EventTable

/-- Columns and aggregations are added at the end, and none is touched. -/
structure Subscribes (t t' : EventTable α) (added : List (Subscription α)) : Prop extends
    KeepsColumns t t' where
  rows : t'.rows = t.rows
  threads : t'.threads = t.threads
  filters : t'.filters = t.filters
  finished : t'.finished = t.finished
  pending : t'.pending = t.pending ++ added
  reachable : ∀ [Aggregation α], t.Reachable → t'.Reachable

theorem Subscribes.refl (t : EventTable α) : t.Subscribes t [] :=
  ⟨.refl t, rfl, rfl, rfl, rfl, (List.append_nil _).symm, fun h => h⟩

theorem Subscribes.trans {added more : List (Subscription α)} (h : t.Subscribes t' added)
    (h' : t'.Subscribes t'' more) : t.Subscribes t'' (added ++ more) where
  toKeepsColumns := h.toKeepsColumns.trans h'.toKeepsColumns
  rows := h'.rows.trans h.rows
  threads := h'.threads.trans h.threads
  filters := h'.filters.trans h.filters
  finished := h'.finished.trans h.finished
  pending := by rw [h'.pending, h.pending, List.append_assoc]
  reachable ht := h'.reachable (h.reachable ht)

variable [HoldsHistograms α ν] {p : BookingRequest.Plan ν}

/-- The aggregation is the histogram of a plan, and collects the columns of its slices, lined up. -/
structure Collects (t : EventTable α) (p : BookingRequest.Plan ν) (s : Subscription α) : Prop where
  action : s.action = HoldsHistograms.ofHistogram p.histogram
  column : ∃ ids, t.columns[s.column]? = some ⟨p.fillColumn, .derived ids .concat⟩ ∧
    List.Forall₂ (fun c i => t.idOfKind .scalar c = .ok i)
      (p.booking.slices.flatMap Slice.columns) ids

theorem Collects.keep {s : Subscription α} (h : t.Collects p s) (hk : t.KeepsColumns t') :
    t'.Collects p s := by
  obtain ⟨ids, hcol, hids⟩ := h.column
  exact ⟨h.action, ids, hk.column _ _ hcol, hids.imp fun _ _ hi => hk.idOfKind hi⟩

/-- Booking a plan subscribes its histogram. -/
theorem book_eq_ok {b : Booking} (h : p.book t = .ok b t') :
    ∃ s, t.Subscribes t' [s] ∧ t'.Collects p s ∧ b = { p.booking with ticket := t.nextTicket } := by
  unfold BookingRequest.Plan.book at h
  obtain ⟨⟨⟩, t₁, hfirst, hrest⟩ := Step.bind_eq_ok_iff.1 h
  obtain ⟨ticket, t₂, hticket, hlast⟩ := Step.bind_eq_ok_iff.1 hrest
  obtain ⟨⟨⟩, t₃, hsecond, hanswer⟩ := Step.bind_eq_ok_iff.1 hlast
  have hdefine := Step.attempt_eq_ok_iff.1 hfirst
  have hsubscribe := Step.attempt_eq_ok_iff.1 hsecond
  cases hticket
  cases hanswer
  obtain ⟨hname, ids, hids, rfl⟩ := defineColumn_eq_ok_iff.1 hdefine
  obtain ⟨id, hid, heq⟩ := subscribe_eq_ok_iff.1 hsubscribe
  have hkeeps : t.KeepsColumns _ := KeepsColumns.push ⟨p.fillColumn, .derived ids .concat⟩
  obtain rfl : t.columns.size = id := by
    have hid := (idOfKind_eq_ok_iff.1 hid).1
    rw [idOf?_push, hname, Option.none_or, if_pos rfl] at hid
    exact Option.some.inj hid
  have hadds : t.Subscribes t' [⟨t.columns.size, HoldsHistograms.ofHistogram p.histogram⟩] := by
    have hreachable : ∀ [Aggregation α], t.Reachable → t'.Reachable :=
      fun ht => (ht.defineColumn _ _ _ hdefine).subscribe _ _ hsubscribe
    subst heq
    exact ⟨⟨hkeeps.idOf?, hkeeps.column⟩, rfl, rfl, rfl, rfl, rfl, hreachable⟩
  refine ⟨_, hadds, ⟨rfl, ids, ?_, hids.imp fun _ _ hi => hadds.idOfKind hi⟩, rfl⟩
  rw [heq]
  exact Array.getElem?_push_size

/-- Plans are booked one after another, each under the next ticket.  The induction is on the list of
plans. -/
theorem mapM_book {plans : List (BookingRequest.Plan ν)} {bookings : List Booking}
    (h : plans.mapM BookingRequest.Plan.book t = .ok bookings t') :
    ∃ added, t.Subscribes t' added ∧ List.Forall₂ (t'.Collects ·) plans added ∧
      bookings = plans.zipIdx.map fun (p, i) =>
        { p.booking with ticket := t.nextTicket + i } := by
  induction plans generalizing t bookings with
  | nil =>
    cases h
    exact ⟨[], .refl _, .nil, rfl⟩
  | cons p plans ih =>
    rw [List.mapM_cons] at h
    obtain ⟨b, t₁, hfirst, h⟩ := Step.bind_eq_ok_iff.1 h
    obtain ⟨rest, t₂, hrest, h⟩ := Step.bind_eq_ok_iff.1 h
    cases h
    obtain ⟨s, hs, hcollects, rfl⟩ := book_eq_ok hfirst
    obtain ⟨added, hadded, hall, rfl⟩ := ih hrest
    have hnext : t₁.nextTicket = t.nextTicket + 1 := by
      rw [nextTicket, nextTicket, hs.finished, hs.pending, List.length_append]
      rfl
    refine ⟨s :: added, hs.trans hadded, .cons (hcollects.keep hadded.toKeepsColumns) hall, ?_⟩
    rw [List.zipIdx_cons', List.map_cons, List.map_map, hnext]
    refine congrArg (List.cons _) (List.map_congr_left fun e _ => ?_)
    change { e.1.booking with ticket := t.nextTicket + 1 + e.2 } =
      { e.1.booking with ticket := t.nextTicket + (e.2 + 1) }
    rw [Nat.add_assoc, Nat.add_comm 1]

/-- When a request is booked, its histograms are planned on the table and the registry, and each of
them is subscribed to the columns of its slices. -/
theorem exists_plans_of_book [FillNumber ν] [Machine] {bookings : List Booking}
    (h : EventTable.book registry r t = .ok bookings t') :
    ∃ (plans : List (BookingRequest.Plan ν)) (added : List (Subscription α)),
      r.checkShape = .ok () ∧ List.Forall₂ (r.Planned t registry) r.observables plans ∧
      (plans.flatMap fun p => p.booking.outputKeys).Nodup ∧ t.Subscribes t' added ∧
      List.Forall₂ (t'.Collects ·) plans added ∧
      bookings = plans.zipIdx.map fun (p, i) =>
        { p.booking with ticket := t.nextTicket + i } := by
  obtain ⟨plans, u, hplan, hbooks⟩ := Step.bind_eq_ok_iff.1 h
  obtain ⟨hplans, rfl⟩ := Step.ask_eq_ok_iff.1 hplan
  obtain ⟨added, hsubscribes, hcollects, rfl⟩ := mapM_book hbooks
  obtain ⟨hshape, hplanned, hkeys⟩ := BookingRequest.plan_eq_ok hplans
  exact ⟨plans, added, hshape, hplanned, hkeys, hsubscribes, hcollects, rfl⟩

end EventTable

end VariHist
