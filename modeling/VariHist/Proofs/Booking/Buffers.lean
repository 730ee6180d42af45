import Mathlib
import VariHist.Proofs.Booking.Recorded
import VariHist.Proofs.Booking.Refused
import VariHist.Proofs.Booking.Results
import VariHist.Proofs.Histogram.Asserted
import VariHist.Proofs.Table.Denotation
import VariHist.Proofs.Table.LifeCycle

/-!
# The buffers of a booked histogram

In an event loop a booked histogram is handed one buffer for each row of a slot that is kept.  How
many values it holds follows from the slices, which were made when the histogram was booked; how it
is cut up follows from the axes of the histogram.  That both agree is not looked at in the event
loop.

* `buffersTo` — the buffers among the calls made to an aggregation.
* `Booking.LaidOut` — the layout of a buffer: a piece for each slice, with the values of its
  columns.
* `Booking.Fed` — all that a histogram is handed is laid out like that, and no assertion fails.
* `Booking.Expects` — the invariant of a booked histogram that waits for its event loop.
* `buffers_of_booked` — any history of a table, and any order in which the slots move.
-/

namespace VariHist

open EventTable HoldsHistograms

variable {α ν : Type}

/-! ## Buffers among calls -/

/-- The buffer that a call hands to a slot. -/
def ActionCall.bufferTo? (slot : Nat) : ActionCall → Option (List Float)
  | toSlot i (.fill values) => if i = slot then some values else none
  | _ => none

/-- The buffers that calls hand to a slot, in order. -/
def buffersTo (slot : Nat) (calls : List ActionCall) : List (List Float) :=
  calls.filterMap (ActionCall.bufferTo? slot)

theorem buffersTo_append (slot : Nat) (calls more : List ActionCall) :
    buffersTo slot (calls ++ more) = buffersTo slot calls ++ buffersTo slot more :=
  List.filterMap_append

theorem mem_buffersTo {slot : Nat} {values : List Float} {calls : List ActionCall}
    (h : .toSlot slot (.fill values) ∈ calls) : values ∈ buffersTo slot calls :=
  List.mem_filterMap.2 ⟨_, h, if_pos rfl⟩

theorem buffersTo_of_prepares {calls : List ActionCall} (h : ∀ c ∈ calls, c.isPrepare = true)
    (slot : Nat) : buffersTo slot calls = [] := by
  refine List.filterMap_eq_nil_iff.2 fun c hc => ?_
  cases c with
  | prepare slots => rfl
  | toSlot slot call => cases h _ hc
  | finish => rfl

/-- The values that a call hands over. -/
def SlotCall.values? : SlotCall → Option (List Float)
  | openSlot => none
  | fill values => some values

theorem buffersTo_made (slot : Nat) (made : List (Nat × SlotCall)) :
    buffersTo slot (made.map fun c => .toSlot c.1 c.2) =
      ((made.filter fun c => c.1 = slot).map Prod.snd).filterMap SlotCall.values? := by
  induction made with
  | nil => rfl
  | cons c made ih =>
    obtain ⟨i, call⟩ := c
    rw [buffersTo] at ih
    rw [buffersTo, List.map_cons, List.filterMap_cons, List.filter_cons, ih]
    by_cases hi : i = slot
    · rw [if_pos (decide_eq_true hi), List.map_cons, List.filterMap_cons]
      cases call with
      | openSlot => rfl
      | fill values => rw [ActionCall.bufferTo?, if_pos hi]; rfl
    · rw [if_neg (by simpa using hi)]
      cases call with
      | openSlot => rfl
      | fill values => rw [ActionCall.bufferTo?, if_neg hi]

/-- In an event loop a slot is handed one buffer for each of its rows that is kept. -/
theorem EventTable.IsLoop.buffersTo_eq [Machine] {t : EventTable α} {column : Nat}
    {calls : List ActionCall} (h : t.IsLoop column calls) (slot : Nat) :
    ∃ rows : List Nat, rows.Pairwise (· < ·) ∧
      (∀ row ∈ rows, row < t.rows ∧ passesOn t.columns t.filters row = true) ∧
      buffersTo slot calls = rows.map fun row => vectorOn t.columns row column := by
  obtain ⟨made, rfl, hslots, hmade⟩ := h
  have hcalls : buffersTo slot (.prepare t.slotCount :: (made.map fun c => .toSlot c.1 c.2) ++
      [.finish]) = ((made.filter fun c => c.1 = slot).map Prod.snd).filterMap SlotCall.values? := by
    rw [← buffersTo_made, buffersTo_append]
    exact List.append_nil _
  by_cases hslot : slot < t.slotCount
  · refine ⟨(RowRange.ofSlot t.rows t.slotCount slot).rows.filter
      (passesOn t.columns t.filters), ?_, fun row hrow => ?_, ?_⟩
    · exact (List.pairwise_lt_range' _).filter _
    · obtain ⟨hrow, hpasses⟩ := List.mem_filter.1 hrow
      exact ⟨mem_rows_ofSlot_lt hslot hrow, hpasses⟩
    · rw [hcalls, hmade slot hslot]
      show List.filterMap SlotCall.values? (List.map _ _) = _
      rw [List.filterMap_map]
      show List.filterMap (some ∘ fun row => vectorOn t.columns row column) _ = _
      rw [List.filterMap_eq_map]
  · refine ⟨[], .nil, by simp, ?_⟩
    rw [hcalls, List.filter_eq_nil_iff.2]
    · rfl
    · intro c hc
      have := hslots c hc
      simp only [decide_eq_true_eq]
      omega

/-! ## The layout of a buffer -/

/-- Pieces of one length are found again where they begin. -/
theorem take_drop_flatMap {β γ : Type} {width : Nat} {f : β → List γ} {l : List β}
    (hl : ∀ b ∈ l, (f b).length = width) {i : Nat} {b : β} (hi : l[i]? = some b) :
    ((l.flatMap f).drop (i * width)).take width = f b := by
  induction l generalizing i with
  | nil => cases hi
  | cons a l ih =>
    obtain ⟨ha, hrest⟩ := List.forall_mem_cons.1 hl
    rw [List.flatMap_cons]
    cases i with
    | zero =>
      obtain rfl := Option.some.inj hi
      rw [Nat.zero_mul, List.drop_zero, List.take_left' ha]
    | succ i => rw [Nat.succ_mul, Nat.add_comm, ← List.drop_drop, List.drop_left' ha, ih hrest hi]

theorem length_flatMap_const {β γ : Type} {width : Nat} {f : β → List γ} {l : List β}
    (hl : ∀ b ∈ l, (f b).length = width) : (l.flatMap f).length = l.length * width := by
  rw [List.length_flatMap, List.map_congr_left hl, List.map_const', List.sum_replicate, smul_eq_mul]

namespace Booking

variable {b : Booking} {u : EventTable α} {row : Nat}

/-- Does the slice read a column for each axis, in the order of the axes, and then the weight?
Each of them is read as it is or under the label of the slice. -/
def InAxisOrder (b : Booking) (s : Slice) : Prop :=
  ∃ shifted : String → Bool, s.columns =
    (b.selection.map BinnedColumn.column ++ [b.observable.column, b.observable.weight]).map
      fun c => if shifted c then labelledColumn c s.label else c

/-- The buffer of a row: a piece for each slice, and in each piece the values of the columns of the
slice on this row. -/
structure LaidOut (b : Booking) (u : EventTable α) (row : Nat) (values : List Float) : Prop where
  length : values.length = b.points * (b.axes.length + 1)
  piece : ∀ (i : Nat) (s : Slice), b.slices[i]? = some s →
    List.Forall₂ (fun c x => ∀ v, u.HasValue row c v ↔ v = .scalar x) s.columns
      ((values.drop (i * (b.axes.length + 1))).take (b.axes.length + 1))

/-- The columns of the slices, lined up, make the buffer of a row. -/
theorem laidOut_numbers (hu : u.WellFormed) (hb : b.ReadsAxes)
    (hscalar : ∀ c ∈ b.slices.flatMap Slice.columns, u.kindOf? c = some .scalar)
    (hrow : row < u.rows) :
    b.LaidOut u row ((b.slices.flatMap Slice.columns).map (u.numberOn row)) := by
  refine ⟨?_, fun i s hi => ?_⟩
  · rw [List.length_map, length_flatMap_const hb, points]
  · rw [← List.map_drop, ← List.map_take, take_drop_flatMap hb hi, List.forall₂_map_right_iff,
      List.forall₂_same]
    intro c hc v
    have hmem : c ∈ b.slices.flatMap Slice.columns :=
      List.mem_flatMap.2 ⟨s, List.mem_of_getElem? hi, hc⟩
    exact hasValue_scalar_iff hu hrow (hscalar c hmem)

/-! ## What a booked histogram is handed -/

/-- What a booked histogram has been handed, where `u` is the table on which it was booked.  Each
slot is handed the buffers of rows that are kept, in order, and no row twice.  With all assertions
made, the calls come to the same from first to last, but adding up asks for bounds that are
numbers. -/
structure Fed [Aggregation α] [FillNumber ν] [HoldsHistograms α ν] (b : Booking)
    (u : EventTable α) (a : Traced α) : Prop where
  buffers : ∀ slot, ∃ rows : List Nat, rows.Pairwise (· < ·) ∧
    (∀ row ∈ rows, row < u.rows ∧ u.Keeps row) ∧
    List.Forall₂ (b.LaidOut u) rows (buffersTo slot a.calls)
  asserted : ∃ g : SlottedHistogram ν, histogram? a.booked = some g ∧
    ∀ before, before <+: a.calls → (.finish ∈ before → BoundsAreNumbers b.axes) → ∃ g',
      g.assertedAll before = some g' ∧ histogram? (Traced.action ⟨a.booked, before⟩) = some g'

variable [Aggregation α] [FillNumber ν] [HoldsHistograms α ν] [LawfulHistograms α ν]
  {a : Traced α} {g : SlottedHistogram ν}

/-- What calls make of a histogram among the aggregations. -/
theorem histogram?_action {x : α} (hx : histogram? x = some g) (calls : List ActionCall) :
    histogram? (Traced.action ⟨x, calls⟩) = some (calls.foldl (fun g c => c.perform g) g) := by
  induction calls generalizing x g with
  | nil => exact hx
  | cons c calls ih =>
    refine ih (x := c.perform x) (g := c.perform g) ?_
    cases c with
    | prepare slots => exact LawfulHistograms.histogram?_prepare slots x g hx
    | toSlot slot call => exact LawfulHistograms.histogram?_perform slot call x g hx
    | finish => exact LawfulHistograms.histogram?_finish x g hx

/-- No assertion fails if all buffers are laid out. -/
theorem Fed.of_buffers (hg : histogram? a.booked = some g) (hover : g.Over b.axes b.points)
    (hbuffers : ∀ slot, ∃ rows : List Nat, rows.Pairwise (· < ·) ∧
      (∀ row ∈ rows, row < u.rows ∧ u.Keeps row) ∧
      List.Forall₂ (b.LaidOut u) rows (buffersTo slot a.calls)) : b.Fed (ν := ν) u a := by
  have hfits : ∀ c ∈ a.calls, c.Fits (b.points * (b.axes.length + 1)) := by
    intro c hc
    cases c with
    | prepare slots => trivial
    | toSlot slot call =>
      cases call with
      | openSlot => trivial
      | fill values =>
        obtain ⟨rows, -, -, hrows⟩ := hbuffers slot
        obtain ⟨row, -, hlaid⟩ := forall₂_exists_of_mem_right hrows (mem_buffersTo hc)
        exact hlaid.length
    | finish => trivial
  exact ⟨hbuffers, g, hg, fun before hbefore hfinish =>
    ⟨_, hover.assertedAll (fun c hc => hfits c (hbefore.subset hc)) hfinish,
      histogram?_action hg before⟩⟩

end Booking

variable [Aggregation α] [FillNumber ν] [HoldsHistograms α ν] [LawfulHistograms α ν]
  {u : EventTable α} {ut tt : EventTable (Traced α)} {registry : Registry} {r : BookingRequest}
  {o : Observable} {p : BookingRequest.Plan ν} {s : Subscription (Traced α)}
  {added : List (Subscription (Traced α))} {bookings : List Booking} {b : Booking}

/-- A planned histogram that was prepared, and then worked through by one event loop or none. -/
theorem fed_of_calls (hu : ut.WellFormed) (hu' : ut.untraced.WellFormed)
    (hplan : r.Planned ut registry o p) (ticket : Nat)
    (hscalar : ∀ c ∈ p.booking.slices.flatMap Slice.columns, ut.kindOf? c = some .scalar)
    {prepares loop : List ActionCall} (hprepares : ∀ c ∈ prepares, c.isPrepare = true)
    (hloop : loop = [] ∨ ∃ (_ : Machine) (v : EventTable (Traced α)), ut.Grows v ∧
      v.Collects p s ∧ v.IsLoop s.column loop) :
    Booking.Fed (ν := ν) { p.booking with ticket } ut.untraced
      ⟨ofHistogram p.histogram, prepares ++ loop⟩ := by
  have hreads := readsAxes_of_planned hplan ticket
  obtain ⟨slots, hmake⟩ := hplan.histogram
  refine .of_buffers (LawfulHistograms.histogram?_ofHistogram p.histogram)
    (SlottedHistogram.Over.make hmake) fun slot => ?_
  rw [buffersTo_append, buffersTo_of_prepares hprepares, List.nil_append]
  rcases hloop with rfl | ⟨machine, v, hgrows, hcollects, hloop⟩
  · exact ⟨[], .nil, by simp, .nil⟩
  · obtain ⟨rows, hpairwise, hrows, hbuffers⟩ := hloop.buffersTo_eq slot
    have hlt : ∀ row ∈ rows, row < ut.rows := fun row hrow => hgrows.rows ▸ (hrows row hrow).1
    refine ⟨rows, hpairwise, fun row hrow => ⟨hlt row hrow, ?_⟩, ?_⟩
    · exact (passesOn_iff hu' (hlt row hrow)).1 (hgrows.passesOn hu (hrows row hrow).2)
    · rw [hbuffers, List.forall₂_map_right_iff, List.forall₂_same]
      intro row hrow
      rw [vectorOn_eq_numbers hu hgrows.toKeepsColumns hplan hcollects row]
      exact Booking.laidOut_numbers hu' hreads hscalar (hlt row hrow)

/-! ## After a histogram was booked -/

/-- The aggregations that are finished after an event loop in which the slots move in some order. -/
def EventTable.finishedAfter [Machine] (v : EventTable α) (order : List Nat) :
    List (Subscription α) :=
  v.finished ++ Subscription.finishAll (v.crew.follow v.plan order).subscriptions

namespace Booking

/-- A booked histogram is handed what it should be: so far, and in an event loop that is made now,
on whatever machine and in whatever order the slots move. -/
structure FedIn (b : Booking) (u : EventTable α) (v : EventTable (Traced α)) : Prop where
  soFar : ∃ a, v.aggregation? b.ticket = some a ∧ b.Fed u a
  inLoop : ∀ [Machine] (order : List Nat), (v.crew.follow v.plan order).Done v.plan →
    ∃ s, (v.finishedAfter order)[b.ticket]? = some s ∧ b.Fed u s.action

/-- A booked histogram waits.  Being prepared any number of times, and then worked through by one
event loop, it is handed what it should be. -/
structure Expects (b : Booking) (u : EventTable α) (v : EventTable (Traced α)) : Prop where
  reachable : v.Reachable
  unfinished : v.finished.length ≤ b.ticket
  subscription : ∃ s, v.subscription? b.ticket = some s ∧
    ∀ prepares loop : List ActionCall, (∀ c ∈ prepares, c.isPrepare = true) →
      (loop = [] ∨ ∃ (_ : Machine) (w : EventTable (Traced α)),
        v.Grows w ∧ w.IsLoop s.column loop) →
        b.Fed u (s.noted (prepares ++ loop)).action

/-- A histogram that was planned and subscribed waits. -/
theorem expects_of_planned (hu : ut.Reachable) (hu' : ut.untraced.WellFormed)
    (hsub : ut.Subscribes tt added) (hplan : r.Planned ut registry o p)
    (hscalar : ∀ c ∈ p.booking.slices.flatMap Slice.columns, ut.kindOf? c = some .scalar)
    (hcollects : tt.Collects p s) {i : Nat} (hi : added[i]? = some s) :
    Expects { p.booking with ticket := ut.nextTicket + i } ut.untraced tt := by
  refine ⟨hsub.reachable hu, hsub.unfinished i, s, by rw [hsub.subscription?, hi], ?_⟩
  intro prepares loop hprepares hloop
  have hnoted : (s.noted (prepares ++ loop)).action =
      ⟨ofHistogram p.histogram, prepares ++ loop⟩ := by
    rw [Subscription.noted, hcollects.action]
    rfl
  rw [hnoted]
  refine fed_of_calls (s := s) hu.wellFormed hu' hplan _ hscalar hprepares (hloop.imp_right ?_)
  rintro ⟨machine, w, hgrows, hloop⟩
  exact ⟨machine, w, hsub.grows.trans hgrows, hcollects.keep hgrows.toKeepsColumns, hloop⟩

omit [LawfulHistograms α ν]

/-- Whatever is done to the table, a histogram has only been prepared, or it has been worked through
by one event loop. -/
theorem Expects.soFar (h : b.Expects u tt) (later : List (Operation (Traced α))) :
    ∃ s, (tt.afterAll later).subscription? b.ticket = some s ∧ b.Fed u s.action := by
  obtain ⟨s, hs, hfed⟩ := h.subscription
  obtain ⟨prepares, hprepares, ⟨-, hwaits⟩ |
    ⟨-, -, machine, waiting, rest, t', loop, -, -, -, hloop, hfinishes⟩⟩ :=
      waits_or_finishes h.reachable h.unfinished hs later
  · refine ⟨_, hwaits, ?_⟩
    rw [← List.append_nil prepares]
    exact hfed prepares [] hprepares (.inl rfl)
  · exact ⟨_, hfinishes,
      hfed prepares loop hprepares (.inr ⟨machine, _, grows_afterAll waiting tt, hloop⟩)⟩

/-- Whatever is done to the table, an event loop does not work through a histogram a second time. -/
theorem Expects.inLoop [machine : Machine] (h : b.Expects u tt)
    (later : List (Operation (Traced α))) {order : List Nat}
    (hd : ((tt.afterAll later).crew.follow (tt.afterAll later).plan order).Done
      (tt.afterAll later).plan) :
    ∃ s, ((tt.afterAll later).finishedAfter order)[b.ticket]? = some s ∧ b.Fed u s.action := by
  rw [finishedAfter]
  by_cases hfinished : b.ticket < (tt.afterAll later).finished.length
  · obtain ⟨s, hs, hfed⟩ := h.soFar later
    rw [subscription?_finished hfinished] at hs
    exact ⟨s, by rw [List.getElem?_append_left hfinished, hs], hfed⟩
  · obtain ⟨s, hs, hfed⟩ := h.subscription
    obtain ⟨prepares, hprepares, ⟨-, hwaits⟩ | ⟨-, hlt, -⟩⟩ :=
      waits_or_finishes h.reachable h.unfinished hs later
    · have hle := not_lt.1 hfinished
      rw [subscription?_pending hle] at hwaits
      obtain ⟨-, hloops⟩ := loopedOver_of_done (h.reachable.afterAll later).wellFormed hd
      obtain ⟨loop, hloop, hmade⟩ := hloops _ _ hwaits
      refine ⟨_, by rw [List.getElem?_append_right hle, hmade], ?_⟩
      rw [noted_noted]
      exact hfed prepares loop hprepares (.inr ⟨machine, _, grows_afterAll later tt, hloop⟩)
    · exact absurd hlt hfinished

theorem Expects.fedIn (h : b.Expects u tt) (later : List (Operation (Traced α))) :
    b.FedIn u (tt.afterAll later) := by
  refine ⟨?_, @fun machine order => h.inLoop later⟩
  obtain ⟨s, hs, hfed⟩ := h.soFar later
  exact ⟨s.action, by rw [aggregation?, ← subscription?, hs, Option.map_some], hfed⟩

end Booking

/-- A histogram is booked on a table, and all calls made to it are written down, which changes
nothing.  Then, whatever is done to the table, in every event loop, on any machine and with any
number of slots, in whatever order these move, all buffers that the histogram is handed are laid out
as it was booked, and none of its assertions fails. -/
theorem buffers_of_booked [Machine] {rows : Nat} {earlier : List (Operation α)} {t : EventTable α}
    (h : EventTable.book registry r (history rows earlier) = .ok bookings t) (hb : b ∈ bookings) :
    ∃ tt : EventTable (Traced α),
      EventTable.book registry r (tracedHistory rows earlier) = .ok bookings tt ∧
      tt.untraced = t ∧ (∀ s ∈ b.slices, b.InAxisOrder s) ∧
      ∀ later : List (Operation α),
        (tt.afterAll (later.map .traced)).untraced = t.afterAll later ∧
        b.FedIn (history rows earlier) (tt.afterAll (later.map .traced)) := by
  rw [← untraced_tracedHistory] at h
  obtain ⟨tt, hbook, rfl⟩ := exists_book_of_untraced h
  obtain ⟨o, p, added, s, i, ho, hplan, hsub, hcollects, hi, rfl⟩ := exists_plan_of_mem hbook hb
  have hwf : (tracedHistory rows earlier).untraced.WellFormed := by
    rw [untraced_tracedHistory]
    exact (Reachable.afterAll (.ofRows rows) earlier).wellFormed
  have hscalar : ∀ c ∈ p.booking.slices.flatMap Slice.columns,
      (tracedHistory rows earlier).kindOf? c = some .scalar := fun c hc =>
    scalar_of_book hbook ho (by rwa [hplan.booking] at hc)
  have hexpects := Booking.expects_of_planned (reachable_tracedHistory rows earlier) hwf hsub hplan
    hscalar hcollects hi
  rw [untraced_tracedHistory] at hexpects
  refine ⟨tt, hbook, rfl, ?_, fun later => ⟨untraced_afterAll later tt, hexpects.fedIn _⟩⟩
  intro s' hs'
  dsimp only at hs'
  rw [hplan.booking] at hs' ⊢
  exact exists_columns_of_mem_fillSlices hs'

section Shift

attribute [local instance] Machine.oneThread

/-- Two events, in which a column and the weight are shifted together. -/
def shiftedEvents : List (Operation (SlottedHistogram Float)) :=
  [.addColumn "idx" #[0, 0], .addColumn "idx_SUp" #[1, 1], .addColumn "x" #[0.5, 1.5],
    .addColumn "w" #[1, 2], .addColumn "w_SUp" #[3, 4]]

/-- The systematic that shifts them. -/
def registryOfShift : Registry :=
  Registry.empty.register "S" ["idx", "w"]

/-- A histogram of `x` with a slice for the shift. -/
def requestWithShift : BookingRequest :=
  ⟨[⟨"h", "x", "x", "w", 2, 0, 2⟩], [⟨"idx", 2, -0.5, 1.5⟩], "sr", [["Nominal", "SUp"]]⟩

/-- Each of two slots is handed the buffer of its event: nominal values, and then those of the
shift. -/
theorem buffers_of_booked_shift :
    ∃ (bookings : List Booking) (t : EventTable (SlottedHistogram Float)) (b : Booking)
      (tt : EventTable (Traced (SlottedHistogram Float))) (a : Traced (SlottedHistogram Float)),
      EventTable.book registryOfShift requestWithShift (history 2 shiftedEvents) =
        .ok bookings t ∧ b ∈ bookings ∧
      EventTable.book registryOfShift requestWithShift (tracedHistory 2 shiftedEvents) =
        .ok bookings tt ∧
      (tt.afterAll [.withThreads 2, .run]).aggregation? b.ticket = some a ∧
      buffersTo 0 a.calls = [[0, 0.5, 1, 1, 0.5, 3]] ∧
      buffersTo 1 a.calls = [[0, 1.5, 2, 1, 1.5, 4]] ∧
      b.Fed (history 2 shiftedEvents) a := by
  have hcheck : (Step.answer (EventTable.book registryOfShift requestWithShift)
      (history 2 shiftedEvents)).toOption.any
        (fun bookings => bookings.any fun b => b.ticket == 0) = true := by decide +kernel
  have hcalls : (((Step.stateAfter (EventTable.book registryOfShift requestWithShift)
      (tracedHistory 2 shiftedEvents)).afterAll [.withThreads 2, .run]).aggregation? 0).any
        (fun a => decide (buffersTo 0 a.calls = [[0, 0.5, 1, 1, 0.5, 3]] ∧
          buffersTo 1 a.calls = [[0, 1.5, 2, 1, 1.5, 4]])) = true := by decide +kernel
  obtain ⟨bookings, hbook, hany⟩ := Step.exists_of_answer_any hcheck
  obtain ⟨b, hb, hticket⟩ := List.any_eq_true.1 hany
  obtain ⟨tt, hbook', -, -, hlater⟩ := buffers_of_booked hbook hb
  obtain ⟨a, ha, hfed⟩ := (hlater [.withThreads 2, .run]).2.soFar
  have haggregation : (tt.afterAll [.withThreads 2, .run]).aggregation? 0 = some a := by
    rwa [beq_iff_eq.1 hticket] at ha
  rw [Step.stateAfter_of_eq_ok hbook', haggregation, Option.any_some, decide_eq_true_eq] at hcalls
  exact ⟨bookings, _, b, tt, a, hbook, hb, hbook', ha, hcalls.1, hcalls.2, hfed⟩

end Shift

end VariHist
