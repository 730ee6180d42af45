import Mathlib
import VariHist.Booking.Basic
import VariHist.Proofs.Histogram.Collected
import VariHist.Proofs.Table.Traced

/-!
# The life of an aggregation

An aggregation is booked, waits through any number of event loops that fail, is worked through and
finished by the first one that succeeds, and is never touched again.

* `IsLoop` — the calls of one event loop: the slots are prepared, each slot opens the aggregation
  and fills it with its rows, and then it is finished.
* `RefusedBy`, `CompletedBy` — what a failing and a successful event loop leave behind; one fails
  for want of workers (`WithoutPool`) or at a number of slots (`OutOfStep`).
* `waits_or_finishes` — the induction over everything that happens after an aggregation is booked.
* `life_cycle` — any history of a table.
-/

namespace VariHist

open Aggregation

variable {α : Type} [Aggregation α]

namespace EventTable

/-! ## One event loop -/

/-- The calls of one event loop to the aggregation of a column: its slots are prepared, each slot
opens it and then fills it with the values on its rows that pass the filters, and after all of them
it is finished. -/
def IsLoop [Machine] (t : EventTable α) (column : Nat) (calls : List ActionCall) : Prop :=
  ∃ made : List (Nat × SlotCall),
    calls = .prepare t.slotCount :: (made.map fun c => .toSlot c.1 c.2) ++ [.finish] ∧
    (∀ c ∈ made, c.1 < t.slotCount) ∧
    ∀ slot < t.slotCount, ((made.filter fun c => c.1 = slot).map Prod.snd) =
      .openSlot :: ((RowRange.ofSlot t.rows t.slotCount slot).rows.filter
        (passesOn t.columns t.filters)).map fun row => .fill (vectorOn t.columns row column)

/-- The workers of an event loop cannot be started.  No aggregation is called, and the table stays
as it was. -/
structure WithoutPool [Machine] (t : EventTable (Traced α)) (fault : Error)
    (t' : EventTable (Traced α)) : Prop where
  pending : t.pending ≠ []
  reason : ∃ reason, Machine.poolFault? t.slotCount = some reason ∧
    fault = .computation (.noPool reason)
  unchanged : t' = t

/-- An aggregation makes another number of slots than the event loop asks for.  It and those before
it have prepared slots, and nothing else is done. -/
structure OutOfStep [Machine] (t : EventTable (Traced α)) (fault : Error)
    (t' : EventTable (Traced α)) : Prop where
  pool : t.HasPool
  mismatch : ∃ before s after, t.pending = before ++ s :: after ∧
    (∀ r ∈ before, Aggregation.slotCount (prepare t.slotCount r.action) = t.slotCount) ∧
    Aggregation.slotCount (prepare t.slotCount s.action) ≠ t.slotCount ∧
    fault = slotFault t.slotCount s ∧
    t' = { t with pending :=
      (before ++ [s]).map (Subscription.noted · [.prepare t.slotCount]) ++ after }

/-- What an event loop leaves behind that fails. -/
def RefusedBy [Machine] (t : EventTable (Traced α)) (fault : Error)
    (t' : EventTable (Traced α)) : Prop :=
  t.WithoutPool fault t' ∨ t.OutOfStep fault t'

/-- One event loop was made over all pending aggregations. -/
def LoopedOver [Machine] (t : EventTable (Traced α)) (made : List (Subscription (Traced α))) :
    Prop :=
  made.length = t.pending.length ∧
  ∀ (k : Nat) (s : Subscription (Traced α)), t.pending[k]? = some s → ∃ calls,
    t.IsLoop s.column calls ∧
      made[k]? = some (s.noted calls)

/-- An event loop that succeeds does nothing if nothing is pending.  Otherwise it finishes all that
is pending, and does so in whatever order the workers of the slots move. -/
def CompletedBy [Machine] (t t' : EventTable (Traced α)) : Prop :=
  (t.pending = [] → t' = t) ∧
  (t.pending ≠ [] → t'.pending = [] ∧ t'.runs = t.runs + 1 ∧
    ∃ made, t'.finished = t.finished ++ made ∧ t.LoopedOver made) ∧
  ∀ order, (t.crew.follow t.plan order).Done t.plan →
    t.LoopedOver (Subscription.finishAll (t.crew.follow t.plan order).subscriptions)

variable {t t' : EventTable (Traced α)}

omit [Aggregation α] in
theorem filter_callsOn (crew : Crew α) (slot k : Nat) :
    ((callsOn k crew.log).filter fun c => c.1 = slot).map Prod.snd = crew.callsOf slot k := by
  rw [Crew.callsOf, callsOn, List.filter_map, List.map_map, List.filter_filter, List.filter_filter]
  refine congrArg (List.map LoggedCall.call) (List.filter_congr fun e _ => ?_)
  rw [Bool.and_comm]
  rfl

/-- Each slot has opened an aggregation and then filled it with its rows. -/
theorem callsOf_of_done [Machine] (ht : t.WellFormed) {order : List Nat}
    (hd : (t.crew.follow t.plan order).Done t.plan) {slot : Nat} (hslot : slot < t.slotCount)
    {k : Nat} {s : Subscription (Traced α)} (hs : t.pending[k]? = some s) :
    (t.crew.follow t.plan order).callsOf slot k =
      .openSlot :: ((RowRange.ofSlot t.rows t.slotCount slot).rows.filter
        (passesOn t.columns t.filters)).map fun row => .fill (vectorOn t.columns row s.column) := by
  have hwanted : (t.pending.map Subscription.column)[k]? = some s.column := by
    rw [List.getElem?_map, hs, Option.map_some]
  have hr : (RowRange.split t.rows t.slotCount)[slot]? =
      some (RowRange.ofSlot t.rows t.slotCount slot) := RowRange.getElem?_split t.rows hslot
  have hprogress := (Crew.Progress.start t.plan (RowRange.split t.rows t.slotCount)
    t.prepared).follow order
  refine (hprogress.callsOf_of_done hd hr k).trans ?_
  exact LoopPlan.callsTo_callsOf ht.inputs ht.filters (fun id hid => by
    obtain ⟨s, hs, rfl⟩ := List.mem_map.1 hid
    exact ht.subscriptions s hs) hwanted _

/-- Whatever the order in which the workers moved, once they are done one event loop was made. -/
theorem loopedOver_of_done [Machine] (ht : t.WellFormed) {order : List Nat}
    (hd : (t.crew.follow t.plan order).Done t.plan) :
    t.LoopedOver (Subscription.finishAll (t.crew.follow t.plan order).subscriptions) := by
  have hprogress := (Crew.Progress.start t.plan (RowRange.split t.rows t.slotCount)
    t.prepared).follow order
  have hsubs : (t.crew.follow t.plan order).subscriptions =
      performAll t.prepared (t.crew.follow t.plan order).log := hprogress.subscriptions
  rw [hsubs]
  refine ⟨?_, fun k s hs => ?_⟩
  · rw [Subscription.finishAll, List.length_map,
      ← List.length_map (f := Subscription.column), Subscription.columns_performAll,
      List.length_map, prepared, List.length_map]
  · refine ⟨_, ⟨callsOn k (t.crew.follow t.plan order).log, rfl, ?_, fun slot hslot => ?_⟩, ?_⟩
    · intro c hc
      obtain ⟨e, he, rfl⟩ := List.mem_map.1 hc
      have hlt := hprogress.slots e (List.mem_filter.1 he).1
      rwa [RowRange.split, List.length_map, List.length_range] at hlt
    · rw [filter_callsOn, callsOf_of_done ht hd hslot hs]
    · rw [Subscription.finishAll, List.getElem?_map, getElem?_performAll, prepared,
        List.getElem?_map, hs, Option.map_some, Option.map_some, Option.map_some,
        Traced.driven_eq]
      show some (Subscription.mk _ (Traced.mk _ _)) = some (Subscription.mk _ (Traced.mk _ _))
      simp [Aggregation.prepare, Traced.note]

/-- The event loop works through the slots one after another, which is one way to move. -/
theorem exists_order [Machine] (t : EventTable (Traced α)) :
    ∃ order, (t.crew.follow t.plan order).Done t.plan ∧
      t.process t.prepared = (t.crew.follow t.plan order).subscriptions := by
  have hstart := Crew.Progress.start t.plan (RowRange.split t.rows t.slotCount) t.prepared
  obtain ⟨order, -, hdone, hsubs⟩ :=
    Crew.exists_serial t.plan (RowRange.split t.rows t.slotCount) 0 t.crew
      (by rw [crew, hstart.workers, Nat.zero_add])
      (fun i => by
        rw [Nat.zero_add]
        exact List.getElem?_map)
  refine ⟨order, fun w hw => ?_, ?_⟩
  · obtain ⟨i, hi⟩ := List.mem_iff_getElem?.1 hw
    exact hdone i w (Nat.zero_le i) hi
  · rw [hsubs, process_eq t.columns_prepared]
    rfl

/-- The event loop fails, or it succeeds. -/
theorem refusedBy_or_completedBy [Machine] (ht : t.WellFormed) :
    (∃ fault t', run t = .error fault t' ∧ t.RefusedBy fault t') ∨
      ∃ t', run t = .ok () t' ∧ t.CompletedBy t' := by
  rcases run_cases t with ⟨hp, h⟩ | ⟨reason, hp, hpool, h⟩ |
    ⟨before, s, after, hpending, hpool, hbefore, hs, h⟩ | ⟨hp, -, -, h⟩
  · exact Or.inr ⟨t, h, fun _ => rfl, fun hne => absurd hp hne, fun order => loopedOver_of_done ht⟩
  · exact Or.inl ⟨_, t, h, .inl ⟨hp, ⟨reason, hpool, rfl⟩, rfl⟩⟩
  · exact Or.inl ⟨_, _, h, .inr ⟨fun _ => hpool, before, s, after, hpending, hbefore, hs, rfl, rfl⟩⟩
  · obtain ⟨order, hd, hprocess⟩ := exists_order t
    refine Or.inr ⟨_, h, fun hnil => absurd hnil hp, fun _ => ⟨rfl, rfl, ?_⟩,
      fun order => loopedOver_of_done ht⟩
    rw [hprocess]
    exact ⟨_, rfl, loopedOver_of_done ht hd⟩

theorem refusedBy_of_run [Machine] (ht : t.WellFormed) {fault : Error}
    (h : run t = .error fault t') : t.RefusedBy fault t' := by
  rcases refusedBy_or_completedBy ht with ⟨fault', u, hu, hrefused⟩ | ⟨u, hu, -⟩
  · rw [h] at hu
    cases hu
    exact hrefused
  · rw [h] at hu
    cases hu

theorem completedBy_of_run [Machine] (ht : t.WellFormed) (h : run t = .ok () t') :
    t.CompletedBy t' := by
  rcases refusedBy_or_completedBy ht with ⟨fault', u, hu, -⟩ | ⟨u, hu, hcompleted⟩
  · rw [h] at hu
    cases hu
  · rw [h] at hu
    cases hu
    exact hcompleted

/-! ## Waiting -/

variable {k : Nat} {s : Subscription (Traced α)}

omit [Aggregation α] in
theorem noted_nil (s : Subscription (Traced α)) : s.noted [] = s := by
  rw [Subscription.noted, List.append_nil]

omit [Aggregation α] in
theorem noted_noted (s : Subscription (Traced α)) (calls more : List ActionCall) :
    (s.noted calls).noted more = s.noted (calls ++ more) := by
  rw [Subscription.noted, Subscription.noted, Subscription.noted, List.append_assoc]

/-- An event loop that fails prepares a waiting subscription at most. -/
theorem RefusedBy.noted [Machine] {fault : Error} (h : t.RefusedBy fault t')
    (hk : t.finished.length ≤ k) (hs : t.subscription? k = some s) :
    t'.runs = t.runs ∧ t'.finished.length ≤ k ∧ ∃ prepares : List ActionCall,
      (∀ c ∈ prepares, c.isPrepare = true) ∧ t'.subscription? k = some (s.noted prepares) := by
  rcases h with ⟨-, -, rfl⟩ | ⟨-, before, s', after, hsplit, -, -, -, ht'⟩
  · exact ⟨rfl, hk, [], by simp, by rw [hs, noted_nil]⟩
  have hfinished : t'.finished = t.finished := by rw [ht']
  have hpending : t'.pending =
      (before ++ [s']).map (Subscription.noted · [.prepare t.slotCount]) ++ after := by rw [ht']
  have hk' : t'.finished.length ≤ k := hfinished ▸ hk
  refine ⟨by rw [ht'], hk', ?_⟩
  rw [subscription?_pending hk, hsplit] at hs
  rw [subscription?_pending hk', hfinished, hpending]
  rcases getElem?_map_append (f := (Subscription.noted · [.prepare t.slotCount])) hs with
    hprepared | hkept
  · exact ⟨[.prepare t.slotCount], by simp [ActionCall.isPrepare], hprepared⟩
  · exact ⟨[], by simp, by rw [hkept, noted_nil]⟩

/-- An event loop that succeeds finishes a waiting subscription. -/
theorem CompletedBy.noted [Machine] (h : t.CompletedBy t') (hk : t.finished.length ≤ k)
    (hs : t.subscription? k = some s) :
    t'.runs = t.runs + 1 ∧ k < t'.finished.length ∧ ∃ loop, t.IsLoop s.column loop ∧
      t'.subscription? k = some (s.noted loop) := by
  rw [subscription?_pending hk] at hs
  have hne : t.pending ≠ [] := by
    intro hnil
    rw [hnil] at hs
    cases hs
  obtain ⟨-, hruns, made, hmade, hlength, hloops⟩ := h.2.1 hne
  obtain ⟨loop, hloop, hget⟩ := hloops _ s hs
  have hlt : k < t'.finished.length := by
    have hbound := (List.getElem?_eq_some_iff.1 hget).1
    rw [hmade, List.length_append]
    omega
  refine ⟨hruns, hlt, loop, hloop, ?_⟩
  rw [subscription?_finished hlt, hmade, List.getElem?_append_right hk, hget]

/-- What one operation does to a subscription that waits: it prepares slots of it at most, or it is
a successful event loop and finishes it. -/
theorem noted_carryOut (ht : t.WellFormed) (hk : t.finished.length ≤ k)
    (hs : t.subscription? k = some s) (op : Operation (Traced α)) :
    ((op.carryOut t).runs = t.runs ∧ (op.carryOut t).finished.length ≤ k ∧
      ∃ prepares : List ActionCall, (∀ c ∈ prepares, c.isPrepare = true) ∧
        (op.carryOut t).subscription? k = some (s.noted prepares)) ∨
    (∃ _ : Machine, op = .run ∧ (∃ t', run t = .ok () t') ∧
      (op.carryOut t).runs = t.runs + 1 ∧ k < (op.carryOut t).finished.length ∧
      ∃ loop, t.IsLoop s.column loop ∧
        (op.carryOut t).subscription? k = some (s.noted loop)) := by
  rcases books_carryOut op t with ⟨machine, rfl⟩ | hbooks
  · rcases refusedBy_or_completedBy ht with ⟨fault, t', h, hrefused⟩ | ⟨t', h, hcompleted⟩
    · rw [show Operation.carryOut t .run = t' from Step.stateAfter_of_eq_error h]
      exact Or.inl (hrefused.noted hk hs)
    · rw [show Operation.carryOut t .run = t' from Step.stateAfter_of_eq_ok h]
      exact Or.inr ⟨machine, rfl, ⟨t', h⟩, hcompleted.noted hk hs⟩
  · obtain ⟨hruns, hk', hs'⟩ := hbooks.subscription? hk hs
    exact Or.inl ⟨hruns, hk', [], by simp, by rw [hs', noted_nil]⟩

/-- A subscription that waits is prepared at most until an event loop succeeds.  The first one that
does so finishes it. -/
theorem waits_or_finishes (ht : t.Reachable) (hk : t.finished.length ≤ k)
    (hs : t.subscription? k = some s) (later : List (Operation (Traced α))) :
    ∃ prepares : List ActionCall, (∀ c ∈ prepares, c.isPrepare = true) ∧
      (((t.afterAll later).runs = t.runs ∧
        (t.afterAll later).subscription? k = some (s.noted prepares)) ∨
      ((t.afterAll later).runs ≠ t.runs ∧ k < (t.afterAll later).finished.length ∧
        ∃ (_ : Machine) (waiting rest : List (Operation (Traced α))) (t' : EventTable (Traced α))
          (loop : List ActionCall), later = waiting ++ .run :: rest ∧
          (t.afterAll waiting).runs = t.runs ∧ run (t.afterAll waiting) = .ok () t' ∧
          (t.afterAll waiting).IsLoop s.column loop ∧
          (t.afterAll later).subscription? k = some (s.noted (prepares ++ loop)))) := by
  induction later generalizing t s with
  | nil => exact ⟨[], by simp, Or.inl ⟨rfl, by rw [noted_nil]; exact hs⟩⟩
  | cons op later ih =>
    rcases noted_carryOut ht.wellFormed hk hs op with ⟨hruns, hk', first, hfirst, hs'⟩ |
      ⟨machine, rfl, ⟨t', hrun⟩, hruns, hlt, loop, hloop, hs'⟩
    · obtain ⟨prepares, hprepares, hrest⟩ := ih (ht.carryOut op) hk' hs'
      refine ⟨first ++ prepares, fun c hc => ?_, ?_⟩
      · rcases List.mem_append.1 hc with hc | hc
        · exact hfirst c hc
        · exact hprepares c hc
      · rw [hruns, noted_noted] at hrest
        rcases hrest with ⟨hsame, hwaits⟩ | ⟨hdiffer, hlt, machine, waiting, rest, t', loop, rfl,
          hwaiting, hrun, hloop, hfinishes⟩
        · exact Or.inl ⟨hsame, hwaits⟩
        · refine Or.inr ⟨hdiffer, hlt, machine, op :: waiting, rest, t', loop, rfl, hwaiting, hrun,
            hloop, ?_⟩
          rw [noted_noted, ← List.append_assoc] at hfinishes
          exact hfinishes
    · -- the event loop succeeds, and nothing that comes later touches the subscription
      obtain ⟨⟨made, hmade⟩, hmore⟩ := finished_afterAll later (Operation.carryOut t .run)
      refine ⟨[], by simp, Or.inr ⟨?_, ?_, machine, [], later, t', loop, rfl, rfl, hrun, hloop,
        ?_⟩⟩
      · show (afterAll (Operation.carryOut t .run) later).runs ≠ t.runs
        omega
      · show k < (afterAll (Operation.carryOut t .run) later).finished.length
        rw [hmade, List.length_append]
        omega
      · exact (subscription?_afterAll hlt later).trans hs'

/-! ## Histograms -/

section Histograms

variable {ν : Type} [FillNumber ν] [HoldsHistograms α ν] [LawfulHistograms α ν]

open HoldsHistograms

theorem histogram?_perform {a : α} {s : SlottedHistogram ν} (h : histogram? a = some s)
    (c : ActionCall) : ∃ s', histogram? (c.perform a) = some s' ∧
      (c.isFinish = false → s'.result = s.result) := by
  cases c with
  | prepare slots =>
    exact ⟨_, LawfulHistograms.histogram?_prepare slots a s h, fun _ => rfl⟩
  | toSlot slot call =>
    refine ⟨_, LawfulHistograms.histogram?_perform slot call a s h, fun _ => ?_⟩
    cases call with
    | openSlot => rfl
    | fill values => rfl
  | finish =>
    refine ⟨_, LawfulHistograms.histogram?_finish a s h, fun hc => ?_⟩
    cases hc

/-- Before it is finished, a histogram has the result that it was booked with. -/
theorem result_of_unfinished {a : Traced α} {s : SlottedHistogram ν}
    (h : histogram? a.booked = some s) (hcalls : ∀ c ∈ a.calls, c.isFinish = false) :
    ∃ s', histogram? a.action = some s' ∧ s'.result = s.result := by
  obtain ⟨booked, calls⟩ := a
  induction calls using List.reverseRecOn with
  | nil => exact ⟨s, h, rfl⟩
  | append_singleton calls c ih =>
    obtain ⟨s', hs', hresult⟩ := ih h fun c hc => hcalls c (List.mem_append_left _ hc)
    obtain ⟨s'', hs'', hlast⟩ := histogram?_perform hs' c
    refine ⟨s'', ?_, (hlast (hcalls c (List.mem_append_right _ List.mem_cons_self))).trans hresult⟩
    exact (congrArg histogram? (Traced.action_note c ⟨booked, calls⟩)).trans hs''

/-- Once it is finished, a histogram has a result. -/
theorem result_of_finished {a : Traced α} {calls : List ActionCall} {s : SlottedHistogram ν}
    (h : histogram? a.booked = some s) (ha : a.calls = calls ++ [.finish])
    (hcalls : ∀ c ∈ calls, c.isFinish = false) :
    ∃ s' r, histogram? a.action = some s' ∧ s'.result = some r := by
  have haction : a.action = (Traced.note .finish ⟨a.booked, calls⟩).action := by
    rw [Traced.note, ← ha]
  obtain ⟨s', hs', -⟩ := result_of_unfinished (a := ⟨a.booked, calls⟩) h hcalls
  have hfinish : histogram? a.action = some s'.finish := by
    rw [haction, Traced.action_note]
    exact LawfulHistograms.histogram?_finish _ s' hs'
  cases hresult : s'.result with
  | none =>
    refine ⟨_, s'.merged, hfinish, ?_⟩
    rw [SlottedHistogram.finish, hresult]
  | some r =>
    refine ⟨_, r, hfinish, ?_⟩
    rw [SlottedHistogram.finish, hresult]
    exact hresult

end Histograms

/-! ## Histories -/

/-- The life of an aggregation that was booked on a column of the table `start`, where `after` tells
what becomes of the table by later operations; `a` is what has become of the aggregation. -/
structure LifeOf (start : EventTable (Traced α))
    (after : List (Operation α) → EventTable (Traced α)) (column : Nat)
    (later : List (Operation α)) (a : Traced α) : Prop where
  present : (after later).aggregation? start.nextTicket = some a
  atMostOnce : a.calls.countP ActionCall.isFinish ≤ 1
  /-- As long as no event loop succeeds it is only asked to prepare slots. -/
  waiting : (after later).runs = start.runs → ∀ c ∈ a.calls, c.isPrepare = true
  /-- The first event loop that succeeds makes all other calls. -/
  finished : (after later).runs ≠ start.runs → ∃ (_ : Machine) (waiting rest : List (Operation α))
    (t' : EventTable (Traced α)) (prepares loop : List ActionCall),
    later = waiting ++ .run :: rest ∧ (after waiting).runs = start.runs ∧
      run (after waiting) = .ok () t' ∧ (after waiting).IsLoop column loop ∧
      a.calls = prepares ++ loop ∧ ∀ c ∈ prepares, c.isPrepare = true
  /-- From then on it is never called. -/
  kept : (after later).runs ≠ start.runs → ∀ further,
    (after (later ++ further)).aggregation? start.nextTicket = some a

theorem countP_isFinish_of_prepares {calls : List ActionCall}
    (h : ∀ c ∈ calls, c.isPrepare = true) : calls.countP ActionCall.isFinish = 0 := by
  rw [List.countP_eq_zero]
  intro c hc
  rw [ActionCall.isFinish_of_isPrepare (h c hc)]
  exact Bool.false_ne_true

omit [Aggregation α] in
/-- An event loop finishes an aggregation once, in the end. -/
theorem IsLoop.eq_append_finish [Machine] {column : Nat} {loop : List ActionCall}
    (h : t.IsLoop column loop) :
    ∃ calls, loop = calls ++ [.finish] ∧ ∀ c ∈ calls, c.isFinish = false := by
  obtain ⟨made, rfl, -, -⟩ := h
  refine ⟨_, rfl, fun c hc => ?_⟩
  rcases List.mem_cons.1 hc with rfl | hc
  · rfl
  · obtain ⟨c, -, rfl⟩ := List.mem_map.1 hc
    rfl

omit [Aggregation α] in
theorem IsLoop.countP_isFinish [Machine] {column : Nat} {loop : List ActionCall}
    (h : t.IsLoop column loop) : loop.countP ActionCall.isFinish = 1 := by
  obtain ⟨calls, rfl, hcalls⟩ := h.eq_append_finish
  have hnone : calls.countP ActionCall.isFinish = 0 := by
    rw [List.countP_eq_zero]
    intro c hc
    rw [hcalls c hc]
    exact Bool.false_ne_true
  rw [List.countP_append, hnone]
  rfl

omit [Aggregation α] in
theorem Operation.traced_eq_run [Machine] {op : Operation α} (h : op.traced = .run) :
    op = .run := by
  cases op with
  | run =>
    cases h
    rfl
  | addColumn name values => cases h
  | defineColumn name kernel inputs => cases h
  | defineFormula name source => cases h
  | filterRows name => cases h
  | withThreads threads => cases h
  | subscribe name action => cases h

/-- What has become of an aggregation, however its table goes on. -/
theorem exists_lifeOf {start booked : EventTable (Traced α)} {column : Nat} {x : α}
    (hbooked : booked = { start with pending := start.pending ++ [⟨column, .start x⟩] })
    (hreachable : booked.Reachable) (later : List (Operation α)) :
    ∃ a, a.booked = x ∧
      LifeOf start (fun ops => booked.afterAll (ops.map .traced)) column later a := by
  have hfinished : booked.finished = start.finished := by rw [hbooked]
  have hpending : booked.pending = start.pending ++ [⟨column, .start x⟩] := by rw [hbooked]
  have hruns : booked.runs = start.runs := by rw [hbooked]
  have hk : booked.finished.length ≤ start.nextTicket := by
    rw [hfinished]
    exact Nat.le_add_right _ _
  have hs : booked.subscription? start.nextTicket = some ⟨column, .start x⟩ := by
    rw [subscription?_pending hk, hpending, hfinished, nextTicket, Nat.add_sub_cancel_left,
      List.getElem?_append_right le_rfl, Nat.sub_self]
    rfl
  obtain ⟨prepares, hprepares, ⟨hsame, hwaits⟩ | ⟨hdiffer, hlt, machine, waiting, rest, t', loop,
    hlater, hwaiting, hrun, hloop, hfinishes⟩⟩ :=
      waits_or_finishes hreachable hk hs (later.map .traced)
  · rw [hruns] at hsame
    refine ⟨⟨x, prepares⟩, rfl, ⟨?_, ?_, fun _ => hprepares, fun h => absurd hsame h,
      fun h => absurd hsame h⟩⟩
    · exact congrArg (Option.map Subscription.action) hwaits
    · rw [countP_isFinish_of_prepares hprepares]
      exact Nat.zero_le 1
  · rw [hruns] at hdiffer hwaiting
    have haction : (booked.afterAll (later.map .traced)).aggregation? start.nextTicket =
        some ⟨x, prepares ++ loop⟩ := congrArg (Option.map Subscription.action) hfinishes
    obtain ⟨before, after, rfl, rfl, hafter⟩ := List.map_eq_append_iff.1 hlater
    obtain ⟨op, ops, rfl, hop, rfl⟩ := List.map_eq_cons_iff.1 hafter
    obtain rfl := Operation.traced_eq_run hop
    refine ⟨⟨x, prepares ++ loop⟩, rfl, ⟨haction, ?_, fun h => absurd h hdiffer, fun _ =>
      ⟨machine, before, ops, t', prepares, loop, rfl, hwaiting, hrun, hloop, rfl, hprepares⟩,
      fun _ further => ?_⟩⟩
    · rw [List.countP_append, countP_isFinish_of_prepares hprepares, hloop.countP_isFinish]
    · have happend : booked.afterAll ((before ++ .run :: ops ++ further).map .traced) =
          (booked.afterAll ((before ++ .run :: ops).map .traced)).afterAll
            (further.map .traced) := by
        rw [List.map_append, afterAll, List.foldl_append]
        rfl
      show (booked.afterAll ((before ++ .run :: ops ++ further).map .traced)).aggregation? _ = _
      rw [happend, ← haction]
      exact congrArg (Option.map Subscription.action) (subscription?_afterAll hlt _)

variable {rows column : Nat} {earlier later : List (Operation α)} {name : String} {x : α}

theorem reachable_tracedHistory (rows : Nat) (ops : List (Operation α)) :
    (tracedHistory rows ops).Reachable :=
  Reachable.afterAll (.ofRows rows) _

/-- The traced history goes on from the table on which the aggregation was booked. -/
theorem tracedHistory_subscribe
    (h : (history rows earlier).idOfKind .vector name = .ok column) (later : List (Operation α)) :
    tracedHistory rows (earlier ++ .subscribe name x :: later) =
      ({ tracedHistory rows earlier with
        pending := (tracedHistory rows earlier).pending ++ [⟨column, .start x⟩] } :
          EventTable (Traced α)).afterAll (later.map .traced) := by
  have hid : (tracedHistory rows earlier).idOfKind .vector name = .ok column := by
    rw [← untraced_tracedHistory] at h
    exact h
  have hsubscribe : (tracedHistory rows earlier).subscribe name (.start x) = _ :=
    subscribe_eq_ok_iff.2 ⟨column, hid, rfl⟩
  rw [tracedHistory, List.map_append, List.map_cons, history, afterAll, List.foldl_append,
    List.foldl_cons, ← afterAll, ← afterAll, ← history, ← tracedHistory]
  refine congrArg (fun t => afterAll t (later.map .traced)) ?_
  show (tracedHistory rows earlier).settle _ = _
  rw [hsubscribe]
  rfl

/-- The result of a histogram that was booked is absent until it is finished, and stays the same
from then on. -/
theorem result?_of_lifeOf {ν : Type} [FillNumber ν] [HoldsHistograms α ν] [LawfulHistograms α ν]
    {start : EventTable (Traced α)} {after : List (Operation α) → EventTable (Traced α)}
    {a : Traced α} (h : LifeOf start after column later a) {s : SlottedHistogram ν}
    (ha : a.booked = HoldsHistograms.ofHistogram s) (hs : s.result = none) {b : Booking}
    (hb : b.ticket = start.nextTicket) :
    ((after later).runs = start.runs → b.result? (after later).untraced = none) ∧
    ((after later).runs ≠ start.runs → ∃ r, ∀ further,
      b.result? (after (later ++ further)).untraced = some r) := by
  have hbooked : HoldsHistograms.histogram? a.booked = some s := by
    rw [ha]
    exact LawfulHistograms.histogram?_ofHistogram s
  refine ⟨fun hruns => ?_, fun hruns => ?_⟩
  · obtain ⟨s', hs', hresult⟩ := result_of_unfinished hbooked fun c hc =>
      ActionCall.isFinish_of_isPrepare (h.waiting hruns c hc)
    rw [Booking.result?, hb, aggregation?_untraced, h.present, Option.map_some, Option.bind_some,
      hs', Option.bind_some, hresult, hs]
  · obtain ⟨_, _, _, _, prepares, loop, -, -, -, hloop, hcalls, hprepares⟩ := h.finished hruns
    obtain ⟨calls, rfl, hunfinished⟩ := hloop.eq_append_finish
    rw [← List.append_assoc] at hcalls
    obtain ⟨s', r, hs', hr⟩ := result_of_finished hbooked hcalls fun c hc => by
      rcases List.mem_append.1 hc with hc | hc
      · exact ActionCall.isFinish_of_isPrepare (hprepares c hc)
      · exact hunfinished c hc
    refine ⟨r, fun further => ?_⟩
    rw [Booking.result?, hb, aggregation?_untraced, h.kept hruns further, Option.map_some,
      Option.bind_some, hs', Option.bind_some, hr]

/-- The life of aggregations over every history of a table.  Calls are written down without any
influence on the table.

* An event loop fails if the machine does not start its workers, and then no aggregation is called;
  or at the first pending aggregation that makes another number of slots than it is asked for, and
  then slots of it and those before it were prepared, and nothing else was done.
* An event loop that succeeds opens every pending aggregation once in every slot, fills it with the
  rows of the slot and finishes it, whatever the order in which the slots move, and then nothing is
  pending.
* An aggregation that is booked waits for the first event loop that succeeds, and all calls but
  those that prepare slots are made by this one.
* The result of a histogram that is booked is absent until then, and stays the same from then on.
-/
theorem life_cycle {ν : Type} [FillNumber ν] [HoldsHistograms α ν] [LawfulHistograms α ν]
    (rows : Nat) :
    (∀ ops : List (Operation α), (tracedHistory rows ops).untraced = history rows ops) ∧
    (∀ [Machine] (ops : List (Operation α)) fault t',
      run (tracedHistory rows ops) = .error fault t' →
        (tracedHistory rows ops).RefusedBy fault t') ∧
    (∀ [Machine] (ops : List (Operation α)) t', run (tracedHistory rows ops) = .ok () t' →
      (tracedHistory rows ops).CompletedBy t') ∧
    ∀ (earlier : List (Operation α)) (name : String) (x : α) (column : Nat),
      (history rows earlier).idOfKind .vector name = .ok column →
      ∀ later : List (Operation α), (∃ a, a.booked = x ∧ LifeOf (tracedHistory rows earlier)
        (fun ops => tracedHistory rows (earlier ++ .subscribe name x :: ops)) column later a) ∧
      ∀ s : SlottedHistogram ν, x = HoldsHistograms.ofHistogram s → s.result = none →
        ∀ b : Booking, b.ticket = (history rows earlier).nextTicket →
          ((history rows (earlier ++ .subscribe name x :: later)).runs =
              (history rows earlier).runs →
            b.result? (history rows (earlier ++ .subscribe name x :: later)) = none) ∧
          ((history rows (earlier ++ .subscribe name x :: later)).runs ≠
              (history rows earlier).runs →
            ∃ r, ∀ further,
              b.result? (history rows (earlier ++ .subscribe name x :: (later ++ further))) =
                some r) := by
  refine ⟨untraced_tracedHistory rows, @fun _ ops fault t' h => ?_, @fun _ ops t' h => ?_,
    fun earlier name x column hcolumn later => ?_⟩
  · exact refusedBy_of_run (reachable_tracedHistory rows ops).wellFormed h
  · exact completedBy_of_run (reachable_tracedHistory rows ops).wellFormed h
  · have hreachable := reachable_tracedHistory rows (earlier ++ [.subscribe name x])
    rw [tracedHistory_subscribe hcolumn []] at hreachable
    obtain ⟨a, ha, hlife⟩ := exists_lifeOf rfl hreachable later
    rw [← funext (tracedHistory_subscribe hcolumn)] at hlife
    refine ⟨⟨a, ha, hlife⟩, ?_⟩
    rintro s rfl hs b hb
    have hticket : (history rows earlier).nextTicket = (tracedHistory rows earlier).nextTicket := by
      rw [← untraced_tracedHistory, nextTicket, nextTicket, untraced, List.length_map,
        List.length_map]
    have hresult := result?_of_lifeOf hlife ha hs (hb.trans hticket)
    simp only [untraced_tracedHistory] at hresult
    have hruns : ∀ ops : List (Operation α),
        (history rows ops).runs = (tracedHistory rows ops).runs := by
      intro ops
      rw [← untraced_tracedHistory]
      rfl
    rw [hruns, hruns]
    exact hresult

section Histogram

attribute [local instance] Machine.oneThread

/-- A machine that starts no workers. -/
@[reducible] def withoutWorkers : Machine where
  threads := 1
  poolFault? _ := some "Resource temporarily unavailable (os error 11)"

/-- A vector column `v` is made. -/
def makingVector : List (Operation (Recorder ⊕ SlottedHistogram Float)) :=
  [.addColumn "x" #[1], .defineColumn "v" .concat ["x"]]

/-- A histogram without axes. -/
def pointlessHistogram : SlottedHistogram Float :=
  ⟨"h", .blank "h" [], 1, #[], none⟩

/-- An event loop without workers, one with them, and one for an aggregation that makes too few
slots. -/
def threeLoops : List (Operation (Recorder ⊕ SlottedHistogram Float)) :=
  [@Operation.run _ withoutWorkers, .run, .subscribe "v" (.inl (Recorder.make "r" 1)), .run]

/-- A histogram is booked and goes through three event loops, of which the first and the last fail.
Once more, these two fail in the states that are reached. -/
theorem life_cycle_of_histogram :
    (∃ fault t', @run _ _ withoutWorkers
        (tracedHistory 1 (makingVector ++ [.subscribe "v" (.inr pointlessHistogram)])) =
          .error fault t' ∧
      @RefusedBy _ _ withoutWorkers
        (tracedHistory 1 (makingVector ++ [.subscribe "v" (.inr pointlessHistogram)])) fault t') ∧
    (∃ fault t', run
        (tracedHistory 1 (makingVector ++ .subscribe "v" (.inr pointlessHistogram) :: threeLoops)) =
          .error fault t' ∧
      RefusedBy
        (tracedHistory 1 (makingVector ++ .subscribe "v" (.inr pointlessHistogram) :: threeLoops))
          fault t') ∧
    (history 1 (makingVector ++ .subscribe "v" (.inr pointlessHistogram) :: threeLoops)).runs = 1 ∧
    (history 1
      (makingVector ++ .subscribe "v" (.inr pointlessHistogram) :: threeLoops)).pending.length = 1 ∧
    ∀ b : Booking, b.ticket = 0 → ∃ r, ∀ further, b.result? (history 1 (makingVector ++
      .subscribe "v" (.inr pointlessHistogram) :: (threeLoops ++ further))) = some r := by
  obtain ⟨-, hrefused, -, hlives⟩ :=
    @life_cycle (Recorder ⊕ SlottedHistogram Float) _ Float _ _ _ 1
  refine ⟨?first, ?last, by decide +kernel, by decide +kernel, fun b hb => ?_⟩
  case first =>
    have hfails := @run_of_poolFault _ _ (tracedHistory 1
      (makingVector ++ [.subscribe "v" (.inr pointlessHistogram)])) withoutWorkers _
      (List.ne_nil_of_length_pos (by decide +kernel)) rfl
    exact ⟨_, _, hfails, @hrefused withoutWorkers _ _ _ hfails⟩
  case last =>
    have hfails : (Step.answer run (tracedHistory 1 (makingVector ++
        .subscribe "v" (.inr pointlessHistogram) :: threeLoops))).isOk = false := by
      decide +kernel
    cases hanswer : Step.answer run (tracedHistory 1 (makingVector ++
        .subscribe "v" (.inr pointlessHistogram) :: threeLoops)) with
    | ok answer =>
      rw [hanswer] at hfails
      cases hfails
    | error fault =>
      have hrun := Step.eq_error_of_answer hanswer
      exact ⟨fault, _, hrun, hrefused _ _ _ hrun⟩
  · obtain ⟨-, hresult⟩ := hlives makingVector "v" (.inr pointlessHistogram) 1
      (idOfKind_eq_ok_iff.2 ⟨by decide +kernel, by decide +kernel⟩) threeLoops
    exact (hresult pointlessHistogram rfl rfl b (hb.trans (by decide +kernel))).2
      (by decide +kernel)

end Histogram

end EventTable

end VariHist
