import Mathlib
import VariHist.Proofs.Table.Calls

/-!
# Slots that work side by side

A crew has one worker for each slot.  A worker looks at the rows of its slot in order, with buffers
of its own, and makes its calls one at a time; which worker moves next is left open.

* `Crew.follow` — the crew after its workers moved in some order.
* `Crew.Progress` — the invariant: what a worker has done and what it has ahead of it are together
  the calls of its slot, and the aggregations are what all calls so far have made of them.
* `run_interleaved` — the event loop against every order in which the workers may move.
-/

namespace VariHist

open Aggregation

variable {α : Type} [Aggregation α]

/-! ## Workers -/

/-- The work of one slot, as far as it is not done. -/
structure Worker where
  /-- The calls to make before the next row is looked at. -/
  queue : List (Nat × SlotCall)
  /-- The rows that have not been looked at. -/
  rows : List Nat
  buffers : RowBuffers

namespace Worker

/-- A worker that has all rows of a range ahead. -/
def start (p : LoopPlan) (range : RowRange) : Worker :=
  ⟨p.callEach fun _ => .openSlot, range.rows, .empty p.columns.size⟩

/-- One move: a call that is due, or else a look at the next row. -/
def advance (p : LoopPlan) (w : Worker) : Option (Worker × Option (Nat × SlotCall)) :=
  match w.queue, w.rows with
  | call :: queue, _ => some ({ w with queue }, some call)
  | [], row :: rows =>
    let (buffers, kept) := RowBuffers.evalRow p.columns p.schedule w.buffers row
    some (⟨if kept then p.fillCalls buffers else [], rows, buffers⟩, none)
  | [], [] => none

/-- The calls that are still to come. -/
def ahead (p : LoopPlan) (w : Worker) : List (Nat × SlotCall) :=
  w.queue ++ p.callsFrom w.buffers w.rows

theorem ahead_start (p : LoopPlan) (range : RowRange) : (start p range).ahead p = p.callsOf range :=
  rfl

/-- A move makes the first of the calls that are to come, or none. -/
theorem ahead_of_advance {p : LoopPlan} {w w' : Worker} {call : Option (Nat × SlotCall)}
    (h : w.advance p = some (w', call)) : w.ahead p = call.toList ++ w'.ahead p := by
  obtain ⟨queue, rows, buffers⟩ := w
  cases queue with
  | cons c queue =>
    cases h
    rfl
  | nil =>
    cases rows with
    | nil => cases h
    | cons row rows =>
      cases h
      rfl

/-- A worker that cannot move has no call ahead. -/
theorem ahead_of_done {p : LoopPlan} {w : Worker} (h : w.advance p = none) : w.ahead p = [] := by
  obtain ⟨queue, rows, buffers⟩ := w
  cases queue with
  | cons c queue => cases h
  | nil =>
    cases rows with
    | nil => rfl
    | cons row rows => cases h

end Worker

/-! ## Crews -/

/-- One worker for each slot, the aggregations they work on, and the calls made so far. -/
structure Crew (α : Type) where
  workers : List Worker
  subscriptions : List (Subscription α)
  /-- The calls made so far, oldest first. -/
  log : List LoggedCall

namespace Crew

/-- The crew before the first move. -/
def start (p : LoopPlan) (ranges : List RowRange) (subscriptions : List (Subscription α)) :
    Crew α :=
  ⟨ranges.map (Worker.start p), subscriptions, []⟩

/-- A move of the worker of a slot, if it has anything left to do. -/
def step (p : LoopPlan) (crew : Crew α) (slot : Nat) : Crew α :=
  match crew.workers[slot]?.bind (Worker.advance p) with
  | none => crew
  | some (w, none) => { crew with workers := crew.workers.set slot w }
  | some (w, some (k, call)) =>
    { workers := crew.workers.set slot w
      subscriptions := LoggedCall.perform crew.subscriptions ⟨slot, k, call⟩
      log := crew.log ++ [⟨slot, k, call⟩] }

/-- The crew after moves in some order. -/
def follow (p : LoopPlan) (crew : Crew α) (order : List Nat) : Crew α :=
  order.foldl (step p) crew

/-- Has every worker done its work? -/
def Done (p : LoopPlan) (crew : Crew α) : Prop :=
  ∀ w ∈ crew.workers, w.advance p = none

/-- The calls that a slot has made to a subscription. -/
def callsOf (crew : Crew α) (slot k : Nat) : List SlotCall :=
  ((crew.log.filter fun e => e.slot = slot).filter fun e => e.subscription = k).map
    LoggedCall.call

/-- What a slot has done and what it has ahead are its calls, and the aggregations are what the
calls have made of them. -/
structure Progress (p : LoopPlan) (ranges : List RowRange) (subscriptions : List (Subscription α))
    (crew : Crew α) : Prop where
  workers : crew.workers.length = ranges.length
  calls : ∀ (slot : Nat) (w : Worker) (range : RowRange), crew.workers[slot]? = some w →
    ranges[slot]? = some range →
    (crew.log.filter fun e => e.slot = slot) ++ logged slot (w.ahead p) =
      logged slot (p.callsOf range)
  slots : ∀ e ∈ crew.log, e.slot < ranges.length
  subscriptions : crew.subscriptions = performAll subscriptions crew.log

variable {p : LoopPlan} {ranges : List RowRange} {subscriptions : List (Subscription α)}
  {crew : Crew α}

theorem Progress.start (p : LoopPlan) (ranges : List RowRange)
    (subscriptions : List (Subscription α)) :
    Progress p ranges subscriptions (start p ranges subscriptions) where
  workers := List.length_map _
  calls slot w range hw hr := by
    rw [Crew.start, List.getElem?_map, hr, Option.map_some] at hw
    rw [← Option.some.inj hw, Worker.ahead_start]
    rfl
  slots := by simp [Crew.start]
  subscriptions := rfl

/-- A move keeps the invariant. -/
theorem Progress.step (h : Progress p ranges subscriptions crew) (slot : Nat) :
    Progress p ranges subscriptions (crew.step p slot) := by
  unfold Crew.step
  cases hw : crew.workers[slot]? with
  | none => exact h
  | some w =>
    have hslot : slot < ranges.length := by
      rw [← h.workers]
      exact (List.getElem?_eq_some_iff.1 hw).1
    rw [Option.bind_some]
    cases hadv : w.advance p with
    | none => exact h
    | some moved =>
      obtain ⟨w', call⟩ := moved
      have hahead := Worker.ahead_of_advance hadv
      cases call with
      | none =>
        refine ⟨by rw [List.length_set, h.workers], ?_, h.slots, h.subscriptions⟩
        intro i v range hv hr
        rw [List.getElem?_set] at hv
        by_cases hi : slot = i
        · subst hi
          rw [if_pos rfl, if_pos (by rw [h.workers]; exact hslot)] at hv
          rw [← Option.some.inj hv, ← h.calls slot w range hw hr, hahead]
          rfl
        · rw [if_neg hi] at hv
          exact h.calls i v range hv hr
      | some c =>
        obtain ⟨k, call⟩ := c
        refine ⟨by rw [List.length_set, h.workers], ?_, ?_, ?_⟩
        · intro i v range hv hr
          rw [List.getElem?_set] at hv
          rw [List.filter_append]
          by_cases hi : slot = i
          · subst hi
            rw [if_pos rfl, if_pos (by rw [h.workers]; exact hslot)] at hv
            rw [← Option.some.inj hv, ← h.calls slot w range hw hr, hahead, List.append_assoc]
            simp [logged]
          · rw [if_neg hi] at hv
            rw [List.filter_cons_of_neg (by simpa using hi), List.filter_nil, List.append_nil]
            exact h.calls i v range hv hr
        · intro e he
          rcases List.mem_append.1 he with he | he
          · exact h.slots e he
          · rw [List.mem_singleton.1 he]
            exact hslot
        · rw [performAll_append, h.subscriptions]
          rfl

/-- Moves in any order keep the invariant. -/
theorem Progress.follow (h : Progress p ranges subscriptions crew) (order : List Nat) :
    Progress p ranges subscriptions (crew.follow p order) := by
  induction order generalizing crew with
  | nil => exact h
  | cons slot order ih => exact ih (h.step slot)

/-- When all work is done, every slot has made its calls. -/
theorem Progress.log_of_done (h : Progress p ranges subscriptions crew) (hd : crew.Done p)
    {slot : Nat} {range : RowRange} (hr : ranges[slot]? = some range) :
    (crew.log.filter fun e => e.slot = slot) = logged slot (p.callsOf range) := by
  have hlt : slot < crew.workers.length := by
    rw [h.workers]
    exact (List.getElem?_eq_some_iff.1 hr).1
  have hw := List.getElem?_eq_getElem hlt
  have hcalls := h.calls slot _ range hw hr
  rw [Worker.ahead_of_done (hd _ (List.getElem_mem hlt)), logged, List.map_nil,
    List.append_nil] at hcalls
  exact hcalls

/-- The calls to one subscription, when all work is done. -/
theorem Progress.callsOf_of_done (h : Progress p ranges subscriptions crew) (hd : crew.Done p)
    {slot : Nat} {range : RowRange} (hr : ranges[slot]? = some range) (k : Nat) :
    crew.callsOf slot k = callsTo k (p.callsOf range) := by
  rw [Crew.callsOf, h.log_of_done hd hr, logged, List.filter_map, List.map_map, callsTo]
  rfl

/-- Two orders in which all work gets done leave the same behind. -/
theorem Progress.subscriptions_eq [LawfulAggregation α] {crew' : Crew α}
    (h : Progress p ranges subscriptions crew) (h' : Progress p ranges subscriptions crew')
    (hd : crew.Done p) (hd' : crew'.Done p) : crew.subscriptions = crew'.subscriptions := by
  rw [h.subscriptions, h'.subscriptions]
  refine foldl_eq_of_filter_eq (fun s a b => LoggedCall.perform_comm s a b) (fun slot => ?_) _
  cases hr : ranges[slot]? with
  | some range => rw [h.log_of_done hd hr, h'.log_of_done hd' hr]
  | none =>
    have hge : ranges.length ≤ slot := List.getElem?_eq_none_iff.1 hr
    rw [List.filter_eq_nil_iff.2, List.filter_eq_nil_iff.2]
    · intro e he
      have := h'.slots e he
      simp only [decide_eq_true_eq]
      omega
    · intro e he
      have := h.slots e he
      simp only [decide_eq_true_eq]
      omega

/-! ## One slot after another -/

/-- The worker of a slot can finish while the others wait, and makes these calls. -/
def CanFinish (p : LoopPlan) (slot : Nat) (crew : Crew α) (calls : List (Nat × SlotCall)) : Prop :=
  ∃ (moves : Nat) (w : Worker), w.advance p = none ∧
    crew.follow p (List.replicate moves slot) =
      ⟨crew.workers.set slot w, performAll crew.subscriptions (logged slot calls),
        crew.log ++ logged slot calls⟩

theorem CanFinish.of_done {slot : Nat} {w : Worker} (hw : crew.workers[slot]? = some w)
    (hd : w.advance p = none) : crew.CanFinish p slot [] := by
  refine ⟨0, w, hd, ?_⟩
  obtain ⟨hlt, hget⟩ := List.getElem?_eq_some_iff.1 hw
  rw [← hget, List.set_getElem_self]
  simp [follow, logged, performAll]

theorem CanFinish.of_advance {slot : Nat} {w w' : Worker} {call : Option (Nat × SlotCall)}
    {calls : List (Nat × SlotCall)} (hw : crew.workers[slot]? = some w)
    (hadv : w.advance p = some (w', call))
    (h : (crew.step p slot).workers[slot]? = some w' → (crew.step p slot).CanFinish p slot calls) :
    crew.CanFinish p slot (call.toList ++ calls) := by
  have hlt : slot < crew.workers.length := (List.getElem?_eq_some_iff.1 hw).1
  have hstep : crew.step p slot = ⟨crew.workers.set slot w',
      performAll crew.subscriptions (logged slot call.toList),
      crew.log ++ logged slot call.toList⟩ := by
    rw [Crew.step, hw, Option.bind_some, hadv]
    cases call with
    | none => simp [logged, performAll]
    | some c => rfl
  rw [hstep] at h
  obtain ⟨moves, v, hv, hfollow⟩ := h (List.getElem?_set_self hlt)
  refine ⟨moves + 1, v, hv, ?_⟩
  rw [List.replicate_succ, follow, List.foldl_cons, ← follow, hstep, hfollow]
  simp [logged, performAll_append]

/-- A worker can finish while the others wait. -/
theorem canFinish (p : LoopPlan) (slot : Nat) (rows : List Nat) :
    ∀ (queue : List (Nat × SlotCall)) (buffers : RowBuffers) (crew : Crew α),
      crew.workers[slot]? = some ⟨queue, rows, buffers⟩ →
      crew.CanFinish p slot (Worker.ahead p ⟨queue, rows, buffers⟩) := by
  induction rows with
  | nil =>
    intro queue buffers
    induction queue with
    | nil => exact fun crew hw => .of_done hw rfl
    | cons c queue ih => exact fun crew hw => .of_advance hw rfl (ih _)
  | cons row rows ihr =>
    intro queue buffers
    induction queue with
    | nil => exact fun crew hw => .of_advance hw rfl (ihr _ _ _)
    | cons c queue ih => exact fun crew hw => .of_advance hw rfl (ih _)

/-- The calls of some slots, one slot after another. -/
def serialLog (p : LoopPlan) (ranges : List RowRange) (first : Nat) : List LoggedCall :=
  (ranges.zipIdx first).flatMap fun (range, slot) => logged slot (p.callsOf range)

/-- The workers can work one after another. -/
theorem exists_serial (p : LoopPlan) (ranges : List RowRange) (first : Nat) (crew : Crew α)
    (hlen : crew.workers.length = first + ranges.length)
    (hworkers : ∀ i, crew.workers[first + i]? = ranges[i]?.map (Worker.start p)) :
    ∃ order : List Nat,
      (∀ i < first, (crew.follow p order).workers[i]? = crew.workers[i]?) ∧
      (∀ (i : Nat) (w : Worker), first ≤ i → (crew.follow p order).workers[i]? = some w →
        w.advance p = none) ∧
      (crew.follow p order).subscriptions =
        performAll crew.subscriptions (serialLog p ranges first) := by
  induction ranges generalizing first crew with
  | nil =>
    refine ⟨[], fun _ _ => rfl, fun i w hi hw => ?_, rfl⟩
    have := (List.getElem?_eq_some_iff.1 hw).1
    rw [show (crew.follow p []).workers = crew.workers from rfl, hlen, List.length_nil] at this
    omega
  | cons range ranges ih =>
    have hfirst := hworkers 0
    rw [Nat.add_zero, List.getElem?_cons_zero, Option.map_some] at hfirst
    obtain ⟨moves, w, hw, hfollow⟩ := canFinish p first _ _ _ crew hfirst
    rw [show Worker.ahead p ⟨_, _, _⟩ = p.callsOf range from Worker.ahead_start p range] at hfollow
    have hlt : first < crew.workers.length := by
      rw [hlen, List.length_cons]
      omega
    obtain ⟨order, hbefore, hdone, hsubs⟩ := ih (first + 1) (crew.follow p (.replicate moves first))
      (by
        rw [hfollow, List.length_set, hlen, List.length_cons]
        omega)
      (fun i => by
        rw [hfollow, List.getElem?_set_ne (by omega)]
        have := hworkers (i + 1)
        rwa [List.getElem?_cons_succ, ← Nat.add_assoc, Nat.add_right_comm] at this)
    have hsplit : crew.follow p (List.replicate moves first ++ order) =
        (crew.follow p (.replicate moves first)).follow p order := List.foldl_append
    refine ⟨List.replicate moves first ++ order, fun i hi => ?_, fun i v hi hv => ?_, ?_⟩
    · rw [hsplit, hbefore i (by omega), hfollow, List.getElem?_set_ne (by omega)]
    · rw [hsplit] at hv
      by_cases hif : i = first
      · subst hif
        rw [hbefore i (Nat.lt_succ_self i), hfollow, List.getElem?_set_self hlt] at hv
        rw [← Option.some.inj hv]
        exact hw
      · exact hdone i v (by omega) hv
    · rw [hsplit, hsubs, hfollow, ← performAll_append, serialLog, serialLog, List.zipIdx_cons,
        List.flatMap_cons]

end Crew

/-! ## The event loop -/

namespace EventTable

variable {t : EventTable α}

/-- What is fixed while the rows of a table are worked through. -/
def plan (t : EventTable α) : LoopPlan :=
  let wanted := t.pending.map Subscription.column
  ⟨t.columns, .make t.columns t.filters wanted, wanted⟩

/-- The pending subscriptions, made ready for the slots. -/
def prepared [Machine] (t : EventTable α) : List (Subscription α) :=
  t.pending.map fun s => { s with action := prepare t.slotCount s.action }

/-- The crew that works through the rows of a table. -/
def crew [Machine] (t : EventTable α) : Crew α :=
  .start t.plan (RowRange.split t.rows t.slotCount) t.prepared

/-- Can the workers of the event loop be started, if there is anything to do for them? -/
def HasPool [Machine] (t : EventTable α) : Prop :=
  t.pending ≠ [] → Machine.poolFault? t.slotCount = none

/-- Does every pending aggregation make the number of slots that it is asked for? -/
def AllPrepare [Machine] (t : EventTable α) : Prop :=
  ∀ s ∈ t.pending, Aggregation.slotCount (prepare t.slotCount s.action) = t.slotCount

theorem columns_prepared [Machine] (t : EventTable α) :
    t.prepared.map Subscription.column = t.plan.wanted := by
  rw [prepared, List.map_map]
  rfl

theorem prepareAll_eq {slots : Nat} {pending : List (Subscription α)}
    (h : ∀ s ∈ pending, Aggregation.slotCount (prepare slots s.action) = slots) :
    Subscription.prepareAll slots pending =
      (pending.map fun s => { s with action := prepare slots s.action }, none) := by
  induction pending with
  | nil => rfl
  | cons s rest ih =>
    have hs := h s List.mem_cons_self
    rw [Subscription.prepareAll, ih fun r hr => h r (List.mem_cons_of_mem _ hr), List.map_cons]
    exact if_pos hs

/-- One slot after another makes the calls of the slots in order. -/
theorem process_eq [Machine] {subscriptions : List (Subscription α)}
    (hs : subscriptions.map Subscription.column = t.plan.wanted) :
    t.process subscriptions =
      performAll subscriptions (Crew.serialLog t.plan (RowRange.split t.rows t.slotCount) 0) := by
  have hfold : ∀ (ranges : List (RowRange × Nat)) (subs : List (Subscription α)),
      subs.map Subscription.column = t.plan.wanted →
      ranges.foldl (fun subs (range, slot) =>
        Subscription.runSlot t.plan.columns t.plan.schedule slot range subs) subs =
      performAll subs (ranges.flatMap fun (range, slot) => logged slot (t.plan.callsOf range)) := by
    intro ranges
    induction ranges with
    | nil => intro subs _; rfl
    | cons r ranges ih =>
      intro subs hsubs
      obtain ⟨range, slot⟩ := r
      rw [List.foldl_cons, List.flatMap_cons, performAll_append]
      dsimp only
      rw [Subscription.runSlot_eq hsubs]
      exact ih _ ((Subscription.columns_performAll _ _).trans hsubs)
  rw [process, hs]
  exact hfold _ _ hs

/-- If the workers can be started and all aggregations make their slots, the event loop succeeds. -/
theorem run_of_allPrepare [Machine] (hpool : t.HasPool) (h : t.AllPrepare) :
    ∃ t', run t = .ok () t' ∧
      t'.finished = t.finished ++ Subscription.finishAll (t.process t.prepared) ∧
      t'.pending = [] := by
  unfold run
  by_cases hp : t.pending.isEmpty = true
  · have hnil : t.pending = [] := List.isEmpty_iff.1 hp
    refine ⟨t, if_pos hp, ?_, hnil⟩
    have hprocess : t.process t.prepared = [] := by
      rw [process_eq t.columns_prepared, ← List.map_eq_nil_iff (f := Subscription.column),
        Subscription.columns_performAll, prepared, hnil]
      rfl
    rw [hprocess]
    exact (List.append_nil _).symm
  · rw [if_neg hp, hpool (mt List.isEmpty_iff.2 hp), prepareAll_eq h]
    exact ⟨_, rfl, rfl, rfl⟩

omit [Aggregation α] in
theorem one_le_slotCount [Machine] (t : EventTable α) : 1 ≤ t.slotCount := by
  unfold slotCount
  split
  · exact le_max_right _ _
  · exact Nat.one_le_iff_ne_zero.2 ‹_›

omit [Aggregation α] in
theorem slotCount_of_threads [Machine] (hn : 1 ≤ t.threads) : t.slotCount = t.threads :=
  if_neg (Nat.ne_of_gt hn)

/-- The event loop for a table that can be reached, with any number of slots, on a machine that
starts their workers, and with aggregations that all make their slots.  It succeeds, and it is one
way in which the workers of the slots can share the work.  In whatever order the workers move, once
all work is done

* the aggregations end in the same state, if a call to one slot leaves the others alone;
* each slot has opened each aggregation once, before anything else, and then only filled it;
* the fills of the slots, one slot after another, are the values of the aggregation's column on the
  rows that pass the filters, in order.  These depend on neither the number of slots nor the other
  aggregations.
-/
theorem run_interleaved [Machine] (ht : t.Reachable) (hn : 1 ≤ t.threads) (hpool : t.HasPool)
    (hprep : t.AllPrepare) :
    ∃ t', run t = .ok () t' ∧
      (∃ order, (t.crew.follow t.plan order).Done t.plan ∧
        t'.finished = t.finished ++
          Subscription.finishAll (t.crew.follow t.plan order).subscriptions) ∧
      ∀ order, (t.crew.follow t.plan order).Done t.plan →
        (∀ _ : LawfulAggregation α, t'.finished = t.finished ++
          Subscription.finishAll (t.crew.follow t.plan order).subscriptions) ∧
        ∀ (k : Nat) (s : Subscription α), t.pending[k]? = some s →
          ∃ fills : Nat → List (List Float),
            (∀ slot < t.threads, (t.crew.follow t.plan order).callsOf slot k =
              .openSlot :: (fills slot).map .fill) ∧
            (List.range t.threads).flatMap fills =
              valuesOn t.columns t.filters t.rows s.column := by
  have hslots := slotCount_of_threads hn
  obtain ⟨t', hrun, hfinished, -⟩ := run_of_allPrepare hpool hprep
  have hwf := ht.wellFormed
  have hstart : Crew.Progress t.plan (RowRange.split t.rows t.slotCount) t.prepared t.crew :=
    Crew.Progress.start _ _ _
  obtain ⟨serial, -, hdone, hserial⟩ :=
    Crew.exists_serial t.plan (RowRange.split t.rows t.slotCount) 0 t.crew
      (by rw [hstart.workers, Nat.zero_add])
      (fun i => by
        rw [Nat.zero_add]
        exact List.getElem?_map)
  have hserialDone : (t.crew.follow t.plan serial).Done t.plan := by
    intro w hw
    obtain ⟨i, hi⟩ := List.mem_iff_getElem?.1 hw
    exact hdone i w (Nat.zero_le i) hi
  have hserialFinished : t'.finished = t.finished ++
      Subscription.finishAll (t.crew.follow t.plan serial).subscriptions := by
    rw [hfinished, hserial, process_eq t.columns_prepared]
    rfl
  refine ⟨t', hrun, ⟨serial, hserialDone, hserialFinished⟩, fun order hd => ⟨fun _ => ?_, ?_⟩⟩
  · rw [hserialFinished,
      (hstart.follow serial).subscriptions_eq (hstart.follow order) hserialDone hd]
  · intro k s hk
    have hwanted : (t.pending.map Subscription.column)[k]? = some s.column := by
      rw [List.getElem?_map, hk, Option.map_some]
    refine ⟨fun slot => ((RowRange.ofSlot t.rows t.threads slot).rows.filter
      (passesOn t.columns t.filters)).map fun row => vectorOn t.columns row s.column, ?_, ?_⟩
    · intro slot hslot
      have hr : (RowRange.split t.rows t.slotCount)[slot]? =
          some (RowRange.ofSlot t.rows t.threads slot) := by
        rw [RowRange.split, hslots, List.getElem?_map, List.getElem?_range hslot, Option.map_some]
      rw [(hstart.follow order).callsOf_of_done hd hr k, List.map_map]
      exact LoopPlan.callsTo_callsOf hwf.inputs hwf.filters (fun id hid => by
        obtain ⟨s, hs, rfl⟩ := List.mem_map.1 hid
        exact hwf.subscriptions s hs) hwanted _
    · rw [valuesOn, ← flatMap_rows_ofSlot t.rows hn, List.filter_flatMap, List.map_flatMap]

section TwoSlots

attribute [local instance] Machine.oneThread

/-- Three rows of which two pass, and two slots. -/
theorem run_interleaved_two_slots :
    ∃ t : EventTable Recorder, t.Reachable ∧ t.threads = 2 ∧ t.AllPrepare ∧
      t.pending.map Subscription.column = [1] ∧
      ∃ t', run t = .ok () t' ∧ ∃ (order : List Nat) (fills : Nat → List (List Float)),
        (∀ slot < 2, (t.crew.follow t.plan order).callsOf slot 0 =
          .openSlot :: (fills slot).map .fill) ∧
        (List.range 2).flatMap fills = [[1], [3]] := by
  have h1 : (⟨3, 2, #[⟨"x", .stored #[1, -1, 3]⟩], [], [], [], 0⟩ :
      EventTable Recorder).Reachable :=
    ((Reachable.ofRows 3).withThreads 2).addColumn "x" #[1, -1, 3]
      (addColumn_eq_ok_iff.2 ⟨rfl, by decide +kernel, rfl⟩)
  have h2 : (⟨3, 2, #[⟨"x", .stored #[1, -1, 3]⟩, ⟨"v", .derived [0] .concat⟩], [], [], [], 0⟩ :
      EventTable Recorder).Reachable :=
    h1.defineColumn "v" .concat ["x"] (defineColumn_eq_ok_iff.2 ⟨by decide +kernel, [0],
      .cons (idOfKind_eq_ok_iff.2 ⟨by decide +kernel, by decide +kernel⟩) .nil, rfl⟩)
  have h3 : (⟨3, 2, #[⟨"x", .stored #[1, -1, 3]⟩, ⟨"v", .derived [0] .concat⟩], [0], [], [], 0⟩ :
      EventTable Recorder).Reachable :=
    h2.filterRows "x" (filterRows_eq_ok_iff.2
      ⟨0, idOfKind_eq_ok_iff.2 ⟨by decide +kernel, by decide +kernel⟩, rfl⟩)
  have h4 : (⟨3, 2, #[⟨"x", .stored #[1, -1, 3]⟩, ⟨"v", .derived [0] .concat⟩], [0], [],
      [⟨1, Recorder.make "r" 0⟩], 0⟩ : EventTable Recorder).Reachable :=
    h3.subscribe "v" (Recorder.make "r" 0) (subscribe_eq_ok_iff.2
      ⟨1, idOfKind_eq_ok_iff.2 ⟨by decide +kernel, by decide +kernel⟩, rfl⟩)
  have hprep : AllPrepare (⟨3, 2, #[⟨"x", .stored #[1, -1, 3]⟩, ⟨"v", .derived [0] .concat⟩], [0],
      [], [⟨1, Recorder.make "r" 0⟩], 0⟩ : EventTable Recorder) := fun s hs => by
    rw [List.mem_singleton.1 hs]
    rfl
  obtain ⟨t', hrun, ⟨order, hd, -⟩, hall⟩ := run_interleaved h4 (by decide) (fun _ => rfl) hprep
  obtain ⟨fills, hcalls, hvalues⟩ := (hall order hd).2 0 ⟨1, Recorder.make "r" 0⟩ rfl
  refine ⟨_, h4, rfl, hprep, rfl, t', hrun, order, fills, hcalls, hvalues.trans ?_⟩
  have hx : ∀ row, scalarOn #[⟨"x", .stored #[1, -1, 3]⟩, ⟨"v", .derived [0] .concat⟩] row 0 =
      (#[1, -1, 3] : Array Float).getD row 0 := fun row => scalarOn_stored rfl
  have hv : ∀ row, vectorOn #[⟨"x", .stored #[1, -1, 3]⟩, ⟨"v", .derived [0] .concat⟩] row 1 =
      [(#[1, -1, 3] : Array Float).getD row 0] := fun row => by
    rw [vectorOn_derived rfl, ← hx row]
    rfl
  have hpass : ∀ row, passesOn #[⟨"x", .stored #[1, -1, 3]⟩, ⟨"v", .derived [0] .concat⟩] [0] row =
      decide (0 < (#[1, -1, 3] : Array Float).getD row 0) := fun row => by
    rw [passesOn, List.all_cons, List.all_nil, hx, Bool.and_true]
  have hrows : (List.range 3).filter
      (fun row => decide (0 < (#[1, -1, 3] : Array Float).getD row 0)) = [0, 2] := by
    decide +kernel
  change ((List.range 3).filter (passesOn _ _)).map _ = _
  rw [funext hpass, hrows, List.map_cons, List.map_cons, hv, hv]
  rfl

end TwoSlots

end EventTable

end VariHist
