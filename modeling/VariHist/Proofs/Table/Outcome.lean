import Mathlib
import VariHist.Proofs.Step
import VariHist.Proofs.Table.Interleaving

/-!
# What the event loop leaves behind

* `getElem?_performAll` — a subscription ends in the state that the calls made to it lead to.
* `run_cases` — the four ways in which an event loop ends; `exists_stateAfter_run` — it touches
  nothing but the aggregations and the number of runs.
* `ready_of_run` — an event loop that succeeds was given its workers and all the slots it asked for.
* `finished_of_run` — each subscription was prepared, opened and filled slot by slot, and finished.
-/

namespace VariHist

open Aggregation

variable {α : Type} [Aggregation α]

/-- The calls made to a subscription, with the slots that made them. -/
def callsOn (k : Nat) (log : List LoggedCall) : List (Nat × SlotCall) :=
  (log.filter fun e => e.subscription = k).map fun e => (e.slot, e.call)

/-- What calls from some slots make of an aggregation. -/
def driven (a : α) (calls : List (Nat × SlotCall)) : α :=
  calls.foldl (fun a c => c.2.perform c.1 a) a

/-- A subscription ends in the state that the calls made to it lead to. -/
theorem getElem?_performAll (subscriptions : List (Subscription α)) (log : List LoggedCall)
    (k : Nat) : (performAll subscriptions log)[k]? = subscriptions[k]?.map fun s =>
      { s with action := driven s.action (callsOn k log) } := by
  induction log generalizing subscriptions with
  | nil =>
    cases hs : subscriptions[k]? with
    | none => exact hs
    | some s => exact hs
  | cons e log ih =>
    rw [performAll, List.foldl_cons, ← performAll, ih, LoggedCall.perform, List.getElem?_modify,
      callsOn, callsOn, List.filter_cons]
    cases subscriptions[k]? with
    | none => rfl
    | some s =>
      by_cases he : e.subscription = k
      · simp [he, driven]
      · simp [he]

theorem callsOn_logged (k slot : Nat) (calls : List (Nat × SlotCall)) :
    callsOn k (logged slot calls) = (callsTo k calls).map fun c => (slot, c) := by
  rw [callsOn, logged, callsTo, List.filter_map, List.map_map, List.map_map]
  rfl

theorem callsOn_serialLog (p : LoopPlan) (ranges : List RowRange) (first k : Nat) :
    callsOn k (Crew.serialLog p ranges first) = (ranges.zipIdx first).flatMap fun (range, slot) =>
      (callsTo k (p.callsOf range)).map fun c => (slot, c) := by
  rw [Crew.serialLog, callsOn, List.filter_flatMap, List.map_flatMap]
  refine List.flatMap_congr fun e _ => ?_
  exact callsOn_logged k e.2 (p.callsOf e.1)

theorem zipIdx_map_range {β : Type} (f : Nat → β) (n : Nat) :
    ((List.range n).map f).zipIdx = (List.range n).map fun i => (f i, i) := by
  refine List.ext_getElem? fun i => ?_
  rw [List.getElem?_zipIdx, List.getElem?_map, List.getElem?_map]
  by_cases hi : i < n
  · simp [List.getElem?_range hi]
  · rw [List.getElem?_eq_none (by simpa using hi)]
    rfl

namespace EventTable

variable {t t' : EventTable α}

/-! ## The four ways in which an event loop ends -/

theorem run_of_nil [Machine] (hp : t.pending = []) : run t = .ok () t :=
  if_pos (List.isEmpty_iff.2 hp)

theorem run_of_poolFault [Machine] {reason : String} (hp : t.pending ≠ [])
    (h : Machine.poolFault? t.slotCount = some reason) :
    run t = .error (.computation (.noPool reason)) t := by
  unfold run
  rw [if_neg (mt List.isEmpty_iff.1 hp), h]

theorem run_of_prepareAll_none [Machine] {prepared : List (Subscription α)} (hp : t.pending ≠ [])
    (hpool : Machine.poolFault? t.slotCount = none)
    (h : Subscription.prepareAll t.slotCount t.pending = (prepared, none)) :
    run t = .ok () { t with
      finished := t.finished ++ Subscription.finishAll (t.process prepared)
      pending := []
      runs := t.runs + 1 } := by
  unfold run
  rw [if_neg (mt List.isEmpty_iff.1 hp), hpool, h]

theorem run_of_prepareAll_some [Machine] {prepared : List (Subscription α)} {fault : Error}
    (hp : t.pending ≠ []) (hpool : Machine.poolFault? t.slotCount = none)
    (h : Subscription.prepareAll t.slotCount t.pending = (prepared, some fault)) :
    run t = .error fault { t with pending := prepared } := by
  unfold run
  rw [if_neg (mt List.isEmpty_iff.1 hp), hpool, h]

/-- The fault of an aggregation that makes another number of slots than it is asked for. -/
def slotFault (slots : Nat) (s : Subscription α) : Error :=
  let action := prepare slots s.action
  .computation (.slotCount (name action) (Aggregation.slotCount action) slots)

/-- Preparing stops at the first aggregation that makes another number of slots. -/
theorem prepareAll_cases (slots : Nat) (l : List (Subscription α)) :
    (∀ s ∈ l, Aggregation.slotCount (prepare slots s.action) = slots) ∨
    ∃ before s after, l = before ++ s :: after ∧
      (∀ r ∈ before, Aggregation.slotCount (prepare slots r.action) = slots) ∧
      Aggregation.slotCount (prepare slots s.action) ≠ slots ∧
      Subscription.prepareAll slots l =
        ((before ++ [s]).map (fun s => { s with action := prepare slots s.action }) ++ after,
          some (slotFault slots s)) := by
  induction l with
  | nil => exact Or.inl (by simp)
  | cons s rest ih =>
    unfold Subscription.prepareAll
    by_cases hs : Aggregation.slotCount (prepare slots s.action) = slots
    · rcases ih with hrest | ⟨before, s', after, rfl, hbefore, hs', hrest⟩
      · exact Or.inl (List.forall_mem_cons.2 ⟨hs, hrest⟩)
      · refine Or.inr ⟨s :: before, s', after, rfl, List.forall_mem_cons.2 ⟨hs, hbefore⟩, hs', ?_⟩
        rw [hrest]
        exact if_pos hs
    · exact Or.inr ⟨[], s, rest, rfl, by simp, hs, if_neg hs⟩

omit [Aggregation α] in
/-- What a list holds at a position after a first part of it was changed. -/
theorem getElem?_map_append {f : α → α} {before after : List α} {a b : α} {i : Nat}
    (h : (before ++ a :: after)[i]? = some b) :
    ((before ++ [a]).map f ++ after)[i]? = some (f b) ∨
      ((before ++ [a]).map f ++ after)[i]? = some b := by
  rw [List.append_cons, List.getElem?_append] at h
  rw [List.getElem?_append, List.length_map]
  split_ifs at h ⊢
  · rw [List.getElem?_map, h]
    exact .inl rfl
  · exact .inr h

/-- Either nothing is pending and nothing happens, or the workers cannot be started and nothing else
happens, or an aggregation makes another number of slots than it was asked for and only it and those
before it were prepared, or all pending aggregations are worked through and finished. -/
theorem run_cases [Machine] (t : EventTable α) :
    (t.pending = [] ∧ run t = .ok () t) ∨
    (∃ reason, t.pending ≠ [] ∧ Machine.poolFault? t.slotCount = some reason ∧
      run t = .error (.computation (.noPool reason)) t) ∨
    (∃ before s after, t.pending = before ++ s :: after ∧
      Machine.poolFault? t.slotCount = none ∧
      (∀ r ∈ before, Aggregation.slotCount (prepare t.slotCount r.action) = t.slotCount) ∧
      Aggregation.slotCount (prepare t.slotCount s.action) ≠ t.slotCount ∧
      run t = .error (slotFault t.slotCount s) { t with
        pending := (before ++ [s]).map (fun s => { s with action := prepare t.slotCount s.action })
          ++ after }) ∨
    (t.pending ≠ [] ∧ t.HasPool ∧ t.AllPrepare ∧ run t = .ok () { t with
      finished := t.finished ++ Subscription.finishAll (t.process t.prepared)
      pending := []
      runs := t.runs + 1 }) := by
  by_cases hp : t.pending = []
  · exact .inl ⟨hp, run_of_nil hp⟩
  cases hpool : Machine.poolFault? t.slotCount with
  | some reason => exact .inr (.inl ⟨reason, hp, rfl, run_of_poolFault hp hpool⟩)
  | none =>
    rcases prepareAll_cases t.slotCount t.pending with hall | ⟨before, s, after, hpending, hbefore,
      hs, h⟩
    · exact .inr (.inr (.inr ⟨hp, fun _ => hpool, hall,
        run_of_prepareAll_none hp hpool (prepareAll_eq hall)⟩))
    · exact .inr (.inr (.inl ⟨before, s, after, hpending, rfl, hbefore, hs,
        run_of_prepareAll_some hp hpool h⟩))

/-- An event loop that succeeds was given its workers and all the slots that it asked for. -/
theorem ready_of_run [Machine] (h : run t = .ok () t') : t.HasPool ∧ t.AllPrepare := by
  rcases run_cases t with ⟨hp, -⟩ | ⟨reason, -, -, hrun⟩ | ⟨before, s, after, -, -, -, -, hrun⟩ |
    ⟨-, hpool, hprep, -⟩
  · refine ⟨fun hne => absurd hp hne, ?_⟩
    rw [AllPrepare, hp]
    simp
  · rw [h] at hrun
    cases hrun
  · rw [h] at hrun
    cases hrun
  · exact ⟨hpool, hprep⟩

/-- An event loop touches the aggregations and the number of runs, and nothing else.  Whether it
succeeds or not, what was finished stays finished and no run is taken back. -/
theorem exists_stateAfter_run [Machine] (t : EventTable α) :
    ∃ made pending runs, t.runs ≤ runs ∧
      Step.stateAfter run t = { t with finished := t.finished ++ made, pending, runs } := by
  rcases run_cases t with ⟨-, h⟩ | ⟨reason, -, -, h⟩ | ⟨before, s, after, -, -, -, -, h⟩ |
    ⟨-, -, -, h⟩
  · exact ⟨[], _, _, le_rfl, by rw [Step.stateAfter_of_eq_ok h, List.append_nil]⟩
  · exact ⟨[], _, _, le_rfl, by rw [Step.stateAfter_of_eq_error h, List.append_nil]⟩
  · exact ⟨[], _, _, le_rfl, by rw [Step.stateAfter_of_eq_error h, List.append_nil]⟩
  · exact ⟨_, _, _, Nat.le_succ _, Step.stateAfter_of_eq_ok h⟩

theorem runs_of_run_eq_error [Machine] {e : Error} (h : run t = .error e t') :
    t'.runs = t.runs := by
  rcases run_cases t with ⟨-, hrun⟩ | ⟨reason, -, -, hrun⟩ | ⟨before, s, after, -, -, -, -, hrun⟩ |
    ⟨-, -, -, hrun⟩
  all_goals
    rw [h] at hrun
    cases hrun
  all_goals rfl

theorem runs_of_run_eq_ok [Machine] (hp : t.pending ≠ []) (h : run t = .ok () t') :
    t'.runs = t.runs + 1 := by
  rcases run_cases t with ⟨hnil, -⟩ | ⟨reason, -, -, hrun⟩ | ⟨before, s, after, -, -, -, -, hrun⟩ |
    ⟨-, -, -, hrun⟩
  · exact absurd hnil hp
  all_goals
    rw [h] at hrun
    cases hrun
  rfl

/-- The calls made to a subscription by the event loop: slot after slot, an opening and then one
fill for each row of the slot that is kept. -/
def callsFor [Machine] (t : EventTable α) (column : Nat) : List (Nat × SlotCall) :=
  (List.range t.slotCount).flatMap fun slot =>
    (slot, .openSlot) :: ((RowRange.ofSlot t.rows t.slotCount slot).rows.filter
      (passesOn t.columns t.filters)).map fun row => (slot, .fill (vectorOn t.columns row column))

/-- Each subscription was prepared, opened and filled slot by slot, and finished. -/
theorem finished_of_run [Machine] (ht : t.WellFormed) (h : run t = .ok () t') {k : Nat}
    {s : Subscription α} (hs : t.pending[k]? = some s) :
    t'.finished[t.finished.length + k]? = some { s with
      action := finish (driven (prepare t.slotCount s.action) (t.callsFor s.column)) } := by
  obtain ⟨hpool, hprep⟩ := ready_of_run h
  obtain ⟨u, hrun, hfinished, -⟩ := run_of_allPrepare hpool hprep
  obtain rfl : u = t' := by
    rw [h] at hrun
    cases hrun
    rfl
  have hwanted : (t.pending.map Subscription.column)[k]? = some s.column := by
    rw [List.getElem?_map, hs, Option.map_some]
  have hcalls : callsOn k (Crew.serialLog t.plan (RowRange.split t.rows t.slotCount) 0) =
      t.callsFor s.column := by
    rw [callsOn_serialLog, RowRange.split, callsFor, zipIdx_map_range, List.flatMap_map]
    refine List.flatMap_congr fun slot _ => ?_
    dsimp only
    rw [plan, LoopPlan.callsTo_callsOf ht.inputs ht.filters (fun id hid => by
      obtain ⟨s, hs, rfl⟩ := List.mem_map.1 hid
      exact ht.subscriptions s hs) hwanted, List.map_cons, List.map_map]
    rfl
  rw [hfinished, List.getElem?_append_right (Nat.le_add_right _ _), Nat.add_sub_cancel_left,
    Subscription.finishAll, List.getElem?_map, process_eq t.columns_prepared, getElem?_performAll,
    hcalls, prepared, List.getElem?_map, hs]
  rfl

end EventTable

end VariHist
