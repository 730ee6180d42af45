import Mathlib
import VariHist.Proofs.Table.History

/-!
# Aggregations that write down their calls

To tell how often an aggregation is called over a whole history of a table, it is booked together
with an empty list of calls, and every call made to it is put at the end of the list.  The table
does not notice.

* `ActionCall`, `Traced` — the calls, and an aggregation with the calls made to it so far.
* `tracedHistory` — a history with aggregations that write down their calls.
* `untraced_tracedHistory` — without the lists of calls, the traced history is the history.
-/

namespace VariHist

open Aggregation

variable {α : Type} [Aggregation α]

/-! ## Traced aggregations -/

/-- A call made to an aggregation. -/
inductive ActionCall where
  /-- It is asked to prepare a number of slots. -/
  | prepare (slots : Nat)
  /-- A slot calls it. -/
  | toSlot (slot : Nat) (call : SlotCall)
  /-- It is finished. -/
  | finish

namespace ActionCall

/-- Makes a call. -/
def perform : ActionCall → α → α
  | prepare slots => Aggregation.prepare slots
  | toSlot slot call => call.perform slot
  | finish => Aggregation.finish

/-- Is this the call that finishes an aggregation? -/
def isFinish : ActionCall → Bool
  | finish => true
  | _ => false

/-- Is this a call that prepares slots? -/
def isPrepare : ActionCall → Bool
  | prepare _ => true
  | _ => false

theorem isFinish_of_isPrepare {c : ActionCall} (h : c.isPrepare = true) : c.isFinish = false := by
  cases c with
  | prepare slots => rfl
  | toSlot slot call => rfl
  | finish => cases h

end ActionCall

/-- An aggregation, as it was booked, with the calls made to it, oldest first. -/
structure Traced (α : Type) where
  booked : α
  calls : List ActionCall

namespace Traced

/-- An aggregation to which no call was made. -/
def start (a : α) : Traced α := ⟨a, []⟩

/-- Writes down a call. -/
def note (c : ActionCall) (a : Traced α) : Traced α :=
  ⟨a.booked, a.calls ++ [c]⟩

/-- What the calls have made of the aggregation. -/
def action (a : Traced α) : α :=
  a.calls.foldl (fun a c => c.perform a) a.booked

instance : Aggregation (Traced α) where
  name a := name a.action
  prepare slots := note (.prepare slots)
  slotCount a := slotCount a.action
  openSlot slot := note (.toSlot slot .openSlot)
  fill slot values := note (.toSlot slot (.fill values))
  finish := note .finish

theorem action_note (c : ActionCall) (a : Traced α) : (a.note c).action = c.perform a.action := by
  rw [action, note, List.foldl_append]
  rfl

theorem perform_slotCall (slot : Nat) (c : SlotCall) (a : Traced α) :
    c.perform slot a = a.note (.toSlot slot c) := by
  cases c with
  | openSlot => rfl
  | fill values => rfl

theorem driven_eq (a : Traced α) (made : List (Nat × SlotCall)) :
    driven a made = ⟨a.booked, a.calls ++ made.map fun c => .toSlot c.1 c.2⟩ := by
  induction made generalizing a with
  | nil => simp [driven]
  | cons c made ih =>
    rw [driven, List.foldl_cons, ← driven, ih, perform_slotCall, note, List.append_assoc]
    rfl

end Traced

namespace Subscription

omit [Aggregation α] in
/-- The subscription with more calls written down. -/
def noted (s : Subscription (Traced α)) (calls : List ActionCall) : Subscription (Traced α) :=
  ⟨s.column, s.action.booked, s.action.calls ++ calls⟩

/-- Forgets the calls. -/
def untraced (s : Subscription (Traced α)) : Subscription α :=
  ⟨s.column, s.action.action⟩

theorem prepareAll_untraced (slots : Nat) (l : List (Subscription (Traced α))) :
    prepareAll slots (l.map untraced) =
      ((prepareAll slots l).1.map untraced, (prepareAll slots l).2) := by
  induction l with
  | nil => rfl
  | cons s rest ih =>
    have haction : (Aggregation.prepare slots s.action).action =
        Aggregation.prepare slots s.action.action := Traced.action_note _ _
    have hcount : Aggregation.slotCount (Aggregation.prepare slots s.action) =
        Aggregation.slotCount (Aggregation.prepare slots s.action.action) :=
      congrArg Aggregation.slotCount haction
    have hname : Aggregation.name (Aggregation.prepare slots s.action) =
        Aggregation.name (Aggregation.prepare slots s.action.action) :=
      congrArg Aggregation.name haction
    rw [List.map_cons, prepareAll, prepareAll, ih]
    show (if Aggregation.slotCount (Aggregation.prepare slots s.action.action) = slots then _
      else _) = _
    rw [hcount, hname]
    by_cases hslots : Aggregation.slotCount (Aggregation.prepare slots s.action.action) = slots
    · rw [if_pos hslots, if_pos hslots, List.map_cons, untraced, untraced, haction]
    · rw [if_neg hslots, if_neg hslots, List.map_cons, untraced, untraced, haction]

theorem performAll_untraced (l : List (Subscription (Traced α))) (log : List LoggedCall) :
    performAll (l.map untraced) log = (performAll l log).map untraced := by
  induction log generalizing l with
  | nil => rfl
  | cons e log ih =>
    have hstep : e.perform (l.map untraced) = (e.perform l).map untraced := by
      refine List.ext_getElem? fun k => ?_
      rw [LoggedCall.perform, LoggedCall.perform, List.getElem?_modify, List.getElem?_map,
        List.getElem?_map, List.getElem?_modify]
      cases l[k]? with
      | none => rfl
      | some s =>
        by_cases hk : e.subscription = k
        · simp [hk, untraced, Traced.perform_slotCall, Traced.action_note, ActionCall.perform]
        · simp [hk]
    rw [performAll, List.foldl_cons, hstep]
    exact ih _

theorem finishAll_untraced (l : List (Subscription (Traced α))) :
    finishAll (l.map untraced) = (finishAll l).map untraced := by
  rw [finishAll, finishAll, List.map_map, List.map_map]
  refine List.map_congr_left fun s _ => ?_
  have haction : (Aggregation.finish s.action).action = Aggregation.finish s.action.action :=
    Traced.action_note _ _
  rw [Function.comp_apply, Function.comp_apply, untraced, untraced, haction]

end Subscription

namespace EventTable

/-! ## Traced histories -/

omit [Aggregation α] in
/-- The operation with every aggregation to which no call was made so far. -/
def Operation.traced : Operation α → Operation (Traced α)
  | addColumn name values => .addColumn name values
  | defineColumn name kernel inputs => .defineColumn name kernel inputs
  | defineFormula name source => .defineFormula name source
  | filterRows name => .filterRows name
  | withThreads threads => .withThreads threads
  | subscribe name action => .subscribe name (.start action)
  | run => .run

/-- The same with aggregations that write down their calls. -/
def tracedHistory (rows : Nat) (ops : List (Operation α)) : EventTable (Traced α) :=
  history rows (ops.map Operation.traced)

/-- Forgets the calls. -/
def untraced (t : EventTable (Traced α)) : EventTable α where
  rows := t.rows
  threads := t.threads
  columns := t.columns
  filters := t.filters
  finished := t.finished.map Subscription.untraced
  pending := t.pending.map Subscription.untraced
  runs := t.runs

variable {t : EventTable (Traced α)} {name : String}

theorem untraced_insert (source : Source) :
    t.untraced.insert name source = (t.insert name source).map untraced := by
  unfold insert
  show (if t.hasColumn name = true then _ else _) = _
  by_cases h : t.hasColumn name = true
  · rw [if_pos h, if_pos h]
    rfl
  · rw [if_neg h, if_neg h]
    rfl

theorem untraced_addColumn (values : Array Float) :
    t.untraced.addColumn name values = (t.addColumn name values).map untraced := by
  unfold addColumn
  show (if values.size = t.rows then _ else _) = _
  by_cases h : values.size = t.rows
  · rw [if_pos h, if_pos h]
    exact untraced_insert _
  · rw [if_neg h, if_neg h]
    rfl

theorem untraced_defineColumn (kernel : Kernel) (inputs : List String) :
    t.untraced.defineColumn name kernel inputs =
      (t.defineColumn name kernel inputs).map untraced := by
  unfold defineColumn
  show (if t.hasColumn name = true then _ else inputs.mapM (t.idOfKind .scalar) >>= _) = _
  by_cases h : t.hasColumn name = true
  · rw [if_pos h, if_pos h]
    rfl
  · rw [if_neg h, if_neg h]
    cases inputs.mapM (t.idOfKind .scalar) with
    | error e => rfl
    | ok ids => exact untraced_insert _

theorem untraced_defineFormula (source : String) :
    t.untraced.defineFormula name source = (t.defineFormula name source).map untraced := by
  unfold defineFormula
  cases Formula.compile source with
  | error fault => rfl
  | ok formula => exact untraced_defineColumn _ _

theorem untraced_filterRows :
    t.untraced.filterRows name = (t.filterRows name).map untraced := by
  show (t.idOfKind .scalar name >>= _) = Except.map untraced (t.idOfKind .scalar name >>= _)
  cases t.idOfKind .scalar name with
  | error e => rfl
  | ok id => rfl

theorem untraced_subscribe (a : Traced α) :
    t.untraced.subscribe name a.action = (t.subscribe name a).map untraced := by
  show (t.idOfKind .vector name >>= _) = Except.map untraced (t.idOfKind .vector name >>= _)
  cases t.idOfKind .vector name with
  | error e => rfl
  | ok id =>
    show Except.ok _ = Except.ok _
    simp only [untraced, List.map_append, List.map_cons, List.map_nil, Subscription.untraced]

theorem untraced_settle (r : Except Error (EventTable (Traced α))) :
    (t.settle r).untraced = t.untraced.settle (r.map untraced) := by
  cases r with
  | error e => rfl
  | ok t' => rfl

theorem untraced_process [Machine] {subscriptions : List (Subscription (Traced α))}
    (hs : subscriptions.map Subscription.column = t.plan.wanted) :
    t.untraced.process (subscriptions.map .untraced) =
      (t.process subscriptions).map .untraced := by
  have hwanted : t.untraced.pending.map Subscription.column =
      t.pending.map Subscription.column := List.map_map
  have hplan : t.untraced.plan = t.plan := by
    unfold plan
    rw [hwanted]
    rfl
  have hs' : (subscriptions.map .untraced : List (Subscription α)).map Subscription.column =
      t.untraced.plan.wanted := by
    rw [hplan, ← hs, List.map_map]
    rfl
  rw [process_eq hs, process_eq hs', hplan, Subscription.performAll_untraced]
  rfl

/-- The event loop does not notice that calls are written down. -/
theorem untraced_run [Machine] :
    (Step.stateAfter run t).untraced = Step.stateAfter run t.untraced := by
  by_cases hp : t.pending = []
  · have hp' : t.untraced.pending = [] := List.map_eq_nil_iff.2 hp
    rw [Step.stateAfter_of_eq_ok (run_of_nil hp), Step.stateAfter_of_eq_ok (run_of_nil hp')]
  have hp' : t.untraced.pending ≠ [] := mt List.map_eq_nil_iff.1 hp
  cases hpool : Machine.poolFault? t.slotCount with
  | some reason =>
    rw [Step.stateAfter_of_eq_error (run_of_poolFault hp hpool),
      Step.stateAfter_of_eq_error (run_of_poolFault hp' hpool)]
  | none =>
    have hcolumns := columns_prepareAll t.slotCount t.pending
    have hprep' : Subscription.prepareAll t.untraced.slotCount t.untraced.pending = _ :=
      Subscription.prepareAll_untraced t.slotCount t.pending
    cases hprep : Subscription.prepareAll t.slotCount t.pending with
    | mk prepared fault =>
      rw [hprep] at hcolumns hprep'
      cases fault with
      | some fault =>
        rw [Step.stateAfter_of_eq_error (run_of_prepareAll_some hp hpool hprep),
          Step.stateAfter_of_eq_error (run_of_prepareAll_some hp' hpool hprep')]
        rfl
      | none =>
        rw [Step.stateAfter_of_eq_ok (run_of_prepareAll_none hp hpool hprep),
          Step.stateAfter_of_eq_ok (run_of_prepareAll_none hp' hpool hprep'),
          untraced_process hcolumns, Subscription.finishAll_untraced]
        simp only [untraced, List.map_append, List.map_nil]

theorem untraced_carryOut (op : Operation α) :
    (op.traced.carryOut t).untraced = op.carryOut t.untraced := by
  cases op with
  | addColumn name values =>
    rw [Operation.carryOut, untraced_addColumn, ← untraced_settle]
    rfl
  | defineColumn name kernel inputs =>
    rw [Operation.carryOut, untraced_defineColumn, ← untraced_settle]
    rfl
  | defineFormula name source =>
    rw [Operation.carryOut, untraced_defineFormula, ← untraced_settle]
    rfl
  | filterRows name =>
    rw [Operation.carryOut, untraced_filterRows, ← untraced_settle]
    rfl
  | withThreads threads => rfl
  | subscribe name action =>
    have hsubscribe : t.untraced.subscribe name action =
        (t.subscribe name (.start action)).map untraced := untraced_subscribe (.start action)
    rw [Operation.carryOut, hsubscribe, ← untraced_settle]
    rfl
  | run => exact untraced_run

theorem untraced_afterAll (ops : List (Operation α)) (t : EventTable (Traced α)) :
    (t.afterAll (ops.map .traced)).untraced = t.untraced.afterAll ops := by
  induction ops generalizing t with
  | nil => rfl
  | cons op ops ih =>
    rw [List.map_cons, afterAll, List.foldl_cons, ← afterAll, ih, untraced_carryOut]
    rfl

/-- Without the lists of calls, the traced history is the history. -/
theorem untraced_tracedHistory (rows : Nat) (ops : List (Operation α)) :
    (tracedHistory rows ops).untraced = history rows ops :=
  untraced_afterAll ops (ofRows rows)

theorem aggregation?_untraced (ticket : Nat) :
    t.untraced.aggregation? ticket = (t.aggregation? ticket).map Traced.action := by
  rw [aggregation?, aggregation?, untraced, ← List.map_append, List.getElem?_map, Option.map_map,
    Option.map_map]
  rfl

end EventTable

end VariHist
