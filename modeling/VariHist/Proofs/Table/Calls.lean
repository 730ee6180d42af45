import Mathlib
import VariHist.Histogram.Slotted
import VariHist.Proofs.Table.Evaluation
import VariHist.Proofs.Table.RowRange
import VariHist.Table.Recorder

/-!
# The calls that a slot makes

* `SlotCall`, `LawfulAggregation` — a call made to one slot of an aggregation; calls to different
  slots do not disturb each other.
* `foldl_eq_of_filter_eq` — runs that agree on what each slot does end in the same state.
* `runSlot_eq` — the work of a slot, written as the calls that it makes.
* `callsFrom_eq` — these calls: one opening for each aggregation, and one fill for each
  aggregation and each row that passes the filters.
-/

namespace VariHist

open Aggregation

variable {α : Type} [Aggregation α]

/-! ## Calls to slots -/

/-- A call made to one slot of an aggregation. -/
inductive SlotCall where
  /-- The slot is opened. -/
  | openSlot
  /-- The slot is filled with the values of a row. -/
  | fill (values : List Float)

/-- Makes a call. -/
def SlotCall.perform (slot : Nat) : SlotCall → α → α
  | .openSlot => Aggregation.openSlot slot
  | .fill values => Aggregation.fill slot values

/-- Aggregations in which a call to one slot leaves the others alone. -/
class LawfulAggregation (α : Type) [Aggregation α] : Prop where
  perform_comm : ∀ (i j : Nat) (c d : SlotCall) (a : α), i ≠ j →
    c.perform i (d.perform j a) = d.perform j (c.perform i a)

theorem Array.modify_comm {β : Type} (a : Array β) (f g : β → β) {i j : Nat} (h : i ≠ j) :
    (a.modify j g).modify i f = (a.modify i f).modify j g := by
  refine Array.ext_getElem? fun k => ?_
  simp only [Array.getElem?_modify]
  by_cases hi : i = k
  · subst hi
    simp [Ne.symm h]
  · simp [hi]

/-- What a call does to the record of a slot. -/
def SlotCall.record : SlotCall → SlotRecord → SlotRecord
  | .openSlot, s => { s with opened := s.opened + 1 }
  | .fill values, s => { s with fills := s.fills.push values }

theorem Recorder.perform_eq (slot : Nat) (c : SlotCall) (r : Recorder) :
    c.perform slot r = { r with slots := r.slots.modify slot c.record } := by
  cases c <;> rfl

instance : LawfulAggregation Recorder where
  perform_comm i j c d r h := by
    simp only [Recorder.perform_eq, Array.modify_comm _ _ _ h]

instance {ν : Type} [FillNumber ν] : LawfulAggregation (SlottedHistogram ν) where
  perform_comm i j c d s h := by
    cases c with
    | openSlot => rfl
    | fill v =>
      cases d with
      | openSlot => rfl
      | fill w =>
        change (s.fill j w).fill i v = (s.fill i v).fill j w
        simp only [SlottedHistogram.fill, Array.modify_comm _ _ _ h]

theorem SlotCall.perform_inl {β γ : Type} [Aggregation β] [Aggregation γ] (slot : Nat)
    (c : SlotCall) (b : β) :
    c.perform slot (Sum.inl b : β ⊕ γ) = .inl (c.perform slot b) := by
  cases c <;> rfl

theorem SlotCall.perform_inr {β γ : Type} [Aggregation β] [Aggregation γ] (slot : Nat)
    (c : SlotCall) (b : γ) :
    c.perform slot (Sum.inr b : β ⊕ γ) = .inr (c.perform slot b) := by
  cases c <;> rfl

instance {β γ : Type} [Aggregation β] [Aggregation γ] [LawfulAggregation β]
    [LawfulAggregation γ] : LawfulAggregation (β ⊕ γ) where
  perform_comm i j c d a h := by
    cases a with
    | inl b => simp only [SlotCall.perform_inl, LawfulAggregation.perform_comm i j c d b h]
    | inr b => simp only [SlotCall.perform_inr, LawfulAggregation.perform_comm i j c d b h]

/-- A call made to one of the subscribed aggregations, with the slot that made it. -/
structure LoggedCall where
  slot : Nat
  /-- The number of the subscription. -/
  subscription : Nat
  call : SlotCall

/-- Makes a call to one of the subscribed aggregations. -/
def LoggedCall.perform (subscriptions : List (Subscription α)) (e : LoggedCall) :
    List (Subscription α) :=
  subscriptions.modify e.subscription fun s => { s with action := e.call.perform e.slot s.action }

theorem LoggedCall.perform_comm [LawfulAggregation α] (subscriptions : List (Subscription α))
    (e e' : LoggedCall) (h : e.slot ≠ e'.slot) :
    perform (perform subscriptions e) e' = perform (perform subscriptions e') e := by
  refine List.ext_getElem? fun k => ?_
  simp only [perform, List.getElem?_modify]
  by_cases hk : e.subscription = k
  · by_cases hk' : e'.subscription = k
    · cases subscriptions[k]? with
      | none => simp
      | some s =>
        simp [hk, hk', LawfulAggregation.perform_comm e.slot e'.slot e.call e'.call s.action h]
    · simp [hk, hk']
  · simp [hk]

/-! ## Runs that agree on each slot -/

/-- If steps of different tags may be swapped, a run is fixed by what it does under each tag. -/
theorem foldl_eq_of_filter_eq {σ ε τ : Type} [DecidableEq τ] {f : σ → ε → σ} {tag : ε → τ}
    (hcomm : ∀ s a b, tag a ≠ tag b → f (f s a) b = f (f s b) a) {l l' : List ε}
    (h : ∀ t, (l.filter fun e => tag e = t) = l'.filter fun e => tag e = t) (s : σ) :
    l.foldl f s = l'.foldl f s := by
  induction l generalizing l' s with
  | nil =>
    cases l' with
    | nil => rfl
    | cons b l' =>
      have hb := h (tag b)
      rw [List.filter_cons_of_pos (by simp)] at hb
      cases hb
  | cons a l ih =>
    have ha := (h (tag a)).symm
    rw [List.filter_cons_of_pos (by simp)] at ha
    obtain ⟨p, q, rfl, hp, -, hq⟩ := List.filter_eq_cons_iff.1 ha
    -- what stands before `a` in the other run has other tags, so `a` may come first
    have hfront : ∀ (p : List ε) (s : σ), (∀ x ∈ p, tag x ≠ tag a) →
        (p ++ a :: q).foldl f s = (p ++ q).foldl f (f s a) := by
      intro p
      induction p with
      | nil => intro s _; rfl
      | cons x p ihp =>
        intro s hx
        rw [List.cons_append, List.foldl_cons, ihp _ fun y hy => hx y (List.mem_cons_of_mem _ hy),
          hcomm s x a (hx x List.mem_cons_self)]
        rfl
    have hp' : ∀ x ∈ p, tag x ≠ tag a := fun x hx => by simpa using hp x hx
    rw [hfront p s hp', List.foldl_cons]
    refine ih (fun t => ?_) (f s a)
    by_cases ht : tag a = t
    · subst ht
      have hnone : (p.filter fun e => tag e = tag a) = [] :=
        List.filter_eq_nil_iff.2 fun x hx => by simpa using hp' x hx
      rw [List.filter_append, hnone, hq]
      rfl
    · have ht' := h t
      rw [List.filter_cons_of_neg (by simpa using ht), List.filter_append,
        List.filter_cons_of_neg (by simpa using ht), ← List.filter_append] at ht'
      exact ht'

/-! ## The work of a slot as calls -/

/-- Makes calls one after another. -/
def performAll (subscriptions : List (Subscription α)) (log : List LoggedCall) :
    List (Subscription α) :=
  log.foldl LoggedCall.perform subscriptions

/-- The calls of one slot, each with the number of its subscription. -/
def logged (slot : Nat) (calls : List (Nat × SlotCall)) : List LoggedCall :=
  calls.map fun c => ⟨slot, c.1, c.2⟩

theorem performAll_append (subscriptions : List (Subscription α)) (log more : List LoggedCall) :
    performAll subscriptions (log ++ more) = performAll (performAll subscriptions log) more :=
  List.foldl_append

/-- What is fixed while the rows are worked through. -/
structure LoopPlan where
  columns : Array Column
  schedule : Schedule
  /-- The columns of the subscriptions. -/
  wanted : List Nat

namespace LoopPlan

/-- One call for each subscription. -/
def callEach (p : LoopPlan) (call : Nat → SlotCall) : List (Nat × SlotCall) :=
  p.wanted.zipIdx.map fun (id, k) => (k, call id)

/-- The calls for the row at hand. -/
def fillCalls (p : LoopPlan) (b : RowBuffers) : List (Nat × SlotCall) :=
  p.callEach fun id => .fill (b.vector id)

/-- The calls for some rows, starting with what is in the buffers. -/
def callsFrom (p : LoopPlan) : RowBuffers → List Nat → List (Nat × SlotCall)
  | _, [] => []
  | b, row :: rows =>
    let (b, kept) := RowBuffers.evalRow p.columns p.schedule b row
    (if kept then p.fillCalls b else []) ++ p.callsFrom b rows

/-- All calls of a slot, in order. -/
def callsOf (p : LoopPlan) (range : RowRange) : List (Nat × SlotCall) :=
  p.callEach (fun _ => .openSlot) ++ p.callsFrom (.empty p.columns.size) range.rows

end LoopPlan

namespace Subscription

theorem columns_perform (subscriptions : List (Subscription α)) (e : LoggedCall) :
    (e.perform subscriptions).map column = subscriptions.map column := by
  refine List.ext_getElem? fun k => ?_
  rw [LoggedCall.perform, List.getElem?_map, List.getElem?_map, List.getElem?_modify]
  cases subscriptions[k]? with
  | none => rfl
  | some s => by_cases h : e.subscription = k <;> simp [h]

theorem columns_performAll (subscriptions : List (Subscription α)) (log : List LoggedCall) :
    (performAll subscriptions log).map column = subscriptions.map column := by
  induction log generalizing subscriptions with
  | nil => rfl
  | cons e log ih => exact (ih _).trans (columns_perform subscriptions e)

/-- A call made to one subscription after another is a call made to all. -/
theorem performAll_zipIdx (slot : Nat) (call : Nat → SlotCall)
    (before subscriptions : List (Subscription α)) :
    performAll (before ++ subscriptions)
        (logged slot (((subscriptions.map column).zipIdx before.length).map fun c =>
          (c.2, call c.1))) =
      before ++ subscriptions.map fun s =>
        { s with action := (call s.column).perform slot s.action } := by
  induction subscriptions generalizing before with
  | nil => simp [performAll, logged]
  | cons s rest ih =>
    have hfirst : LoggedCall.perform (before ++ s :: rest) ⟨slot, before.length, call s.column⟩ =
        (before ++ [{ s with action := (call s.column).perform slot s.action }]) ++ rest := by
      refine (List.modifyTailIdx_add _ 0 before (s :: rest)).trans ?_
      rw [List.append_assoc]
      rfl
    have hrest := ih (before ++ [{ s with action := (call s.column).perform slot s.action }])
    rw [List.length_append, List.length_singleton] at hrest
    rw [List.map_cons, List.zipIdx_cons, List.map_cons, logged, List.map_cons, ← logged, performAll,
      List.foldl_cons, hfirst, ← performAll, hrest, List.append_assoc]
    rfl

theorem performAll_callEach {p : LoopPlan} {subscriptions : List (Subscription α)}
    (hw : subscriptions.map column = p.wanted) (slot : Nat) (call : Nat → SlotCall) :
    performAll subscriptions (logged slot (p.callEach call)) =
      subscriptions.map fun s => { s with action := (call s.column).perform slot s.action } := by
  rw [LoopPlan.callEach, ← hw]
  exact performAll_zipIdx slot call [] subscriptions

theorem foldl_rows_eq {p : LoopPlan} {subscriptions : List (Subscription α)}
    (hw : subscriptions.map column = p.wanted) (slot : Nat) (rows : List Nat) (b : RowBuffers) :
    (rows.foldl (fun (subscriptions, buffers) row =>
      let (buffers, kept) := RowBuffers.evalRow p.columns p.schedule buffers row
      (if kept then fillAll slot buffers subscriptions else subscriptions, buffers))
        (subscriptions, b)).1 =
      performAll subscriptions (logged slot (p.callsFrom b rows)) := by
  induction rows generalizing subscriptions b with
  | nil => rfl
  | cons row rows ih =>
    rw [List.foldl_cons, LoopPlan.callsFrom]
    dsimp only
    cases hrow : RowBuffers.evalRow p.columns p.schedule b row with
    | mk b' kept =>
      cases kept with
      | false => exact ih hw b'
      | true =>
        have hfill : fillAll slot b' subscriptions =
            performAll subscriptions (logged slot (p.fillCalls b')) :=
          (performAll_callEach hw slot fun id => .fill (b'.vector id)).symm
        have hw' : (fillAll slot b' subscriptions).map column = p.wanted := by
          rw [hfill, columns_performAll, hw]
        refine (ih hw' b').trans ?_
        rw [hfill, ← performAll_append, logged, logged, ← List.map_append]
        rfl

/-- The work of a slot is the calls that it makes. -/
theorem runSlot_eq {p : LoopPlan} {subscriptions : List (Subscription α)}
    (hw : subscriptions.map column = p.wanted) (slot : Nat) (range : RowRange) :
    runSlot p.columns p.schedule slot range subscriptions =
      performAll subscriptions (logged slot (p.callsOf range)) := by
  have hopen : openAll slot subscriptions =
      performAll subscriptions (logged slot (p.callEach fun _ => .openSlot)) :=
    (performAll_callEach hw slot fun _ => .openSlot).symm
  have hw' : (openAll slot subscriptions).map column = p.wanted := by
    rw [hopen, columns_performAll, hw]
  rw [LoopPlan.callsOf, logged, List.map_append, ← logged, ← logged, performAll_append, ← hopen]
  exact foldl_rows_eq hw' slot range.rows _

end Subscription

/-! ## Which calls they are -/

/-- The calls made to one subscription. -/
def callsTo (k : Nat) (calls : List (Nat × SlotCall)) : List SlotCall :=
  (calls.filter fun c => c.1 = k).map Prod.snd

theorem callsTo_append (k : Nat) (calls more : List (Nat × SlotCall)) :
    callsTo k (calls ++ more) = callsTo k calls ++ callsTo k more := by
  rw [callsTo, List.filter_append, List.map_append]
  rfl

namespace LoopPlan

variable {p : LoopPlan} {k id : Nat}

/-- Of one call for each subscription, one goes to each. -/
theorem callsTo_callEach (hk : p.wanted[k]? = some id) (call : Nat → SlotCall) :
    callsTo k (p.callEach call) = [call id] := by
  have hzip : ∀ (wanted : List Nat) (n k : Nat), wanted[k]? = some id →
      callsTo (n + k) ((wanted.zipIdx n).map fun (id, k) => (k, call id)) = [call id] := by
    intro wanted
    induction wanted with
    | nil => simp
    | cons w wanted ih =>
      intro n k hk
      rw [List.zipIdx_cons, List.map_cons, callsTo, List.filter_cons]
      cases k with
      | zero =>
        have hlater : ((wanted.zipIdx (n + 1)).map fun (id, k) => (k, call id)).filter
            (fun c => c.1 = n) = [] := by
          rw [List.filter_eq_nil_iff]
          rintro ⟨j, c⟩ hc
          obtain ⟨⟨i, j'⟩, hmem, heq⟩ := List.mem_map.1 hc
          have hle := List.le_snd_of_mem_zipIdx hmem
          cases heq
          simp only [decide_eq_true_eq]
          omega
        rw [List.getElem?_cons_zero] at hk
        simp [hlater, Option.some.inj hk]
      | succ k =>
        rw [List.getElem?_cons_succ] at hk
        rw [if_neg (by simp), ← callsTo, ← ih (n + 1) k hk]
        congr 1
        omega
  have := hzip p.wanted 0 k hk
  rwa [Nat.zero_add] at this

/-- A row of which the wanted columns are known is filled into each subscription if it is kept. -/
theorem callsFrom_eq {columns : Array Column} {filters wanted : List Nat}
    (hc : InputsBefore columns) (hf : ∀ id ∈ filters, kindIn columns id = some .scalar)
    (hw : ∀ id ∈ wanted, kindIn columns id = some .vector) {b : RowBuffers} {row : Nat}
    (h : b.Holds columns row fun _ => False) (rows : List Nat) :
    (LoopPlan.mk columns (.make columns filters wanted) wanted).callsFrom b rows =
      (rows.filter (passesOn columns filters)).flatMap fun row =>
        (LoopPlan.mk columns (.make columns filters wanted) wanted).callEach
          fun id => .fill (vectorOn columns row id) := by
  induction rows generalizing b row with
  | nil => rfl
  | cons r rows ih =>
    obtain ⟨hkept, hvalues⟩ := (h.forget r).evalRow_make hc hf
      (fun id hid => kindIn_eq_some_lt (hw id hid))
    rw [callsFrom]
    dsimp only
    cases hrow : RowBuffers.evalRow columns (.make columns filters wanted) b r with
    | mk b' kept =>
      rw [hrow] at hkept hvalues
      rw [ih (hvalues.forget r)]
      cases hpass : passesOn columns filters r with
      | false =>
        rw [hpass] at hkept
        rw [List.filter_cons_of_neg (by simp [hpass])]
        simp only at hkept
        simp [hkept]
      | true =>
        rw [hpass] at hkept
        simp only at hkept
        rw [List.filter_cons_of_pos hpass, List.flatMap_cons, hkept, if_pos rfl]
        refine congrArg (· ++ _) ?_
        refine List.map_congr_left fun c hcm => ?_
        have hmem : c.1 ∈ wanted := List.fst_mem_of_mem_zipIdx hcm
        have hvalue := hvalues.vector c.1 ⟨hpass, hmem⟩ (hw c.1 hmem)
        exact congrArg (fun v => (c.2, SlotCall.fill v)) hvalue

/-- What a slot does with one subscription: it opens it, and then fills it with the column's value
on each of its rows that is kept. -/
theorem callsTo_callsOf {columns : Array Column} {filters wanted : List Nat}
    (hc : InputsBefore columns) (hf : ∀ id ∈ filters, kindIn columns id = some .scalar)
    (hw : ∀ id ∈ wanted, kindIn columns id = some .vector) (hk : wanted[k]? = some id)
    (range : RowRange) :
    callsTo k ((LoopPlan.mk columns (.make columns filters wanted) wanted).callsOf range) =
      .openSlot :: (range.rows.filter (passesOn columns filters)).map fun row =>
        .fill (vectorOn columns row id) := by
  have hfills : ∀ rows : List Nat, callsTo k (rows.flatMap fun row =>
      (LoopPlan.mk columns (.make columns filters wanted) wanted).callEach
        fun id => .fill (vectorOn columns row id)) =
      rows.map fun row => .fill (vectorOn columns row id) := by
    intro rows
    induction rows with
    | nil => rfl
    | cons row rows ih =>
      rw [List.flatMap_cons, callsTo_append, ih, callsTo_callEach hk]
      rfl
  rw [callsOf, callsTo_append, callsTo_callEach hk, callsFrom_eq hc hf hw (.empty columns 0),
    hfills]
  rfl

end LoopPlan

end VariHist
