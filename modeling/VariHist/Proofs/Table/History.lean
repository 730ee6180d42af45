import Mathlib
import VariHist.Proofs.Step
import VariHist.Proofs.Table.Outcome
import VariHist.Proofs.Table.Reachable

/-!
# Histories of a table

* `EventTable.Operation`, `history` — sequences of operations on a table, failing ones included.
* `books_carryOut` — every operation but an event loop books at most a few aggregations.
* `finished_afterAll`, `subscription?_afterAll` — what is finished is not touched again.
-/

namespace VariHist

variable {α : Type} [Aggregation α]

namespace EventTable

/-- The operations on a table, with aggregations of type `α` to book.  Each event loop has a machine
of its own. -/
inductive Operation (α : Type) where
  | addColumn (name : String) (values : Array Float)
  | defineColumn (name : String) (kernel : Kernel) (inputs : List String)
  | defineFormula (name source : String)
  | filterRows (name : String)
  | withThreads (threads : Nat)
  | subscribe (name : String) (action : α)
  | run [machine : Machine]

omit [Aggregation α] in
/-- A change that is refused leaves the table as it was. -/
def settle (t : EventTable α) : Except Error (EventTable α) → EventTable α
  | .ok t' => t'
  | .error _ => t

namespace Operation

/-- What an operation leaves behind, whether it succeeds or not. -/
def carryOut (t : EventTable α) : Operation α → EventTable α
  | addColumn name values => t.settle (t.addColumn name values)
  | defineColumn name kernel inputs => t.settle (t.defineColumn name kernel inputs)
  | defineFormula name source => t.settle (t.defineFormula name source)
  | filterRows name => t.settle (t.filterRows name)
  | withThreads threads => t.withThreads threads
  | subscribe name action => t.settle (t.subscribe name action)
  | run => Step.stateAfter EventTable.run t

end Operation

/-- What a sequence of operations leaves behind. -/
def afterAll (t : EventTable α) (ops : List (Operation α)) : EventTable α :=
  ops.foldl Operation.carryOut t

/-- A table of some rows after a sequence of operations. -/
def history (rows : Nat) (ops : List (Operation α)) : EventTable α :=
  (ofRows rows).afterAll ops

/-! ## One operation -/

variable {u u' : EventTable α} {k : Nat}

omit [Aggregation α] in
/-- A change that books at most a few aggregations, and leaves the others alone. -/
def Books (u u' : EventTable α) : Prop :=
  u'.finished = u.finished ∧ u'.runs = u.runs ∧ ∃ new, u'.pending = u.pending ++ new

omit [Aggregation α] in
theorem Books.settle {r : Except Error (EventTable α)} (h : ∀ u', r = .ok u' → u.Books u') :
    u.Books (u.settle r) := by
  cases r with
  | error e => exact ⟨rfl, rfl, [], (List.append_nil _).symm⟩
  | ok u' => exact h u' rfl

omit [Aggregation α] in
theorem Books.of_defineColumn {name : String} {kernel : Kernel} {inputs : List String}
    (h : u.defineColumn name kernel inputs = .ok u') : u.Books u' := by
  obtain ⟨-, ids, -, rfl⟩ := defineColumn_eq_ok_iff.1 h
  exact ⟨rfl, rfl, [], (List.append_nil _).symm⟩

/-- Every operation but an event loop books at most a few aggregations. -/
theorem books_carryOut (op : Operation α) (u : EventTable α) :
    (∃ _ : Machine, op = .run) ∨ u.Books (op.carryOut u) := by
  cases op with
  | addColumn name values =>
    refine Or.inr (Books.settle fun u' h => ?_)
    obtain ⟨-, -, rfl⟩ := addColumn_eq_ok_iff.1 h
    exact ⟨rfl, rfl, [], (List.append_nil _).symm⟩
  | defineColumn name kernel inputs => exact Or.inr (Books.settle fun u' => Books.of_defineColumn)
  | defineFormula name source =>
    refine Or.inr (Books.settle fun u' h => ?_)
    obtain ⟨formula, -, h⟩ := exists_of_defineFormula h
    exact Books.of_defineColumn h
  | filterRows name =>
    refine Or.inr (Books.settle fun u' h => ?_)
    obtain ⟨id, -, rfl⟩ := filterRows_eq_ok_iff.1 h
    exact ⟨rfl, rfl, [], (List.append_nil _).symm⟩
  | withThreads threads => exact Or.inr ⟨rfl, rfl, [], (List.append_nil _).symm⟩
  | subscribe name action =>
    refine Or.inr (Books.settle fun u' h => ?_)
    obtain ⟨id, -, rfl⟩ := subscribe_eq_ok_iff.1 h
    exact ⟨rfl, rfl, _, rfl⟩
  | run => exact Or.inl ⟨_, rfl⟩

theorem Reachable.settle {r : Except Error (EventTable α)} (hu : u.Reachable)
    (h : ∀ u', r = .ok u' → u'.Reachable) : (u.settle r).Reachable := by
  cases r with
  | error e => exact hu
  | ok u' => exact h u' rfl

theorem Reachable.carryOut (hu : u.Reachable) (op : Operation α) : (op.carryOut u).Reachable := by
  cases op with
  | addColumn name values => exact hu.settle fun u' h => hu.addColumn name values h
  | defineColumn name kernel inputs =>
    exact hu.settle fun u' h => hu.defineColumn name kernel inputs h
  | defineFormula name source => exact hu.settle fun u' h => hu.defineFormula h
  | filterRows name => exact hu.settle fun u' h => hu.filterRows name h
  | withThreads threads => exact hu.withThreads threads
  | subscribe name action => exact hu.settle fun u' h => hu.subscribe name action h
  | run => exact hu.run

theorem Reachable.afterAll (hu : u.Reachable) (ops : List (Operation α)) :
    (u.afterAll ops).Reachable := by
  induction ops generalizing u with
  | nil => exact hu
  | cons op ops ih => exact ih (hu.carryOut op)

/-- What is finished stays as it is. -/
theorem finished_carryOut (op : Operation α) (u : EventTable α) :
    (∃ made, (op.carryOut u).finished = u.finished ++ made) ∧ u.runs ≤ (op.carryOut u).runs := by
  rcases books_carryOut op u with ⟨machine, rfl⟩ | ⟨hfinished, hruns, -⟩
  · show (∃ made, (Step.stateAfter run u).finished = _) ∧ _ ≤ (Step.stateAfter run u).runs
    obtain ⟨made, pending, runs, hruns, h⟩ := exists_stateAfter_run u
    rw [h]
    exact ⟨⟨made, rfl⟩, hruns⟩
  · exact ⟨⟨[], by rw [hfinished, List.append_nil]⟩, hruns.ge⟩

theorem finished_afterAll (ops : List (Operation α)) (u : EventTable α) :
    (∃ made, (u.afterAll ops).finished = u.finished ++ made) ∧ u.runs ≤ (u.afterAll ops).runs := by
  induction ops generalizing u with
  | nil => exact ⟨⟨[], (List.append_nil _).symm⟩, le_rfl⟩
  | cons op ops ih =>
    obtain ⟨⟨made, hmade⟩, hruns⟩ := finished_carryOut op u
    obtain ⟨⟨more, hmore⟩, hmoreRuns⟩ := ih (op.carryOut u)
    refine ⟨⟨made ++ more, ?_⟩, hruns.trans hmoreRuns⟩
    rw [← List.append_assoc, ← hmade]
    exact hmore

omit [Aggregation α] in
/-- The subscription of a ticket. -/
def subscription? (u : EventTable α) (ticket : Nat) : Option (Subscription α) :=
  (u.finished ++ u.pending)[ticket]?

omit [Aggregation α] in
theorem subscription?_finished (hk : k < u.finished.length) :
    u.subscription? k = u.finished[k]? :=
  List.getElem?_append_left hk

omit [Aggregation α] in
theorem subscription?_pending (hk : u.finished.length ≤ k) :
    u.subscription? k = u.pending[k - u.finished.length]? :=
  List.getElem?_append_right hk

omit [Aggregation α] in
/-- A subscription that waits is not touched by booking others. -/
theorem Books.subscription? (h : u.Books u') (hk : u.finished.length ≤ k) {s : Subscription α}
    (hs : u.subscription? k = some s) :
    u'.runs = u.runs ∧ u'.finished.length ≤ k ∧ u'.subscription? k = some s := by
  obtain ⟨hfinished, hruns, new, hpending⟩ := h
  rw [subscription?_pending hk] at hs
  have hk' : u'.finished.length ≤ k := hfinished ▸ hk
  refine ⟨hruns, hk', ?_⟩
  rw [subscription?_pending hk', hfinished, hpending,
    List.getElem?_append_left (List.getElem?_eq_some_iff.1 hs).1, hs]

/-- A subscription that waits is prepared at most by an event loop that is refused. -/
theorem subscription?_of_run_eq_error [Machine] {e : Error} (h : run u = .error e u')
    (hk : u.finished.length ≤ k) {s : Subscription α} (hs : u.subscription? k = some s) :
    u'.finished.length ≤ k ∧ (u'.subscription? k = some s ∨
      u'.subscription? k = some { s with action := Aggregation.prepare u.slotCount s.action }) := by
  rcases run_cases u with ⟨-, hrun⟩ | ⟨reason, -, -, hrun⟩ |
    ⟨before, s', after, hpending, -, -, -, hrun⟩ | ⟨-, -, -, hrun⟩
  · rw [h] at hrun
    cases hrun
  · rw [h] at hrun
    cases hrun
    exact ⟨hk, .inl hs⟩
  · rw [h] at hrun
    cases hrun
    rw [subscription?_pending hk, hpending] at hs
    refine ⟨hk, ?_⟩
    rw [subscription?_pending (by exact hk)]
    exact (getElem?_map_append hs).symm
  · rw [h] at hrun
    cases hrun

/-- A subscription that is finished is not touched again. -/
theorem subscription?_afterAll (hk : k < u.finished.length) (ops : List (Operation α)) :
    (u.afterAll ops).subscription? k = u.subscription? k := by
  obtain ⟨⟨made, hmade⟩, -⟩ := finished_afterAll ops u
  have hk' : k < (u.afterAll ops).finished.length := by
    rw [hmade, List.length_append]
    omega
  rw [subscription?_finished hk', subscription?_finished hk, hmade, List.getElem?_append_left hk]

end EventTable

end VariHist
