import Mathlib
import VariHist.Proofs.Table.Columns
import VariHist.Table.Run

/-!
# Tables that can be reached

* `EventTable.Reachable` — the tables that come about by adding columns, setting filters,
  subscribing aggregations and running event loops, in any order and each loop on any machine.
* `EventTable.WellFormed` — the invariant: names are distinct, a stored column has a value for each
  row, a column reads scalar columns before it, filters are scalar columns and aggregations collect
  vector columns.  `Reachable.wellFormed` is the induction.
-/

namespace VariHist

/-- Every column reads scalar columns that stand before it. -/
def InputsBefore (columns : Array Column) : Prop :=
  ∀ (id : Nat) (c : Column), columns[id]? = some c →
    ∀ i ∈ c.source.inputs, i < id ∧ kindIn columns i = some .scalar

namespace EventTable

variable {α : Type}

/-- What holds of every table. -/
structure WellFormed (t : EventTable α) : Prop where
  names : t.columnNames.Nodup
  stored : ∀ (id : Nat) (c : Column) (values : Array Float), t.columns[id]? = some c →
    c.source = .stored values → values.size = t.rows
  inputs : InputsBefore t.columns
  filters : ∀ id ∈ t.filters, kindIn t.columns id = some .scalar
  subscriptions : ∀ s ∈ t.pending, kindIn t.columns s.column = some .vector

/-- The tables that come about by the operations on tables. -/
inductive Reachable [Aggregation α] : EventTable α → Prop
  | ofRows (rows : Nat) : Reachable (ofRows rows)
  | withThreads {t : EventTable α} (threads : Nat) (ht : Reachable t) :
    Reachable (t.withThreads threads)
  | addColumn {t t' : EventTable α} (name : String) (values : Array Float) (ht : Reachable t)
    (h : t.addColumn name values = .ok t') : Reachable t'
  | defineColumn {t t' : EventTable α} (name : String) (kernel : Kernel) (inputs : List String)
    (ht : Reachable t) (h : t.defineColumn name kernel inputs = .ok t') : Reachable t'
  | filterRows {t t' : EventTable α} (name : String) (ht : Reachable t)
    (h : t.filterRows name = .ok t') : Reachable t'
  | subscribe {t t' : EventTable α} (name : String) (action : α) (ht : Reachable t)
    (h : t.subscribe name action = .ok t') : Reachable t'
  | run [Machine] {t : EventTable α} (ht : Reachable t) : Reachable (Step.stateAfter run t)

variable {t t' : EventTable α} {name : String}

theorem Reachable.defineFormula [Aggregation α] {source : String} (ht : t.Reachable)
    (h : t.defineFormula name source = .ok t') : t'.Reachable := by
  obtain ⟨formula, -, h⟩ := exists_of_defineFormula h
  exact ht.defineColumn name formula.kernel formula.inputs h

theorem Reachable.ofColumns [Aggregation α] {columns : List (String × Array Float)}
    (h : ofColumns columns = .ok t) : t.Reachable := by
  have hfold : ∀ (cs : List (String × Array Float)) (s : EventTable α), s.Reachable →
      cs.foldlM (fun t c => t.addColumn c.1 c.2) s = .ok t → t.Reachable := by
    intro cs
    induction cs with
    | nil =>
      intro s hs h
      rw [← Except.ok.inj h]
      exact hs
    | cons c cs ih =>
      intro s hs h
      rw [List.foldlM_cons] at h
      cases hc : s.addColumn c.1 c.2 with
      | error e => rw [hc] at h; cases h
      | ok s' => rw [hc] at h; exact ih s' (hs.addColumn c.1 c.2 hc) h
  exact hfold columns _ (.ofRows _) h

/-! ## The invariant -/

theorem WellFormed.ofRows (rows : Nat) : (ofRows rows : EventTable α).WellFormed where
  names := List.nodup_nil
  stored := by simp [EventTable.ofRows]
  inputs := by simp [InputsBefore, EventTable.ofRows]
  filters := by simp [EventTable.ofRows]
  subscriptions := by simp [EventTable.ofRows]

/-- A column may be added if its name is free, it has a value for each row, and its inputs are
scalar. -/
theorem WellFormed.push (ht : t.WellFormed) {source : Source} (hname : t.idOf? name = none)
    (hstored : ∀ values, source = .stored values → values.size = t.rows)
    (hinputs : ∀ i ∈ source.inputs, kindIn t.columns i = some .scalar) :
    ({ t with columns := t.columns.push ⟨name, source⟩ } : EventTable α).WellFormed where
  names := by
    have hnew := idOf?_eq_none_iff.1 hname
    rw [columnNames, Array.toList_push, List.map_append, List.map_singleton,
      List.nodup_append_comm, List.singleton_append, List.nodup_cons]
    exact ⟨hnew, ht.names⟩
  stored id c values hc hs := by
    rw [Array.getElem?_push] at hc
    split at hc
    · rw [← Option.some.inj hc] at hs
      exact hstored values hs
    · exact ht.stored id c values hc hs
  inputs id c hc i hi := by
    have hscalar : ∀ i, kindIn t.columns i = some .scalar →
        i < t.columns.size ∧ kindIn (t.columns.push ⟨name, source⟩) i = some .scalar :=
      fun i h => ⟨kindIn_eq_some_lt h, kindIn_push_of_some ⟨name, source⟩ h⟩
    rw [Array.getElem?_push] at hc
    split at hc
    · rename_i hid
      rw [← Option.some.inj hc] at hi
      rw [hid]
      exact hscalar i (hinputs i hi)
    · exact ⟨(ht.inputs id c hc i hi).1, (hscalar i (ht.inputs id c hc i hi).2).2⟩
  filters id hid := kindIn_push_of_some _ (ht.filters id hid)
  subscriptions s hs := kindIn_push_of_some _ (ht.subscriptions s hs)

theorem WellFormed.addColumn {values : Array Float} (ht : t.WellFormed)
    (h : t.addColumn name values = .ok t') : t'.WellFormed := by
  obtain ⟨hsize, hname, rfl⟩ := addColumn_eq_ok_iff.1 h
  refine ht.push hname ?_ ?_
  · rintro _ ⟨⟩
    exact hsize
  · simp [Source.inputs]

theorem WellFormed.defineColumn {kernel : Kernel} {inputs : List String} (ht : t.WellFormed)
    (h : t.defineColumn name kernel inputs = .ok t') : t'.WellFormed := by
  obtain ⟨hname, ids, hids, rfl⟩ := defineColumn_eq_ok_iff.1 h
  refine ht.push hname ?_ ?_
  · rintro _ ⟨⟩
  · intro i hi
    obtain ⟨c, -, hc⟩ := forall₂_exists_of_mem_right hids hi
    exact (idOfKind_eq_ok_iff.1 hc).2

theorem WellFormed.filterRows (ht : t.WellFormed) (h : t.filterRows name = .ok t') :
    t'.WellFormed := by
  obtain ⟨id, hid, rfl⟩ := filterRows_eq_ok_iff.1 h
  refine ⟨ht.names, ht.stored, ht.inputs, ?_, ht.subscriptions⟩
  intro i hi
  rcases List.mem_append.1 hi with hi | hi
  · exact ht.filters i hi
  · rw [List.mem_singleton.1 hi]
    exact (idOfKind_eq_ok_iff.1 hid).2

theorem WellFormed.subscribe {action : α} (ht : t.WellFormed)
    (h : t.subscribe name action = .ok t') : t'.WellFormed := by
  obtain ⟨id, hid, rfl⟩ := subscribe_eq_ok_iff.1 h
  refine ⟨ht.names, ht.stored, ht.inputs, ht.filters, ?_⟩
  intro s hs
  rcases List.mem_append.1 hs with hs | hs
  · exact ht.subscriptions s hs
  · rw [List.mem_singleton.1 hs]
    exact (idOfKind_eq_ok_iff.1 hid).2

theorem columns_prepareAll [Aggregation α] (slots : Nat) (pending : List (Subscription α)) :
    (Subscription.prepareAll slots pending).1.map Subscription.column =
      pending.map Subscription.column := by
  induction pending with
  | nil => rfl
  | cons s rest ih =>
    unfold Subscription.prepareAll
    dsimp only
    split
    · rw [List.map_cons, List.map_cons, ih]
    · rfl

theorem WellFormed.run [Aggregation α] [Machine] (ht : t.WellFormed) :
    (Step.stateAfter EventTable.run t).WellFormed := by
  unfold Step.stateAfter EventTable.run
  by_cases hp : t.pending.isEmpty = true
  · rw [if_pos hp]
    exact ht
  · rw [if_neg hp]
    cases Machine.poolFault? t.slotCount with
    | some reason => exact ht
    | none =>
      have hcols := columns_prepareAll t.slotCount t.pending
      cases hprep : Subscription.prepareAll t.slotCount t.pending with
      | mk prepared fault =>
        rw [hprep] at hcols
        cases fault with
        | none => exact ⟨ht.names, ht.stored, ht.inputs, ht.filters, by simp⟩
        | some e =>
          refine ⟨ht.names, ht.stored, ht.inputs, ht.filters, ?_⟩
          intro s hs
          have hmem : s.column ∈ t.pending.map Subscription.column := by
            rw [← hcols]
            exact List.mem_map_of_mem hs
          obtain ⟨s', hs', heq⟩ := List.mem_map.1 hmem
          change kindIn t.columns s.column = _
          rw [← heq]
          exact ht.subscriptions s' hs'

/-- Every table that can be reached is well formed. -/
theorem Reachable.wellFormed [Aggregation α] (ht : t.Reachable) : t.WellFormed := by
  induction ht with
  | ofRows rows => exact WellFormed.ofRows rows
  | withThreads threads _ ih =>
    exact ⟨ih.names, ih.stored, ih.inputs, ih.filters, ih.subscriptions⟩
  | addColumn name values _ h ih => exact ih.addColumn h
  | defineColumn name kernel inputs _ h ih => exact ih.defineColumn h
  | filterRows name _ h ih => exact ih.filterRows h
  | subscribe name action _ h ih => exact ih.subscribe h
  | run _ ih => exact ih.run

end EventTable

end VariHist
