import Mathlib
import VariHist.Proofs.Table.History
import VariHist.Proofs.Table.Selections

/-!
# Filters in another order

What a table says about a column depends neither on the columns that are added later nor on the
order in which filters were set, nor on how often.  The schedules differ: filters decide which
columns are evaluated first, and every added column makes the buffers longer.

* `survivors_of_keepsColumns` — columns that are added change no listing.
* `survivors_of_filterRows` — a filter thins out every listing.
* `SameSelection` — two tables that differ in nothing but the order and the repetitions of their
  filters.  `SameSelection.carryOut` is the step and `SameSelection.afterAll` the induction.
* `Reachable.filters_commute` — the statements together, for every table that can be reached.
-/

namespace VariHist

open Aggregation

/-- Rows are kept by the filters, in whatever order and however often these are tried. -/
theorem passesOn_congr {columns : Array Column} {filters filters' : List Nat}
    (h : ∀ id, id ∈ filters' ↔ id ∈ filters) (row : Nat) :
    passesOn columns filters' row = passesOn columns filters row := by
  rw [Bool.eq_iff_iff, passesOn, passesOn, List.all_eq_true, List.all_eq_true]
  exact forall_congr' fun id => imp_congr_left (h id)

namespace EventTable

variable {α : Type} {t t' u v : EventTable α} {name : String} {row : Nat}

/-! ## Listings -/

/-- Columns that are added change no listing of a scalar column that was there. -/
theorem survivors_of_keepsColumns (h : t.KeepsColumns t') (hrows : t'.rows = t.rows)
    (hfilters : t'.filters = t.filters) (ht : t.WellFormed) (ht' : t'.WellFormed)
    (hname : t.kindOf? name = some .scalar) : t'.survivors name = t.survivors name := by
  have hkept : t'.keptOf (List.range t'.rows) = t.keptOf (List.range t.rows) := by
    rw [← filter_passesOn ht fun _ => List.mem_range.1, ← filter_passesOn ht' fun _ =>
      List.mem_range.1, hrows, hfilters]
    exact List.filter_congr fun row _ => h.passesOn ht.inputs ht.filters
  rw [survivors_eq ht hname, survivors_eq ht' (h.kindOf? hname), hkept]
  exact congrArg Except.ok (List.map_congr_left fun row _ =>
    numberOn_of_keepsColumns h ht.inputs ht'.inputs hname)

/-- A filter keeps those of the rows that were kept on which its column is greater than zero. -/
theorem keptOf_of_filterRows {filter : String} (ht : t.WellFormed)
    (h : t.filterRows filter = .ok t') :
    t'.keptOf (List.range t'.rows) =
      (t.keptOf (List.range t.rows)).filter fun row => 0 < t.numberOn row filter := by
  classical
  rw [rows_of_filterRows h, keptOf, keptOf, List.filter_filter]
  refine List.filter_congr fun row hrow => ?_
  rw [Bool.eq_iff_iff, decide_eq_true_iff, Bool.and_eq_true, decide_eq_true_iff, decide_eq_true_iff,
    keeps_of_filterRows ht h (List.mem_range.1 hrow), and_comm]

/-- A filter thins out every listing: what is left of it is what stands where the listing of the
filter is greater than zero. -/
theorem survivors_of_filterRows {filter : String} (ht : t.WellFormed)
    (h : t.filterRows filter = .ok t') (hname : t.kindOf? name = some .scalar) :
    ∃ values filters, t.survivors name = .ok values ∧ t.survivors filter = .ok filters ∧
      values.length = filters.length ∧
      t'.survivors name = .ok (((values.zip filters).filter fun p => 0 < p.2).map Prod.fst) := by
  obtain ⟨id, hid, -⟩ := filterRows_eq_ok_iff.1 h
  have ht' := ht.filterRows h
  have hk := keepsColumns_of_filterRows h
  refine ⟨_, _, survivors_eq ht hname, survivors_eq ht (kindOf?_eq_some_iff.2 ⟨id, hid⟩), ?_, ?_⟩
  · rw [List.length_map, List.length_map]
  · rw [survivors_eq ht' (hk.kindOf? hname), keptOf_of_filterRows ht h, List.zip_map',
      List.filter_map, List.map_map]
    exact congrArg Except.ok (List.map_congr_left fun row _ =>
      numberOn_of_keepsColumns hk ht.inputs ht'.inputs hname)

/-! ## Tables with the same selection -/

/-- The table with other filters. -/
def withFilters (t : EventTable α) (filters : List Nat) : EventTable α :=
  { t with filters }

/-- Two tables that differ in nothing but the order and the repetitions of their filters. -/
def SameSelection (u v : EventTable α) : Prop :=
  ∃ filters, v = u.withFilters filters ∧ ∀ id, id ∈ filters ↔ id ∈ u.filters

theorem SameSelection.survivors (hu : u.WellFormed) (hv : v.WellFormed) (h : u.SameSelection v)
    (name : String) : v.survivors name = u.survivors name := by
  obtain ⟨filters, rfl, hfilters⟩ := h
  cases hid : u.idOfKind .scalar name with
  | error e =>
    have hfault : ∀ w : EventTable α, w.idOfKind .scalar name = .error e →
        w.survivors name = .error e := fun w hw => bind_except_eq_error_iff.2 (.inl hw)
    rw [hfault u hid, hfault (u.withFilters filters) hid]
  | ok id =>
    have hname := kindOf?_eq_some_iff.2 ⟨id, hid⟩
    have hkept : (u.withFilters filters).keptOf (List.range u.rows) =
        u.keptOf (List.range u.rows) := by
      have hrows : ∀ row ∈ List.range u.rows, row < u.rows := fun _ => List.mem_range.1
      rw [← filter_passesOn hu hrows, ← filter_passesOn hv hrows]
      exact List.filter_congr fun row _ => passesOn_congr hfilters row
    rw [survivors_eq hu hname, survivors_eq hv hname]
    exact congrArg (fun rows => Except.ok (rows.map fun row => u.numberOn row name)) hkept

/-! ## Operations on tables with the same selection -/

/-- A change that neither looks at the filters nor changes them. -/
def IgnoresFilters (f : EventTable α → Except Error (EventTable α)) : Prop :=
  ∀ u u' filters, f u = .ok u' →
    u'.filters = u.filters ∧ f (u.withFilters filters) = .ok (u'.withFilters filters)

/-- Such a change can be made to both tables or to none. -/
theorem IgnoresFilters.settle {f : EventTable α → Except Error (EventTable α)}
    (hf : IgnoresFilters f) (h : u.SameSelection v) :
    (u.settle (f u)).SameSelection (v.settle (f v)) := by
  obtain ⟨filters, rfl, hfilters⟩ := h
  cases hu : f u with
  | ok u' =>
    obtain ⟨hkeep, hv⟩ := hf u u' filters hu
    rw [hv]
    exact ⟨filters, rfl, fun id => hkeep ▸ hfilters id⟩
  | error e =>
    cases hv : f (u.withFilters filters) with
    | ok v' =>
      obtain ⟨-, hu'⟩ := hf _ v' u.filters hv
      rw [show (u.withFilters filters).withFilters u.filters = u from rfl, hu] at hu'
      cases hu'
    | error e' => exact ⟨filters, rfl, hfilters⟩

theorem ignoresFilters_addColumn (name : String) (values : Array Float) :
    IgnoresFilters fun t : EventTable α => t.addColumn name values := by
  intro u u' filters h
  obtain ⟨hsize, hname, rfl⟩ := addColumn_eq_ok_iff.1 h
  exact ⟨rfl, addColumn_eq_ok_iff.2 ⟨hsize, hname, rfl⟩⟩

theorem ignoresFilters_defineColumn (name : String) (kernel : Kernel) (inputs : List String) :
    IgnoresFilters fun t : EventTable α => t.defineColumn name kernel inputs := by
  intro u u' filters h
  obtain ⟨hname, ids, hids, rfl⟩ := defineColumn_eq_ok_iff.1 h
  exact ⟨rfl, defineColumn_eq_ok_iff.2 ⟨hname, ids, hids, rfl⟩⟩

theorem ignoresFilters_defineFormula (name source : String) :
    IgnoresFilters fun t : EventTable α => t.defineFormula name source := by
  unfold defineFormula
  cases Formula.compile source with
  | error fault => exact fun u u' filters h => nomatch h
  | ok formula => exact ignoresFilters_defineColumn name formula.kernel formula.inputs

theorem ignoresFilters_subscribe (name : String) (action : α) :
    IgnoresFilters fun t : EventTable α => t.subscribe name action := by
  intro u u' filters h
  obtain ⟨id, hid, rfl⟩ := subscribe_eq_ok_iff.1 h
  exact ⟨rfl, subscribe_eq_ok_iff.2 ⟨id, hid, rfl⟩⟩

theorem SameSelection.filterRows (h : u.SameSelection v) (name : String) :
    (u.settle (u.filterRows name)).SameSelection (v.settle (v.filterRows name)) := by
  obtain ⟨filters, rfl, hfilters⟩ := h
  have hv : (u.withFilters filters).filterRows name = u.idOfKind .scalar name >>= fun id =>
      pure (u.withFilters (filters ++ [id])) := rfl
  rw [hv, EventTable.filterRows]
  cases u.idOfKind .scalar name with
  | error e => exact ⟨filters, rfl, hfilters⟩
  | ok id =>
    refine ⟨filters ++ [id], rfl, fun i => ?_⟩
    change i ∈ filters ++ [id] ↔ i ∈ u.filters ++ [id]
    rw [List.mem_append, List.mem_append, hfilters]

/-! ## Event loops -/

/-- A slot makes the same calls. -/
theorem callsOf_withFilters {filters : List Nat} (hu : u.WellFormed)
    (h : ∀ id, id ∈ filters ↔ id ∈ u.filters) (range : RowRange) :
    (u.withFilters filters).plan.callsOf range = u.plan.callsOf range := by
  have hwanted : ∀ id ∈ u.pending.map Subscription.column,
      kindIn u.columns id = some .vector := fun id hid => by
    obtain ⟨s, hs, rfl⟩ := List.mem_map.1 hid
    exact hu.subscriptions s hs
  have hcalls : ∀ fs : List Nat, (∀ id ∈ fs, kindIn u.columns id = some .scalar) → _ := fun fs hfs =>
    LoopPlan.callsFrom_eq hu.inputs hfs hwanted (.empty u.columns 0) range.rows
  rw [LoopPlan.callsOf, LoopPlan.callsOf]
  refine congrArg _ ?_
  refine (hcalls filters fun id hid => hu.filters id ((h id).1 hid)).trans ?_
  rw [List.filter_congr fun row _ => passesOn_congr h row]
  exact (hcalls u.filters hu.filters).symm

variable [Aggregation α]

/-- The aggregations end in the same state. -/
theorem process_withFilters [Machine] {filters : List Nat} (hu : u.WellFormed)
    (h : ∀ id, id ∈ filters ↔ id ∈ u.filters) {subscriptions : List (Subscription α)}
    (hs : subscriptions.map Subscription.column = u.plan.wanted) :
    (u.withFilters filters).process subscriptions = u.process subscriptions := by
  rw [process_eq hs, process_eq (t := u.withFilters filters) hs]
  refine congrArg (performAll subscriptions) ?_
  refine List.flatMap_congr fun e _ => ?_
  exact congrArg (logged e.2) (callsOf_withFilters hu h e.1)

theorem stateAfter_run_withFilters [Machine] {filters : List Nat} (hu : u.WellFormed)
    (h : ∀ id, id ∈ filters ↔ id ∈ u.filters) :
    Step.stateAfter run (u.withFilters filters) =
      (Step.stateAfter run u).withFilters filters := by
  by_cases hp : u.pending = []
  · rw [Step.stateAfter_of_eq_ok (run_of_nil hp),
      Step.stateAfter_of_eq_ok (run_of_nil (t := u.withFilters filters) hp)]
  cases hpool : Machine.poolFault? u.slotCount with
  | some reason =>
    rw [Step.stateAfter_of_eq_error (run_of_poolFault hp hpool),
      Step.stateAfter_of_eq_error (run_of_poolFault (t := u.withFilters filters) hp hpool)]
  | none =>
    cases hprep : Subscription.prepareAll u.slotCount u.pending with
    | mk prepared fault =>
      cases fault with
      | some fault =>
        rw [Step.stateAfter_of_eq_error (run_of_prepareAll_some hp hpool hprep),
          Step.stateAfter_of_eq_error
            (run_of_prepareAll_some (t := u.withFilters filters) hp hpool hprep)]
        rfl
      | none =>
        have hcolumns := columns_prepareAll u.slotCount u.pending
        rw [hprep] at hcolumns
        rw [Step.stateAfter_of_eq_ok (run_of_prepareAll_none hp hpool hprep),
          Step.stateAfter_of_eq_ok
            (run_of_prepareAll_none (t := u.withFilters filters) hp hpool hprep),
          process_withFilters hu h hcolumns]
        rfl

/-- Every operation does the same to tables with the same selection. -/
theorem SameSelection.carryOut (hu : u.WellFormed) (h : u.SameSelection v) (op : Operation α) :
    (op.carryOut u).SameSelection (op.carryOut v) := by
  cases op with
  | addColumn name values => exact (ignoresFilters_addColumn name values).settle h
  | defineColumn name kernel inputs =>
    exact (ignoresFilters_defineColumn name kernel inputs).settle h
  | defineFormula name source => exact (ignoresFilters_defineFormula name source).settle h
  | filterRows name => exact h.filterRows name
  | withThreads threads =>
    obtain ⟨filters, rfl, hfilters⟩ := h
    exact ⟨filters, rfl, hfilters⟩
  | subscribe name action => exact (ignoresFilters_subscribe name action).settle h
  | run =>
    obtain ⟨filters, rfl, hfilters⟩ := h
    refine ⟨filters, stateAfter_run_withFilters hu hfilters, fun id => ?_⟩
    obtain ⟨made, pending, runs, -, hafter⟩ := exists_stateAfter_run u
    rw [Operation.carryOut, hafter]
    exact hfilters id

/-- So does every sequence of operations. -/
theorem SameSelection.afterAll (hu : u.Reachable) (h : u.SameSelection v)
    (ops : List (Operation α)) : (u.afterAll ops).SameSelection (v.afterAll ops) := by
  induction ops generalizing u v with
  | nil => exact h
  | cons op ops ih => exact ih (hu.carryOut op) (h.carryOut hu.wellFormed op)

/-- When all work is done, each slot has made the same calls to each aggregation, in the same
order, whatever the orders in which the slots have worked. -/
theorem SameSelection.callsOf [Machine] (hu : u.WellFormed) (h : u.SameSelection v)
    {order order' : List Nat} (hd : (u.crew.follow u.plan order).Done u.plan)
    (hd' : (v.crew.follow v.plan order').Done v.plan)
    {slot : Nat} (hslot : slot < u.slotCount) (k : Nat) :
    (v.crew.follow v.plan order').callsOf slot k = (u.crew.follow u.plan order).callsOf slot k := by
  obtain ⟨filters, rfl, hfilters⟩ := h
  have hr : (RowRange.split u.rows u.slotCount)[slot]? =
      some (RowRange.ofSlot u.rows u.slotCount slot) := RowRange.getElem?_split u.rows hslot
  have hstart : ∀ w : EventTable α, Crew.Progress w.plan (RowRange.split w.rows w.slotCount)
      w.prepared w.crew := fun w => Crew.Progress.start _ _ _
  rw [((hstart u).follow order).callsOf_of_done hd hr,
    ((hstart (u.withFilters filters)).follow order').callsOf_of_done hd' hr,
    callsOf_withFilters hu hfilters]

/-! ## Sequences of filters -/

omit [Aggregation α] in
/-- The positions of those names that are names of scalar columns. -/
def scalarIds (t : EventTable α) (names : List String) : List Nat :=
  names.filterMap fun name => (t.idOfKind .scalar name).toOption

/-- Filters are added at the end, one after another, but for those that are refused. -/
theorem afterAll_filterRows (names : List String) (t : EventTable α) :
    t.afterAll (names.map .filterRows) = t.withFilters (t.filters ++ t.scalarIds names) := by
  induction names generalizing t with
  | nil => exact congrArg t.withFilters (List.append_nil _).symm
  | cons name names ih =>
    have hstep : t.afterAll ((name :: names).map .filterRows) =
        (t.settle (t.filterRows name)).afterAll (names.map .filterRows) := rfl
    rw [hstep, ih]
    cases hid : t.idOfKind .scalar name with
    | error e =>
      have hrefused : t.filterRows name = .error e := bind_except_eq_error_iff.2 (.inl hid)
      rw [hrefused, scalarIds, scalarIds, List.filterMap_cons, hid]
      rfl
    | ok id =>
      rw [filterRows_eq_ok_iff.2 ⟨id, hid, rfl⟩, scalarIds, scalarIds, List.filterMap_cons, hid]
      exact congrArg t.withFilters (List.append_assoc _ _ _)

/-- Filters on the same columns select the same. -/
theorem sameSelection_of_filters {names names' : List String} (t : EventTable α)
    (h : ∀ name, name ∈ names' ↔ name ∈ names) :
    (t.afterAll (names.map .filterRows)).SameSelection (t.afterAll (names'.map .filterRows)) := by
  rw [afterAll_filterRows, afterAll_filterRows]
  refine ⟨t.filters ++ t.scalarIds names', rfl, fun id => ?_⟩
  change id ∈ t.filters ++ t.scalarIds names' ↔ id ∈ t.filters ++ t.scalarIds names
  simp only [List.mem_append, scalarIds, List.mem_filterMap, h]

/-- Definitions are conservative and filters commute.  In every table that can be reached:

* a column that is added changes no listing of a scalar column that was there;
* a filter leaves of every listing what stands where the listing of the filter is greater than zero;
* filters on the same columns, in any order and with any repetitions, leave tables behind that
  differ in nothing but their lists of filters, also after any further operations.  Every column is
  listed in the same way, and each slot makes the same calls to each aggregation, in the same order.
-/
theorem Reachable.filters_commute [Machine] (ht : t.Reachable) :
    (∀ t' name, (∃ new values, t.addColumn new values = .ok t') ∨
        (∃ new kernel inputs, t.defineColumn new kernel inputs = .ok t') ∨
        (∃ new source, t.defineFormula new source = .ok t') →
      t.kindOf? name = some .scalar → t'.survivors name = t.survivors name) ∧
    (∀ filter t' name, t.filterRows filter = .ok t' → t.kindOf? name = some .scalar →
      ∃ values filters, t.survivors name = .ok values ∧ t.survivors filter = .ok filters ∧
        values.length = filters.length ∧
        t'.survivors name = .ok (((values.zip filters).filter fun p => 0 < p.2).map Prod.fst)) ∧
    ∀ (names names' : List String) (ops : List (Operation α)),
      (∀ name, name ∈ names' ↔ name ∈ names) →
      ∀ u v, u = (t.afterAll (names.map .filterRows)).afterAll ops →
        v = (t.afterAll (names'.map .filterRows)).afterAll ops →
        v = { u with filters := v.filters } ∧ (∀ name, v.survivors name = u.survivors name) ∧
        ∀ order order', (u.crew.follow u.plan order).Done u.plan →
          (v.crew.follow v.plan order').Done v.plan → ∀ slot < u.slotCount, ∀ k,
            (v.crew.follow v.plan order').callsOf slot k =
              (u.crew.follow u.plan order).callsOf slot k := by
  refine ⟨fun t' name hadd hname => ?_,
    fun filter t' name => survivors_of_filterRows ht.wellFormed, ?_⟩
  · rcases hadd with ⟨new, values, h⟩ | ⟨new, kernel, inputs, h⟩ | ⟨new, source, h⟩
    · obtain ⟨-, -, rfl⟩ := addColumn_eq_ok_iff.1 h
      exact survivors_of_keepsColumns (.push _) rfl rfl ht.wellFormed
        (ht.wellFormed.addColumn h) hname
    · obtain ⟨-, ids, -, rfl⟩ := defineColumn_eq_ok_iff.1 h
      exact survivors_of_keepsColumns (.push _) rfl rfl ht.wellFormed
        (ht.wellFormed.defineColumn h) hname
    · obtain ⟨formula, -, hdef⟩ := exists_of_defineFormula h
      obtain ⟨-, ids, -, rfl⟩ := defineColumn_eq_ok_iff.1 hdef
      exact survivors_of_keepsColumns (.push _) rfl rfl ht.wellFormed
        (ht.wellFormed.defineColumn hdef) hname
  · rintro names names' ops hnames u v rfl rfl
    have hfilters : ∀ names : List String, (t.afterAll (names.map .filterRows)).Reachable :=
      fun names => ht.afterAll _
    have hu := ((hfilters names).afterAll ops).wellFormed
    have hv := ((hfilters names').afterAll ops).wellFormed
    have hsame := (sameSelection_of_filters t hnames).afterAll (hfilters names) ops
    refine ⟨?_, hsame.survivors hu hv,
      fun order order' hd hd' slot hslot k => hsame.callsOf hu hd hd' hslot k⟩
    obtain ⟨filters, hv, -⟩ := hsame
    rw [hv]
    rfl

section Negated

attribute [local instance] Machine.oneThread

/-- Three rows, filtered on two columns in two ways, before an event loop and a definition. -/
theorem filters_commute_negated :
    ∃ t : EventTable Recorder, t.Reachable ∧
      (∃ t', t.defineColumn "z" (.constant 1) [] = .ok t' ∧
        t'.survivors "y" = t.survivors "y") ∧
      (∃ t' values filters, t.filterRows "y" = .ok t' ∧ t.survivors "x" = .ok values ∧
        t.survivors "y" = .ok filters ∧
        t'.survivors "x" = .ok (((values.zip filters).filter fun p => 0 < p.2).map Prod.fst)) ∧
      ((t.afterAll [.filterRows "x", .filterRows "y"]).afterAll
        [.run, .defineColumn "z" .concat ["y"]]).survivors "x" =
      ((t.afterAll [.filterRows "y", .filterRows "x", .filterRows "y"]).afterAll
        [.run, .defineColumn "z" .concat ["y"]]).survivors "x" := by
  have ht := negatedEvents_reachable
  have hx : (negatedEvents [0] [⟨2, Recorder.make "r" 0⟩]).kindOf? "x" = some .scalar := by
    decide +kernel
  have hy : (negatedEvents [0] [⟨2, Recorder.make "r" 0⟩]).kindOf? "y" = some .scalar := by
    decide +kernel
  obtain ⟨hadd, hfilter, hreorder⟩ := ht.filters_commute
  have hz : (negatedEvents [0] [⟨2, Recorder.make "r" 0⟩]).defineColumn "z" (.constant 1) [] =
      .ok _ := defineColumn_eq_ok_iff.2 ⟨by decide +kernel, [], .nil, rfl⟩
  obtain ⟨t', ht'⟩ := exists_filterRows hy
  obtain ⟨values, filters, hvalues, hfilters, -, hleft⟩ := hfilter "y" t' "x" ht' hx
  refine ⟨_, ht, ⟨_, hz, hadd _ "y" (.inr (.inl ⟨_, _, _, hz⟩)) hy⟩,
    ⟨t', values, filters, ht', hvalues, hfilters, hleft⟩, ?_⟩
  exact (hreorder ["y", "x", "y"] ["x", "y"] _ (by simp) _ _ rfl rfl).2.1 "x"

end Negated

end EventTable

end VariHist
