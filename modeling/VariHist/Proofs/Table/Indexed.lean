import Mathlib
import VariHist.Proofs.Table.History
import VariHist.Proofs.Table.Values
import VariHist.Table.Indexed

/-!
# The index of a table

A table with an index does what a table that searches its columns does, and its index is right in
every state that calls can lead to.

* `InStep` — the invariant: the index has the positions that a search finds, and the kinds are those
  of the columns.
* `Mirrors` — a step does to a table with an index what another step does to the table alone, and
  keeps the invariant; `mirrors_perform` says it of every operation.
* `failsUnchanged_perform` — an operation that is refused has not changed anything.
* `Sound` — what the invariant comes to, without the search; `history_sound` is the induction over
  the calls.
-/

namespace VariHist

variable {α β : Type}

/-! ## Operations as steps -/

namespace EventTable.Operation

variable [Aggregation α]

/-- An operation as a step. -/
def step : Operation α → Step (EventTable α) Unit
  | addColumn name values => Step.attempt fun t => t.addColumn name values
  | defineColumn name kernel inputs => Step.attempt fun t => t.defineColumn name kernel inputs
  | defineFormula name source => Step.attempt fun t => t.defineFormula name source
  | filterRows name => Step.attempt fun t => t.filterRows name
  | withThreads threads => modify fun t => t.withThreads threads
  | subscribe name action => Step.attempt fun t => t.subscribe name action
  | run => EventTable.run

omit [Aggregation α] in
theorem settle_eq (f : EventTable α → Except Error (EventTable α)) (t : EventTable α) :
    t.settle (f t) = Step.stateAfter (Step.attempt f) t := by
  unfold Step.stateAfter Step.attempt
  cases f t with
  | error e => rfl
  | ok t' => rfl

/-- What an operation leaves behind is the state after its step. -/
theorem carryOut_eq (op : Operation α) (t : EventTable α) :
    op.carryOut t = Step.stateAfter op.step t := by
  cases op with
  | addColumn name values => exact settle_eq (fun t => t.addColumn name values) t
  | defineColumn name kernel inputs => exact settle_eq (fun t => t.defineColumn name kernel inputs) t
  | defineFormula name source => exact settle_eq (fun t => t.defineFormula name source) t
  | filterRows name => exact settle_eq (fun t => t.filterRows name) t
  | withThreads threads => rfl
  | subscribe name action => exact settle_eq (fun t => t.subscribe name action) t
  | run => rfl

end EventTable.Operation

namespace IndexedTable

variable {t t' : IndexedTable α} {name : String} {kind : ColumnKind}

/-- An operation, on a table with an index. -/
def perform [Aggregation α] : EventTable.Operation α → Step (IndexedTable α) Unit
  | .addColumn name values => addColumn name values
  | .defineColumn name kernel inputs => defineColumn name kernel inputs
  | .defineFormula name source => defineFormula name source
  | .filterRows name => filterRows name
  | .withThreads threads => withThreads threads
  | .subscribe name action => subscribe name action
  | @EventTable.Operation.run _ _ => run

/-! ## The invariant -/

/-- The index has the positions that a search of the columns finds, and the kinds are those of the
columns. -/
structure InStep (t : IndexedTable α) : Prop where
  index : ∀ name : String, t.index[name]? = t.idOf? name
  kinds : t.kinds = t.columns.map Column.kind

theorem InStep.ofRows (rows : Nat) : (ofRows rows : IndexedTable α).InStep where
  index name := by simp [IndexedTable.ofRows, EventTable.ofRows, EventTable.idOf?]
  kinds := Array.map_empty.symm

/-- What does not touch the columns keeps the index in step with them. -/
theorem InStep.of_columns (h : t.InStep) {u : EventTable α} (hu : u.columns = t.columns) :
    ({ t with toEventTable := u } : IndexedTable α).InStep where
  index name := by
    rw [EventTable.idOf?, hu]
    exact h.index name
  kinds := by
    rw [hu]
    exact h.kinds

theorem InStep.contains (h : t.InStep) (name : String) :
    t.index.contains name = t.hasColumn name := by
  rw [EventTable.hasColumn_eq, ← h.index, Std.HashMap.isSome_getElem?_eq_contains]

theorem InStep.kindIn (h : t.InStep) (id : Nat) : t.kinds[id]? = kindIn t.columns id := by
  rw [h.kinds, Array.getElem?_map]
  rfl

/-- A lookup through the index comes to what a search comes to, faults included. -/
theorem InStep.lookupKind (h : t.InStep) (kind : ColumnKind) (name : String) :
    t.lookupKind kind name = t.idOfKind kind name := by
  unfold IndexedTable.lookupKind lookup EventTable.idOfKind
  rw [h.index, EventTable.kindOf?_eq]
  cases hid : t.idOf? name with
  | none => rfl
  | some id =>
    obtain ⟨c, hc, -⟩ := EventTable.exists_of_idOf? hid
    have hkind : t.kinds[id]? = some c.kind := by
      rw [h.kindIn, VariHist.kindIn, hc, Option.map_some]
    dsimp only [bind, Except.bind]
    rw [hkind, Option.bind_some, VariHist.kindIn, hc]
    rfl

theorem InStep.ask_lookupKind (h : t.InStep) {id : Nat} (hid : t.idOfKind kind name = .ok id) :
    Step.ask (fun t : IndexedTable α => t.lookupKind kind name) t = .ok id t :=
  Step.ask_eq_ok_iff.2 ⟨(h.lookupKind kind name).trans hid, rfl⟩

theorem InStep.ask_lookupKind_error (h : t.InStep) {e : Error}
    (he : t.idOfKind kind name = .error e) :
    (Step.ask (fun t : IndexedTable α => t.lookupKind kind name) t :
      EStateM.Result Error _ Nat) = .error e t :=
  Step.ask_eq_error_iff.2 ⟨(h.lookupKind kind name).trans he, rfl⟩

theorem InStep.ask_lookupAll (h : t.InStep) (kind : ColumnKind) (names : List String) :
    Step.ask (fun t : IndexedTable α => names.mapM (t.lookupKind kind)) t =
      Step.ask (fun t : IndexedTable α => names.mapM (t.idOfKind kind)) t := by
  unfold Step.ask
  dsimp only
  rw [funext (h.lookupKind kind)]

/-- A column of a new name comes last, in the index as well. -/
theorem InStep.push (h : t.InStep) (hname : t.idOf? name = none) (source : Source) :
    ({ t with
        columns := t.columns.push ⟨name, source⟩
        index := t.index.insert name t.columns.size
        kinds := t.kinds.push source.kind } : IndexedTable α).InStep where
  index n := by
    rw [Std.HashMap.getElem?_insert, h.index]
    refine Eq.trans ?_ (EventTable.idOf?_push t.toEventTable ⟨name, source⟩ n).symm
    by_cases hn : name = n
    · subst hn
      simp [hname]
    · simp [hn]
  kinds := by
    rw [Array.map_push, ← h.kinds]
    rfl

/-! ## Steps that mirror each other -/

/-- A step does to a table with an index what another step does to the table alone, and keeps the
index in step.  Both succeed with the same answer or fail with the same fault. -/
def Mirrors (step : Step (IndexedTable α) β) (plain : Step (EventTable α) β) : Prop :=
  ∀ t : IndexedTable α, t.InStep → ∃ t' : IndexedTable α, t'.InStep ∧
    ((∃ b, plain t.toEventTable = .ok b t'.toEventTable ∧ step t = .ok b t') ∨
      ∃ e, plain t.toEventTable = .error e t'.toEventTable ∧ step t = .error e t')

theorem Mirrors.of_attempt {step : Step (IndexedTable α) Unit}
    {f : EventTable α → Except Error (EventTable α)}
    (hok : ∀ (t : IndexedTable α) u, t.InStep → f t.toEventTable = .ok u →
      ∃ t' : IndexedTable α, t'.toEventTable = u ∧ t'.InStep ∧ step t = .ok () t')
    (hfault : ∀ (t : IndexedTable α) e, t.InStep → f t.toEventTable = .error e →
      step t = .error e t) : Mirrors step (Step.attempt f) := by
  intro t h
  cases hf : f t.toEventTable with
  | ok u =>
    obtain ⟨t', rfl, h', hstep⟩ := hok t u h hf
    exact ⟨t', h', .inl ⟨(), Step.attempt_eq_ok_iff.2 hf, hstep⟩⟩
  | error e => exact ⟨t, h, .inr ⟨e, Step.attempt_eq_error_iff.2 ⟨hf, rfl⟩, hfault t e h hf⟩⟩

theorem insert_of_free (h : t.InStep) (hname : t.hasColumn name = false) (kind : ColumnKind)
    (source : Source) : insert name kind source t = .ok () { t with
      columns := t.columns.push ⟨name, source⟩
      index := t.index.insert name t.columns.size
      kinds := t.kinds.push kind } := by
  have hfree : ¬ t.index.contains name = true := by simp [h.contains, hname]
  unfold insert
  exact (congrFun (if_neg hfree) t).trans rfl

theorem insert_of_taken (h : t.InStep) (hname : t.hasColumn name = true) (kind : ColumnKind)
    (source : Source) : insert name kind source t = .error (.duplicateColumn name) t := by
  have htaken : t.index.contains name = true := by rw [h.contains, hname]
  unfold insert
  exact (congrFun (if_pos htaken) t).trans rfl

theorem taken_of_insert {u : EventTable α} {source : Source} {e : Error}
    (h : u.insert name source = .error e) :
    u.hasColumn name = true ∧ e = .duplicateColumn name := by
  unfold EventTable.insert at h
  split at h
  · rename_i hname
    cases h
    exact ⟨hname, rfl⟩
  · cases h

theorem mirrors_addColumn (name : String) (values : Array Float) :
    Mirrors (addColumn (α := α) name values) (Step.attempt fun t => t.addColumn name values) := by
  refine .of_attempt (fun t u h hu => ?_) (fun t e h he => ?_)
  · obtain ⟨hsize, hname, rfl⟩ := EventTable.addColumn_eq_ok_iff.1 hu
    refine ⟨_, rfl, h.push hname (.stored values), ?_⟩
    unfold addColumn
    refine (congrFun (if_neg (not_not_intro hsize)) t).trans ?_
    exact insert_of_free h (EventTable.hasColumn_eq_false_iff.2 hname) _ _
  · unfold EventTable.addColumn at he
    unfold addColumn
    split at he
    · rename_i hsize
      obtain ⟨hname, rfl⟩ := taken_of_insert he
      refine (congrFun (if_neg (not_not_intro hsize)) t).trans ?_
      exact insert_of_taken h hname _ _
    · rename_i hsize
      cases he
      exact (congrFun (if_pos hsize) t).trans rfl

/-- The inputs are looked up before the insertion, which checks the name once more. -/
theorem defineColumn_of_free (h : t.InStep) (hname : t.hasColumn name = false) (kernel : Kernel)
    (inputs : List String) : defineColumn name kernel inputs t =
      (Step.ask (fun t => inputs.mapM (t.lookupKind .scalar)) >>= fun ids =>
        insert name kernel.kind (.derived ids kernel)) t := by
  have hfree : ¬ t.index.contains name = true := by simp [h.contains, hname]
  unfold defineColumn
  exact (congrFun (if_neg hfree) t).trans rfl

theorem defineColumn_of_taken (h : t.InStep) (hname : t.hasColumn name = true) (kernel : Kernel)
    (inputs : List String) :
    defineColumn name kernel inputs t = .error (.duplicateColumn name) t := by
  have htaken : t.index.contains name = true := by rw [h.contains, hname]
  unfold defineColumn
  exact (congrFun (if_pos htaken) t).trans rfl

theorem mirrors_defineColumn (name : String) (kernel : Kernel) (inputs : List String) :
    Mirrors (defineColumn (α := α) name kernel inputs)
      (Step.attempt fun t => t.defineColumn name kernel inputs) := by
  refine .of_attempt (fun t u h hu => ?_) (fun t e h he => ?_)
  · obtain ⟨hname, ids, hfound, rfl⟩ := EventTable.defineColumn_eq_ok_iff.1 hu
    have hfree := EventTable.hasColumn_eq_false_iff.2 hname
    refine ⟨_, rfl, h.push hname (.derived ids kernel), ?_⟩
    have hask := (h.ask_lookupAll .scalar inputs).trans
      (Step.ask_eq_ok_iff.2 ⟨mapM_except_eq_ok_iff.2 hfound, rfl⟩)
    rw [defineColumn_of_free h hfree]
    exact (Step.bind_of_eq_ok hask).trans (insert_of_free h hfree _ _)
  · unfold EventTable.defineColumn at he
    split at he
    · rename_i hname
      cases he
      exact defineColumn_of_taken h hname kernel inputs
    · rename_i hname
      rw [Bool.not_eq_true] at hname
      rw [defineColumn_of_free h hname]
      rcases bind_except_eq_error_iff.1 he with he | ⟨ids, -, he⟩
      · exact Step.bind_eq_error_iff.2 (.inl ((h.ask_lookupAll .scalar inputs).trans
          (Step.ask_eq_error_iff.2 ⟨he, rfl⟩)))
      · rw [(taken_of_insert he).1] at hname
        cases hname

theorem mirrors_defineFormula (name source : String) :
    Mirrors (defineFormula (α := α) name source)
      (Step.attempt fun t => t.defineFormula name source) := by
  unfold defineFormula EventTable.defineFormula
  cases Formula.compile source with
  | error fault => exact .of_attempt (fun t u h hu => nomatch hu) fun t e h he => by cases he; rfl
  | ok formula => exact mirrors_defineColumn name formula.kernel formula.inputs

/-- A column is looked up, and then something is changed that has nothing to do with columns. -/
theorem mirrors_lookup (kind : ColumnKind) (name : String)
    (change : Nat → EventTable α → EventTable α) (hc : ∀ id u, (change id u).columns = u.columns) :
    Mirrors
      (Step.ask (fun t => t.lookupKind kind name) >>= fun id =>
        modify fun t => { t with toEventTable := change id t.toEventTable })
      (Step.attempt fun t => t.idOfKind kind name >>= fun id => pure (change id t)) := by
  refine .of_attempt (fun t u h hu => ?_) (fun t e h he => ?_)
  · obtain ⟨id, hid, hu⟩ := bind_except_eq_ok_iff.1 hu
    cases hu
    refine ⟨{ t with toEventTable := change id t.toEventTable }, rfl, h.of_columns (hc id _), ?_⟩
    exact (Step.bind_of_eq_ok (h.ask_lookupKind hid)).trans rfl
  · rcases bind_except_eq_error_iff.1 he with he | ⟨id, -, he⟩
    · exact Step.bind_eq_error_iff.2 (.inl (h.ask_lookupKind_error he))
    · cases he

theorem mirrors_survivors (name : String) :
    Mirrors (survivors (α := α) name) (Step.ask fun t => t.survivors name) := by
  intro t h
  refine ⟨t, h, ?_⟩
  cases hid : t.idOfKind .scalar name with
  | ok id =>
    refine .inl ⟨t.survivorsAt id, Step.ask_eq_ok ?_, ?_⟩
    · exact bind_except_eq_ok_iff.2 ⟨id, hid, rfl⟩
    · exact (Step.bind_of_eq_ok (h.ask_lookupKind hid)).trans rfl
  | error e =>
    refine .inr ⟨e, Step.ask_eq_error_iff.2 ⟨?_, rfl⟩, ?_⟩
    · exact bind_except_eq_error_iff.2 (.inl hid)
    · exact Step.bind_eq_error_iff.2 (.inl (h.ask_lookupKind_error hid))

theorem mirrors_withThreads (threads : Nat) :
    Mirrors (withThreads (α := α) threads) (modify fun t => t.withThreads threads) :=
  fun t h => ⟨{ t with threads }, h.of_columns rfl, .inl ⟨(), rfl, rfl⟩⟩

/-! ## Operations -/

variable [Aggregation α]

theorem mirrors_run [Machine] : Mirrors (run (α := α)) EventTable.run := by
  intro t h
  obtain ⟨made, pending, runs, -, hafter⟩ := EventTable.exists_stateAfter_run t.toEventTable
  refine ⟨{ t with finished := t.finished ++ made, pending, runs }, h.of_columns rfl, ?_⟩
  cases hrun : EventTable.run t.toEventTable with
  | ok b u =>
    rw [Step.stateAfter_of_eq_ok hrun] at hafter
    subst hafter
    exact .inl ⟨b, rfl, Step.within_eq_ok_iff.2 ⟨_, hrun, rfl⟩⟩
  | error e u =>
    rw [Step.stateAfter_of_eq_error hrun] at hafter
    subst hafter
    exact .inr ⟨e, rfl, Step.within_eq_error_iff.2 ⟨_, hrun, rfl⟩⟩

/-- Every operation does with an index what it does without one. -/
theorem mirrors_perform (op : EventTable.Operation α) : Mirrors (perform op) op.step := by
  cases op with
  | addColumn name values => exact mirrors_addColumn name values
  | defineColumn name kernel inputs => exact mirrors_defineColumn name kernel inputs
  | defineFormula name source => exact mirrors_defineFormula name source
  | filterRows name =>
    exact mirrors_lookup .scalar name (fun id u => { u with filters := u.filters ++ [id] })
      fun _ _ => rfl
  | withThreads threads => exact mirrors_withThreads threads
  | subscribe name action =>
    exact mirrors_lookup .vector name
      (fun id u => { u with pending := u.pending ++ [⟨id, action⟩] }) fun _ _ => rfl
  | run => exact mirrors_run

omit [Aggregation α] in
/-- The check of the name comes before the first change. -/
theorem failsUnchanged_insert (name : String) (kind : ColumnKind) (source : Source) :
    (insert (α := α) name kind source).FailsUnchanged := by
  have hchange : (do
      modify fun t : IndexedTable α => { t with index := t.index.insert name t.columns.size }
      modify fun t => { t with
        columns := t.columns.push ⟨name, source⟩, kinds := t.kinds.push kind } :
      Step (IndexedTable α) Unit).FailsUnchanged := fun s e s' h => nomatch h
  exact .bind .get fun t => .ite (.bind (.throw _) fun _ => hchange) hchange

omit [Aggregation α] in
theorem failsUnchanged_defineColumn (name : String) (kernel : Kernel) (inputs : List String) :
    (defineColumn (α := α) name kernel inputs).FailsUnchanged := by
  have hlookup : (Step.ask (fun t : IndexedTable α => inputs.mapM (t.lookupKind .scalar)) >>=
      fun ids => insert name kernel.kind (.derived ids kernel)).FailsUnchanged :=
    .bind (.ask _) fun ids => failsUnchanged_insert _ _ _
  exact .bind .get fun t => .ite (.bind (.throw _) fun _ => hlookup) hlookup

/-- An operation other than the event loop that is refused has not changed anything. -/
theorem failsUnchanged_perform (op : EventTable.Operation α) (h : ∀ _ : Machine, op ≠ .run) :
    (perform op).FailsUnchanged := by
  cases op with
  | addColumn name values =>
    exact .bind .get fun t => .ite (.bind (.throw _) fun _ => failsUnchanged_insert _ _ _)
      (failsUnchanged_insert _ _ _)
  | defineColumn name kernel inputs => exact failsUnchanged_defineColumn name kernel inputs
  | defineFormula name source =>
    show (defineFormula name source).FailsUnchanged
    unfold defineFormula
    cases Formula.compile source with
    | error fault => exact .of_keeps (.throw _)
    | ok formula => exact failsUnchanged_defineColumn _ _ _
  | filterRows name => exact .bind (.ask _) fun id => .change _
  | withThreads threads => exact .change _
  | subscribe name action => exact .bind (.ask _) fun id => .change _
  | run => exact absurd rfl (h _)

/-! ## Histories -/

/-- A call to a table: an operation on it, or the listing of a column. -/
inductive Call (α : Type) where
  | operation (op : EventTable.Operation α)
  | survivors (name : String)

/-- What a call leaves behind, whether it succeeds or not. -/
def Call.carryOut (t : IndexedTable α) : Call α → IndexedTable α
  | operation op => Step.stateAfter (perform op) t
  | survivors name => Step.stateAfter (IndexedTable.survivors name) t

/-- A table of some rows after a sequence of calls. -/
def history (rows : Nat) (calls : List (Call α)) : IndexedTable α :=
  calls.foldl Call.carryOut (ofRows rows)

/-- The operations among some calls. -/
def Call.operations (calls : List (Call α)) : List (EventTable.Operation α) :=
  calls.flatMap fun
    | operation op => [op]
    | survivors _ => []

omit [Aggregation α] in
/-- After steps that mirror each other the tables are the same, and the index is right. -/
theorem Mirrors.stateAfter {step : Step (IndexedTable α) β} {plain : Step (EventTable α) β}
    (hm : Mirrors step plain) (h : t.InStep) : (Step.stateAfter step t).InStep ∧
      (Step.stateAfter step t).toEventTable = Step.stateAfter plain t.toEventTable := by
  obtain ⟨t', h', ⟨b, hplain, hstep⟩ | ⟨e, hplain, hstep⟩⟩ := hm t h
  · rw [Step.stateAfter_of_eq_ok hplain, Step.stateAfter_of_eq_ok hstep]
    exact ⟨h', rfl⟩
  · rw [Step.stateAfter_of_eq_error hplain, Step.stateAfter_of_eq_error hstep]
    exact ⟨h', rfl⟩

theorem Call.carryOut_inStep (call : Call α) (h : t.InStep) : (call.carryOut t).InStep ∧
    (call.carryOut t).toEventTable = t.toEventTable.afterAll (operations [call]) := by
  cases call with
  | operation op =>
    obtain ⟨h', heq⟩ := (mirrors_perform op).stateAfter h
    exact ⟨h', heq.trans (op.carryOut_eq _).symm⟩
  | survivors name =>
    obtain ⟨h', heq⟩ := (mirrors_survivors name).stateAfter h
    have hkeeps : (Step.ask fun u : EventTable α => u.survivors name).Keeps id := .ask _
    exact ⟨h', heq.trans (hkeeps t.toEventTable)⟩

theorem inStep_foldl (calls : List (Call α)) (h : t.InStep) :
    (calls.foldl Call.carryOut t).InStep ∧
      (calls.foldl Call.carryOut t).toEventTable =
        t.toEventTable.afterAll (Call.operations calls) := by
  induction calls generalizing t with
  | nil => exact ⟨h, rfl⟩
  | cons call calls ih =>
    obtain ⟨h₁, heq₁⟩ := call.carryOut_inStep h
    obtain ⟨h₂, heq₂⟩ := ih h₁
    refine ⟨h₂, heq₂.trans ?_⟩
    have hcons : Call.operations ([call] ++ calls) =
        Call.operations [call] ++ Call.operations calls := List.flatMap_append
    rw [List.singleton_append] at hcons
    rw [heq₁, hcons, EventTable.afterAll, EventTable.afterAll, EventTable.afterAll,
      List.foldl_append]

/-! ## What the invariant comes to -/

omit [Aggregation α]

/-- What holds of every table with an index. -/
structure Sound (t : IndexedTable α) : Prop where
  /-- The index puts the names of the columns and their positions in a one-to-one correspondence, and
  the column at the position of a name has this name. -/
  positions : ∃ position : {name // name ∈ t.columnNames} ≃ Fin t.columns.size, ∀ name,
    t.index[name.val]? = some (position name).val ∧ t.columns[position name].name = name.val
  /-- The index has no other names. -/
  others : ∀ name, name ∉ t.columnNames → t.index[name]? = none
  /-- A stored column has a value for each row, and is scalar. -/
  stored : ∀ (id : Nat) (c : Column) values, t.columns[id]? = some c → c.source = .stored values →
    values.size = t.rows ∧ t.kinds[id]? = some .scalar
  /-- A derived column is of the kind that its kernel computes, and reads scalar columns that stand
  before it. -/
  derived : ∀ (id : Nat) (c : Column) inputs kernel, t.columns[id]? = some c →
    c.source = .derived inputs kernel → t.kinds[id]? = some kernel.kind ∧
      ∀ i ∈ inputs, i < id ∧ t.kinds[i]? = some .scalar
  filters : ∀ id ∈ t.filters, t.kinds[id]? = some .scalar
  pending : ∀ s ∈ t.pending, t.kinds[s.column]? = some .vector

/-- The name of the column at a position. -/
def nameAt (t : IndexedTable α) (id : Fin t.columns.size) : {name // name ∈ t.columnNames} :=
  ⟨t.columns[id].name, List.mem_map_of_mem (Array.getElem_mem_toList id.isLt)⟩

theorem InStep.index_nameAt (h : t.InStep) (hw : t.toEventTable.WellFormed)
    (id : Fin t.columns.size) : t.index[(t.nameAt id).val]? = some id.val :=
  (h.index _).trans (hw.idOf? (Array.getElem?_eq_getElem id.isLt))

theorem InStep.bijective_nameAt (h : t.InStep) (hw : t.toEventTable.WellFormed) :
    Function.Bijective t.nameAt := by
  constructor
  · intro id id' heq
    have hid := h.index_nameAt hw id
    rw [heq, h.index_nameAt hw id'] at hid
    exact Fin.ext (Option.some.inj hid).symm
  · rintro ⟨name, hmem⟩
    obtain ⟨c, hc, rfl⟩ := List.mem_map.1 hmem
    obtain ⟨id, hid, rfl⟩ := Array.mem_iff_getElem.1 (Array.mem_toList_iff.1 hc)
    exact ⟨⟨id, hid⟩, rfl⟩

/-- A well-formed table with an index in step is sound. -/
theorem InStep.sound (h : t.InStep) (hw : t.toEventTable.WellFormed) : t.Sound where
  positions := by
    refine ⟨(Equiv.ofBijective t.nameAt (h.bijective_nameAt hw)).symm, fun name => ?_⟩
    obtain ⟨id, rfl⟩ := (h.bijective_nameAt hw).2 name
    simp only [Equiv.ofBijective_symm_apply_apply]
    exact ⟨h.index_nameAt hw id, rfl⟩
  others name hname := by
    rw [h.index]
    exact EventTable.idOf?_eq_none_iff.2 hname
  stored id c values hc hs := by
    refine ⟨hw.stored id c values hc hs, ?_⟩
    rw [h.kindIn, VariHist.kindIn, hc, Option.map_some, Column.kind, hs]
    rfl
  derived id c inputs kernel hc hs := by
    have hinputs := hw.inputs id c hc
    rw [hs] at hinputs
    refine ⟨?_, fun i hi => ⟨(hinputs i hi).1, (h.kindIn i).trans (hinputs i hi).2⟩⟩
    rw [h.kindIn, VariHist.kindIn, hc, Option.map_some, Column.kind, hs]
    rfl
  filters id hid := (h.kindIn id).trans (hw.filters id hid)
  pending s hs := (h.kindIn s.column).trans (hw.subscriptions s hs)

/-- After every sequence of calls, whether they succeed or not, a table with an index is sound, and
it is the table that a search of the columns leads to.  An operation other than the event loop that
fails leaves it exactly as it was. -/
theorem history_sound [Aggregation α] (rows : Nat) (calls : List (Call α)) :
    (history rows calls).Sound ∧
    (history rows calls).toEventTable = EventTable.history rows (Call.operations calls) ∧
    ∀ (op : EventTable.Operation α) e t', (∀ _ : Machine, op ≠ .run) →
      perform op (history rows calls) = .error e t' → t' = history rows calls := by
  obtain ⟨hstep, heq⟩ := inStep_foldl calls (InStep.ofRows (α := α) rows)
  have hreachable : (history rows calls).toEventTable.Reachable := by
    rw [history, heq]
    exact (EventTable.Reachable.ofRows rows).afterAll _
  exact ⟨hstep.sound hreachable.wellFormed, heq,
    fun op e t' hop => failsUnchanged_perform op hop _ e t'⟩

end IndexedTable

end VariHist
