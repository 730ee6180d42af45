import Mathlib
import VariHist.Proofs.Systematics.Definitions

/-!
# Sequences of operations

* `VariedTable.Operation`, `afterAll`, `definedBy` — a sequence of operations, failing ones
  included, and the definitions that it makes.
* `Tracks` — the invariant: an affected column has copies of its kind, and a definition that was
  made is there together with its copies under all shifts that affect it.
* `Tracks.afterAll` — the induction over the sequence.
-/

namespace VariHist.VariedTable

variable {α : Type} {v v' : VariedTable α} {log new : List Definition}

/-- The operations on a table with shifted columns. -/
inductive Operation where
  | define (name : String) (kernel : Kernel) (inputs : List String)
  | defineFormula (name source : String)
  | defineConstant (name : String) (value : Float)
  | filter (name : String) (kernel : Kernel) (inputs : List String)
  | filterFormula (name source : String)
  | buildCatalog (base : String)

namespace Operation

/-- What an operation leaves behind, whether it succeeds or not. -/
def carryOut (v : VariedTable α) : Operation → VariedTable α
  | define name kernel inputs => (VariedTable.define name kernel inputs).stateAfter v
  | defineFormula name source => (VariedTable.defineFormula name source).stateAfter v
  | defineConstant name value => (VariedTable.defineConstant name value).stateAfter v
  | filter name kernel inputs => (VariedTable.filter name kernel inputs).stateAfter v
  | filterFormula name source => (VariedTable.filterFormula name source).stateAfter v
  | buildCatalog base => (VariedTable.buildCatalog base).stateAfter v

/-- The definition that an operation asks for. -/
def definition? : Operation → Option Definition
  | define name kernel inputs | filter name kernel inputs => some ⟨name, kernel, inputs⟩
  | defineFormula name source | filterFormula name source =>
    (Formula.compile source).toOption.map fun formula => ⟨name, formula.kernel, formula.inputs⟩
  | defineConstant _ _ | buildCatalog _ => none

end Operation

/-- The definition, if it goes through. -/
def madeOf (v : VariedTable α) (e : Definition) : List Definition :=
  if ((define e.name e.kernel e.inputs).answer v).isOk then [e] else []

/-- The definitions that an operation makes. -/
def madeBy (v : VariedTable α) (op : Operation) : List Definition :=
  op.definition?.toList.flatMap v.madeOf

/-- What a sequence of operations leaves behind. -/
def afterAll (v : VariedTable α) (ops : List Operation) : VariedTable α :=
  ops.foldl Operation.carryOut v

/-- The definitions that a sequence of operations makes, oldest first. -/
def definedBy (v : VariedTable α) : List Operation → List Definition
  | [] => []
  | op :: ops => v.madeBy op ++ (op.carryOut v).definedBy ops

/-- Every affected column has copies of its kind under the shifts that affect it. -/
def Consistent (v : VariedTable α) : Prop :=
  ∀ s c, v.registry.affects s c = true → ∃ kind, v.table.kindOf? c = some kind ∧
    ∀ d, v.table.kindOf? (variationColumn c s d) = some kind

/-- The table has what the definitions of the log have made: the columns, and their copies under the
shifts that affect them. -/
structure Tracks [Aggregation α] (v : VariedTable α) (log : List Definition) : Prop where
  reachable : v.table.Reachable
  nodup : v.registry.systematics.Nodup
  consistent : v.Consistent
  defines : ∀ e ∈ log, v.table.Defines e
  copies : ∀ e ∈ log, ∀ s d, v.registry.affects s e.name = true →
    v.table.Defines (v.copyOf e (s, d))

/-! ## Growing -/

/-- What an operation does: columns are added, and what affects a column that was there before stays
as it was. -/
structure Grows [Aggregation α] (v v' : VariedTable α) (new : List Definition) : Prop where
  ext : v.table.Extends v'.table
  keeps : ∀ s c, v.table.idOf? c ≠ none → v'.registry.affects s c = v.registry.affects s c
  reachable : v'.table.Reachable
  nodup : v'.registry.systematics.Nodup
  consistent : ∀ s c, v.table.idOf? c = none → v'.registry.affects s c = true →
    ∃ kind, v'.table.kindOf? c = some kind ∧
      ∀ d, v'.table.kindOf? (variationColumn c s d) = some kind
  defines : ∀ e ∈ new, v'.table.Defines e
  copies : ∀ e ∈ new, ∀ s d, v'.registry.affects s e.name = true →
    v'.table.Defines (v'.copyOf e (s, d))

theorem idOf?_ne_none_of_kindOf? {t : EventTable α} {c : String} {kind : ColumnKind}
    (h : t.kindOf? c = some kind) : t.idOf? c ≠ none := by
  intro hid
  rw [EventTable.kindOf?_eq, hid] at h
  cases h

theorem copyOf_congr {e : Definition} {s : String} {d : Direction}
    (h : ∀ c ∈ e.inputs, v'.registry.affects s c = v.registry.affects s c) :
    v'.copyOf e (s, d) = v.copyOf e (s, d) := by
  have hin : e.inputs.map (v'.shiftedName s d) = e.inputs.map (v.shiftedName s d) :=
    List.map_congr_left fun c hc => by rw [shiftedName, shiftedName, h c hc]
  rw [copyOf, copyOf, hin]

theorem Grows.tracks [Aggregation α] (hg : v.Grows v' new) (h : v.Tracks log) :
    v'.Tracks (log ++ new) where
  reachable := hg.reachable
  nodup := hg.nodup
  consistent s c hc := by
    by_cases hid : v.table.idOf? c = none
    · exact hg.consistent s c hid hc
    · rw [hg.keeps s c hid] at hc
      obtain ⟨kind, hk, hcopies⟩ := h.consistent s c hc
      exact ⟨kind, hg.ext.kindOf? hk, fun d => hg.ext.kindOf? (hcopies d)⟩
  defines e he := by
    rcases List.mem_append.1 he with he | he
    · exact (h.defines e he).extend hg.ext.toKeepsColumns
    · exact hg.defines e he
  copies e he s d haff := by
    rcases List.mem_append.1 he with he | he
    · have hdef := h.defines e he
      rw [hg.keeps s e.name (idOf?_ne_none_of_kindOf? hdef.kindOf?)] at haff
      rw [copyOf_congr fun c hc => hg.keeps s c (idOf?_ne_none_of_kindOf? (hdef.inputs hc))]
      exact (h.copies e he s d haff).extend hg.ext.toKeepsColumns
    · exact hg.copies e he s d haff

/-- Columns that do not become known as affected can always be added. -/
theorem Tracks.grows_table [Aggregation α] (h : v.Tracks log) {t : EventTable α}
    (hext : v.table.Extends t) (ht : t.Reachable) : v.Grows ⟨t, v.registry⟩ [] where
  ext := hext
  keeps _ _ _ := rfl
  reachable := ht
  nodup := h.nodup
  consistent s c hid hc := by
    obtain ⟨kind, hk, -⟩ := h.consistent s c hc
    exact absurd hid (idOf?_ne_none_of_kindOf? hk)
  defines e he := by cases he
  copies e he := by cases he

/-- A definition with its copies. -/
theorem Tracks.grows_define [Aggregation α] (h : v.Tracks log) {e : Definition} {t : EventTable α}
    (hp : v.Plannable e) (ht : v.table.Added (v.withCopies e) t) :
    v.Grows ⟨t, (v.affectingAny e.inputs).foldl (fun r s => r.register s [e.name]) v.registry⟩
      [e] := by
  have hname : v.table.idOf? e.name = none := hp.free e List.mem_cons_self
  have haffects : ∀ s c, Registry.affects
      ((v.affectingAny e.inputs).foldl (fun r s => r.register s [e.name]) v.registry) s c = true ↔
        v.registry.affects s c = true ∨ s ∈ v.affectingAny e.inputs ∧ c = e.name := by
    intro s c
    rw [Registry.affects_foldl_register, List.mem_singleton]
  have hkeeps : ∀ s c, v.table.idOf? c ≠ none → Registry.affects
      ((v.affectingAny e.inputs).foldl (fun r s => r.register s [e.name]) v.registry) s c =
        v.registry.affects s c := by
    intro s c hc
    rw [Bool.eq_iff_iff, haffects]
    refine or_iff_left ?_
    rintro ⟨-, rfl⟩
    exact hc hname
  -- a column that was not there before is affected only if it is the new one
  have hnew : ∀ s c, v.table.idOf? c = none → Registry.affects
      ((v.affectingAny e.inputs).foldl (fun r s => r.register s [e.name]) v.registry) s c = true →
        s ∈ v.affectingAny e.inputs ∧ c = e.name := by
    intro s c hid hc
    refine ((haffects s c).1 hc).resolve_left fun hold => ?_
    obtain ⟨kind, hk, -⟩ := h.consistent s c hold
    exact idOf?_ne_none_of_kindOf? hk hid
  have hcopy : ∀ s d, s ∈ v.affectingAny e.inputs → t.Defines (v.copyOf e (s, d)) := fun s d hs =>
    ht.defines _ (List.mem_cons_of_mem _ (List.mem_map_of_mem (mem_shiftsOf.2 hs)))
  have hdef : t.Defines e := ht.defines e List.mem_cons_self
  exact {
    ext := ht.ext
    keeps := hkeeps
    reachable := ht.reachable h.reachable
    nodup := Registry.nodup_foldl_register h.nodup
    consistent := by
      intro s c hid hc
      obtain ⟨hs, rfl⟩ := hnew s c hid hc
      exact ⟨e.kernel.kind, hdef.kindOf?, fun d => (hcopy s d hs).kindOf?⟩
    defines := by
      intro e' he'
      rw [List.mem_singleton.1 he']
      exact hdef
    copies := by
      intro e' he' s d haff
      rw [List.mem_singleton.1 he'] at haff ⊢
      rw [copyOf_congr (v := v) fun c hc => hkeeps s c (idOf?_ne_none_of_kindOf? (hp.inputs c hc))]
      exact hcopy s d (hnew s e.name hname haff).1 }

/-- A catalog with its index columns. -/
theorem Tracks.grows_catalog [Aggregation α] (h : v.Tracks log) {base : String} {t : EventTable α}
    (hfree : ∀ c ∈ v.indexColumns base, v.table.idOf? c = none)
    (ht : v.table.Added (v.indexDefinitions base) t) :
    v.Grows ⟨t, v.registry.systematics.foldl (fun r s => r.register s [base]) v.registry⟩ [] := by
  have hname : v.table.idOf? base = none := hfree base List.mem_cons_self
  have haffects : ∀ s c, Registry.affects
      (v.registry.systematics.foldl (fun r s => r.register s [base]) v.registry) s c = true ↔
        v.registry.affects s c = true ∨ s ∈ v.registry.systematics ∧ c = base := by
    intro s c
    rw [Registry.affects_foldl_register, List.mem_singleton]
  exact {
    ext := ht.ext
    keeps := by
      intro s c hc
      rw [Bool.eq_iff_iff, haffects]
      refine or_iff_left ?_
      rintro ⟨-, rfl⟩
      exact hc hname
    reachable := ht.reachable h.reachable
    nodup := Registry.nodup_foldl_register h.nodup
    consistent := by
      intro s c hid hc
      have hnew : s ∈ v.registry.systematics ∧ c = base := by
        refine ((haffects s c).1 hc).resolve_left fun hold => ?_
        obtain ⟨kind, hk, -⟩ := h.consistent s c hold
        exact idOf?_ne_none_of_kindOf? hk hid
      obtain ⟨hs, rfl⟩ := hnew
      exact ⟨.scalar, kindOf?_of_mem_indexColumns ht List.mem_cons_self, fun d =>
        kindOf?_of_mem_indexColumns ht (variationColumn_mem_indexColumns hs d)⟩
    defines := by
      intro e he
      cases he
    copies := by
      intro e he
      cases he }

/-! ## One operation -/

theorem stateAfter_bind {σ β γ : Type} (x : Step σ β) (f : β → Step σ γ) (s : σ) :
    (x >>= f).stateAfter s = match x s with
      | .ok b s' => (f b).stateAfter s'
      | .error _ s' => s' := by
  unfold Step.stateAfter
  change (match EStateM.bind x f s with | .ok _ s' => s' | .error _ s' => s') = _
  rw [EStateM.bind]
  cases x s with
  | ok b s' => rfl
  | error e s' => rfl

theorem stateAfter_onTable {β : Type} (step : Step (EventTable α) β) :
    (onTable step).stateAfter v = ⟨step.stateAfter v.table, v.registry⟩ := by
  unfold onTable Step.within Step.stateAfter
  dsimp only
  cases step v.table with
  | ok b t => rfl
  | error e t => rfl

/-- A step on the table that adds a column, or does nothing. -/
theorem Tracks.attempt [Aggregation α] (h : v.Tracks log)
    {f : EventTable α → Except Error (EventTable α)}
    (hf : ∀ t, f v.table = .ok t → v.table.Extends t ∧ t.Reachable) :
    ((onTable (Step.attempt f)).stateAfter v).Tracks log := by
  rw [stateAfter_onTable, ← List.append_nil log]
  refine Grows.tracks ?_ h
  unfold Step.stateAfter Step.attempt
  cases ht : f v.table with
  | error e => exact h.grows_table (.refl _) h.reachable
  | ok t => exact h.grows_table (hf t ht).1 (hf t ht).2

theorem Tracks.keepWhere [Aggregation α] (h : v.Tracks log) (name : String) :
    ((keepWhere name).stateAfter v).Tracks log := by
  refine h.attempt fun t ht => ?_
  refine ⟨?_, h.reachable.filterRows name ht⟩
  obtain ⟨id, -, rfl⟩ := EventTable.filterRows_eq_ok_iff.1 ht
  exact ⟨⟨fun _ _ h => h, fun _ _ h => h⟩, rfl, rfl, rfl, rfl, rfl⟩

theorem Tracks.defineConstant [Aggregation α] (h : v.Tracks log) (name : String) (value : Float) :
    ((VariedTable.defineConstant name value).stateAfter v).Tracks log := by
  refine h.attempt fun t ht => ?_
  refine ⟨?_, h.reachable.defineColumn name (.constant value) [] ht⟩
  obtain ⟨-, ids, -, rfl⟩ := EventTable.defineColumn_eq_ok_iff.1 ht
  exact .push _

/-- A definition followed by something that makes no definition. -/
theorem Tracks.define_bind [Aggregation α] (h : v.Tracks log) (e : Definition)
    {rest : List String → Step (VariedTable α) (List String)}
    (hrest : ∀ (u : VariedTable α) (l : List Definition) (answer : List String), u.Tracks l →
      ((rest answer).stateAfter u).Tracks l) :
    ((define e.name e.kernel e.inputs >>= rest).stateAfter v).Tracks (log ++ v.madeOf e) := by
  rw [stateAfter_bind, madeOf, Step.answer]
  obtain ⟨t, hp, ht, hdef⟩ | ⟨fault, -, hdef⟩ := define_eq h.nodup e
  · rw [hdef]
    exact hrest _ _ _ ((h.grows_define hp ht).tracks h)
  · rw [hdef]
    simpa [Except.isOk, Except.toBool] using h

theorem Tracks.define [Aggregation α] (h : v.Tracks log) (e : Definition) :
    ((VariedTable.define e.name e.kernel e.inputs).stateAfter v).Tracks (log ++ v.madeOf e) := by
  have hdef := @Tracks.define_bind _ _ _ _ h e pure fun u l answer hu => hu
  rwa [bind_pure] at hdef

theorem Tracks.filter [Aggregation α] (h : v.Tracks log) (e : Definition) :
    ((VariedTable.filter e.name e.kernel e.inputs).stateAfter v).Tracks (log ++ v.madeOf e) := by
  refine h.define_bind e fun u l answer hu => ?_
  have hkeep := hu.keepWhere e.name
  rw [stateAfter_bind]
  unfold Step.stateAfter at hkeep
  cases hres : VariedTable.keepWhere e.name u with
  | ok b u' =>
    rw [hres] at hkeep
    exact hkeep
  | error fault u' =>
    rw [hres] at hkeep
    exact hkeep

theorem Tracks.buildCatalog [Aggregation α] (h : v.Tracks log) (base : String) :
    ((VariedTable.buildCatalog base).stateAfter v).Tracks log := by
  unfold Step.stateAfter
  obtain ⟨t, hfree, ht, hcat⟩ | ⟨fault, -, hcat⟩ := buildCatalog_eq h.nodup base
  · rw [hcat]
    have := (h.grows_catalog hfree ht).tracks h
    rwa [List.append_nil] at this
  · rw [hcat]
    exact h

theorem madeBy_of_some {op : Operation} {e : Definition} (h : op.definition? = some e) :
    v.madeBy op = v.madeOf e := by
  rw [madeBy, h, Option.toList_some, List.flatMap_singleton]

theorem madeBy_of_none {op : Operation} (h : op.definition? = none) : v.madeBy op = [] := by
  rw [madeBy, h, Option.toList_none, List.flatMap_nil]

/-- The invariant is kept by each operation. -/
theorem Tracks.carryOut [Aggregation α] (h : v.Tracks log) (op : Operation) :
    (op.carryOut v).Tracks (log ++ v.madeBy op) := by
  cases op with
  | define name kernel inputs =>
    rw [madeBy_of_some rfl]
    exact h.define ⟨name, kernel, inputs⟩
  | filter name kernel inputs =>
    rw [madeBy_of_some rfl]
    exact h.filter ⟨name, kernel, inputs⟩
  | defineFormula name source =>
    rw [Operation.carryOut, VariedTable.defineFormula]
    cases hc : Formula.compile source with
    | error fault =>
      rw [madeBy_of_none (by rw [Operation.definition?, hc]; rfl), List.append_nil]
      exact h
    | ok formula =>
      rw [madeBy_of_some (by rw [Operation.definition?, hc]; rfl)]
      exact h.define ⟨name, formula.kernel, formula.inputs⟩
  | filterFormula name source =>
    rw [Operation.carryOut, VariedTable.filterFormula, VariedTable.defineFormula]
    cases hc : Formula.compile source with
    | error fault =>
      rw [madeBy_of_none (by rw [Operation.definition?, hc]; rfl), List.append_nil]
      exact h
    | ok formula =>
      rw [madeBy_of_some (by rw [Operation.definition?, hc]; rfl)]
      exact h.filter ⟨name, formula.kernel, formula.inputs⟩
  | defineConstant name value =>
    rw [madeBy_of_none rfl, List.append_nil]
    exact h.defineConstant name value
  | buildCatalog base =>
    rw [madeBy_of_none rfl, List.append_nil]
    exact h.buildCatalog base

/-- The invariant is kept by every sequence of operations. -/
theorem Tracks.afterAll [Aggregation α] (h : v.Tracks log) (ops : List Operation) :
    (v.afterAll ops).Tracks (log ++ v.definedBy ops) := by
  induction ops generalizing v log with
  | nil => simpa [definedBy, VariedTable.afterAll] using h
  | cons op ops ih =>
    have hrest := ih (h.carryOut op)
    rw [List.append_assoc] at hrest
    exact hrest

end VariHist.VariedTable
