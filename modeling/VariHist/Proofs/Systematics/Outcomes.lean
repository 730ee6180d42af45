import Mathlib
import VariHist.Proofs.Systematics.Definitions
import VariHist.Table.Recorder

/-!
# Outcomes of definitions

A definition on a table with shifted columns adds several columns and registers one of them.  All
that could stop it is looked at first, so that it is carried out as a whole or not at all.

* `Step.AllOrNothing` — a step that goes through exactly under a condition, and that leaves the state
  as it was otherwise.
* `EventTable.Appends` — columns are added at the end, in order, and nothing else changes;
  `appends_of_forM` is the induction over the columns.
* `VariedTable.Expanded` — what a definition or a catalog adds to the table and to the registry.
* `VariedTable.outcome_of_definitions` — when definitions and catalogs go through, and what they do.
-/

namespace VariHist

/-- A step goes through under a condition, with an answer and a state after it.  Otherwise it fails
and leaves the state as it was. -/
def Step.AllOrNothing {σ β : Type} (step : Step σ β) (s : σ) (condition : Prop) (answer : β)
    (after : σ → Prop) : Prop :=
  (condition ∧ ∃ s', step s = .ok answer s' ∧ after s') ∨
    ¬condition ∧ ∃ fault, step s = .error fault s

variable {α : Type}

namespace EventTable

variable {t t' t'' : EventTable α} {d : Definition} {ds : List Definition}

/-- The column that a definition makes: it has the name and the kernel, and reads the columns of
these names. -/
def Makes (t : EventTable α) (d : Definition) (c : Column) : Prop :=
  ∃ ids, List.Forall₂ (fun name id => t.idOfKind .scalar name = .ok id) d.inputs ids ∧
    c = ⟨d.name, .derived ids d.kernel⟩

/-- The columns of some definitions are added at the end, in order, and nothing else changes. -/
def Appends (t : EventTable α) (ds : List Definition) (t' : EventTable α) : Prop :=
  ∃ cs, List.Forall₂ t.Makes ds cs ∧ t' = { t with columns := t.columns ++ cs.toArray }

theorem Appends.nil (t : EventTable α) : t.Appends [] t :=
  ⟨[], .nil, rfl⟩

theorem Appends.filters (h : t.Appends ds t') : t'.filters = t.filters := by
  obtain ⟨cs, -, rfl⟩ := h
  rfl

/-- Scalar columns are found where they were before others were added. -/
theorem Makes.of_keepsColumns {c : Column} (h : t'.Makes d c) (hk : t.KeepsColumns t')
    (hin : ∀ name ∈ d.inputs, t.kindOf? name = some .scalar) : t.Makes d c := by
  obtain ⟨ids, hids, rfl⟩ := h
  refine ⟨ids, ?_, rfl⟩
  generalize d.inputs = inputs at hids hin
  induction hids with
  | nil => exact .nil
  | @cons name id inputs ids hid _ ih =>
    obtain ⟨i, hi⟩ := kindOf?_eq_some_iff.1 (hin name List.mem_cons_self)
    obtain rfl : i = id := Except.ok.inj ((hk.idOfKind hi).symm.trans hid)
    exact .cons hi (ih fun name hname => hin name (List.mem_cons_of_mem _ hname))

theorem Appends.cons (hdef : t.defineColumn d.name d.kernel d.inputs = .ok t')
    (hrest : t'.Appends ds t'')
    (hin : ∀ e ∈ ds, ∀ c ∈ e.inputs, t.kindOf? c = some .scalar) : t.Appends (d :: ds) t'' := by
  obtain ⟨-, ids, hids, rfl⟩ := defineColumn_eq_ok_iff.1 hdef
  obtain ⟨cs, hcs, rfl⟩ := hrest
  refine ⟨⟨d.name, .derived ids d.kernel⟩ :: cs, .cons ⟨ids, hids, rfl⟩ ?_, ?_⟩
  · refine List.forall₂_iff_get.2 ⟨hcs.length_eq, fun i hi hi' => ?_⟩
    exact (hcs.get hi hi').of_keepsColumns (.push _) (hin _ (List.get_mem _ _))
  · have hcolumns : t.columns.push ⟨d.name, .derived ids d.kernel⟩ ++ cs.toArray =
        t.columns ++ (⟨d.name, .derived ids d.kernel⟩ :: cs).toArray := by
      rw [← Array.toList_inj]
      simp
    dsimp only
    rw [hcolumns]

end EventTable

namespace VariedTable

open EventTable

variable {v v' : VariedTable α} {ds : List Definition} {e : Definition} {name : String}
  {affected : List String}

/-! ## What is added -/

/-- Columns that read scalar columns of the table at hand are added as they stand. -/
theorem appends_of_forM (hin : ∀ d ∈ ds, ∀ c ∈ d.inputs, v.table.kindOf? c = some .scalar)
    (h : (ds.forM fun d => addDerived d.name d.kernel d.inputs) v = .ok () v') :
    ∃ t, v.table.Appends ds t ∧ v' = { v with table := t } := by
  induction ds generalizing v with
  | nil =>
    cases h
    exact ⟨_, .nil _, rfl⟩
  | cons d ds ih =>
    obtain ⟨⟨⟩, u, hfirst, hrest⟩ := Step.bind_eq_ok_iff.1 h
    obtain ⟨t, hdef, rfl⟩ := onTable_attempt_eq_ok_iff.1 hfirst
    have hext := (added_of_defineColumn hdef).ext
    have hin' : ∀ e ∈ ds, ∀ c ∈ e.inputs, v.table.kindOf? c = some .scalar :=
      fun e he => hin e (List.mem_cons_of_mem _ he)
    obtain ⟨t', happends, rfl⟩ := ih (fun e he c hc => hext.kindOf? (hin' e he c hc)) hrest
    exact ⟨t', .cons hdef happends hin', rfl⟩

/-- Columns are added, and one of them is registered for some of the systematics. -/
structure Expanded (v : VariedTable α) (ds : List Definition) (affected : List String)
    (name : String) (v' : VariedTable α) : Prop where
  columns : v.table.Appends ds v'.table
  systematics : v'.registry.systematics = v.registry.systematics
  affects : ∀ s c, v'.registry.affects s c = true ↔
    v.registry.affects s c = true ∨ s ∈ affected ∧ c = name

theorem expanded_of_expand
    (hin : ∀ d ∈ ds, ∀ c ∈ d.inputs, v.table.kindOf? c = some .scalar)
    (hs : ∀ s ∈ affected, s ∈ v.registry.systematics)
    (h : expand ds affected name v = .ok () v') : v.Expanded ds affected name v' := by
  obtain ⟨⟨⟩, u, hadd, hregister⟩ := Step.bind_eq_ok_iff.1 h
  obtain ⟨t, happends, rfl⟩ := appends_of_forM hin hadd
  rw [forM_register] at hregister
  cases hregister
  refine ⟨happends, Registry.systematics_foldl_register hs, fun s c => ?_⟩
  rw [Registry.affects_foldl_register, List.mem_singleton]

/-- A step that expands the table when it goes through. -/
theorem expanded_of_eq_ok {β : Type} {answer b : β}
    (hin : ∀ d ∈ ds, ∀ c ∈ d.inputs, v.table.kindOf? c = some .scalar)
    (hs : ∀ s ∈ affected, s ∈ v.registry.systematics)
    (h : (do expand ds affected name; return answer : Step (VariedTable α) β) v = .ok b v') :
    v.Expanded ds affected name v' := by
  obtain ⟨⟨⟩, u, hexpand, hanswer⟩ := Step.bind_eq_ok_iff.1 h
  cases hanswer
  exact expanded_of_expand hin hs hexpand

/-! ## When it is added -/

/-- The conditions of a definition, systematic by systematic. -/
theorem plannable_iff : v.Plannable e ↔
    (∀ c ∈ e.inputs, v.table.kindOf? c = some .scalar) ∧
    (∀ s ∈ v.affectingAny e.inputs, ∀ c ∈ e.inputs, v.registry.affects s c = true → ∀ d,
      v.table.kindOf? (variationColumn c s d) = some .scalar) ∧
    v.table.idOf? e.name = none ∧
    ∀ s ∈ v.affectingAny e.inputs, ∀ d, v.table.idOf? (variationColumn e.name s d) = none := by
  constructor
  · intro h
    refine ⟨h.inputs, fun s _ c hc haff d => h.shifted s d c hc haff,
      h.free e List.mem_cons_self, fun s hs d => ?_⟩
    exact h.free (v.copyOf e (s, d))
      (List.mem_cons_of_mem _ (List.mem_map_of_mem (mem_shiftsOf.2 hs)))
  · rintro ⟨hin, hshifted, hfree, hcopies⟩
    refine ⟨hin, fun s d c hc haff => ?_, fun f hf => ?_⟩
    · exact hshifted s (mem_affectingAny.2 ⟨c, hc, haff⟩) c hc haff d
    · rcases List.mem_cons.1 hf with rfl | hf
      · exact hfree
      · obtain ⟨shift, hshift, rfl⟩ := List.mem_map.1 hf
        exact hcopies shift.1 (mem_shiftsOf.1 hshift) shift.2

theorem define_allOrNothing (v : VariedTable α) (e : Definition) :
    (define e.name e.kernel e.inputs).AllOrNothing v (v.Plannable e) (v.affectingAny e.inputs)
      (v.Expanded (v.withCopies e) (v.affectingAny e.inputs) e.name) := by
  obtain ⟨t, hp, -, hdef⟩ | hrefused := define_eq v.registry.nodup_systematics e
  · refine .inl ⟨hp, _, hdef, ?_⟩
    rw [define_of_plannable hp] at hdef
    exact expanded_of_eq_ok hp.kindOf? (fun s hs => (List.mem_filter.1 hs).1) hdef
  · obtain ⟨fault, hp, hdef⟩ := hrefused
    exact .inr ⟨hp, fault, hdef⟩

theorem defineFormula_of_compile {source : String} {f : Formula}
    (h : Formula.compile source = .ok f) :
    (defineFormula name source : Step (VariedTable α) (List String)) =
      define name f.kernel f.inputs := by
  rw [defineFormula, h]

theorem defineFormula_of_compile_error {source : String} {fault : Formula.Fault}
    (h : Formula.compile source = .error fault) :
    defineFormula name source v = .error (.formula fault) v := by
  rw [defineFormula, h]
  rfl

theorem buildCatalog_allOrNothing (v : VariedTable α) (base : String) :
    (buildCatalog base).AllOrNothing v (∀ c ∈ v.indexColumns base, v.table.idOf? c = none)
      (variationLabels v.registry.systematics)
      (v.Expanded (v.indexDefinitions base) v.registry.systematics base) := by
  obtain ⟨t, hfree, -, hcatalog⟩ | hrefused := buildCatalog_eq v.registry.nodup_systematics base
  · refine .inl ⟨hfree, _, hcatalog, ?_⟩
    rw [buildCatalog_of_free hfree] at hcatalog
    exact expanded_of_eq_ok (inputs_of_mem_indexDefinitions v base) (fun s hs => hs) hcatalog
  · obtain ⟨fault, hfree, hcatalog⟩ := hrefused
    exact .inr ⟨hfree, fault, hcatalog⟩

/-- Outcomes of definitions.  The systematics that affect a definition are those that affect an
input, in the order of the registry.  A definition goes through exactly when its inputs and their
copies under these systematics are scalar columns, and its name and the names of its copies are
free.  It then adds the column and its copies, in order, and registers the column for these
systematics; otherwise it changes nothing.  A definition by a formula does the same if the formula
can be read, and changes nothing if not.  A catalog is built as a whole, or nothing is changed. -/
theorem outcome_of_definitions (v : VariedTable α) :
    (∀ e : Definition,
      (v.affectingAny e.inputs).Sublist v.registry.systematics ∧
      (∀ s, s ∈ v.affectingAny e.inputs ↔ ∃ c ∈ e.inputs, v.registry.affects s c = true) ∧
      (v.Plannable e ↔
        (∀ c ∈ e.inputs, v.table.kindOf? c = some .scalar) ∧
        (∀ s ∈ v.affectingAny e.inputs, ∀ c ∈ e.inputs, v.registry.affects s c = true → ∀ d,
          v.table.kindOf? (variationColumn c s d) = some .scalar) ∧
        v.table.idOf? e.name = none ∧
        ∀ s ∈ v.affectingAny e.inputs, ∀ d,
          v.table.idOf? (variationColumn e.name s d) = none) ∧
      (define e.name e.kernel e.inputs).AllOrNothing v (v.Plannable e) (v.affectingAny e.inputs)
        (v.Expanded (v.withCopies e) (v.affectingAny e.inputs) e.name)) ∧
    (∀ name source,
      (∃ fault, Formula.compile source = .error fault ∧
        defineFormula name source v = .error (.formula fault) v) ∨
      ∃ f, Formula.compile source = .ok f ∧
        (defineFormula name source).AllOrNothing v (v.Plannable ⟨name, f.kernel, f.inputs⟩)
          (v.affectingAny f.inputs)
          (v.Expanded (v.withCopies ⟨name, f.kernel, f.inputs⟩) (v.affectingAny f.inputs) name)) ∧
    ∀ base, (buildCatalog base).AllOrNothing v
      (∀ c ∈ v.indexColumns base, v.table.idOf? c = none)
      (variationLabels v.registry.systematics)
      (v.Expanded (v.indexDefinitions base) v.registry.systematics base) := by
  refine ⟨fun e => ⟨List.filter_sublist, fun s => mem_affectingAny, plannable_iff,
    define_allOrNothing v e⟩, fun name source => ?_, buildCatalog_allOrNothing v⟩
  cases hc : Formula.compile source with
  | error fault => exact .inl ⟨fault, rfl, defineFormula_of_compile_error hc⟩
  | ok f =>
    refine .inr ⟨f, rfl, ?_⟩
    rw [defineFormula_of_compile hc]
    exact define_allOrNothing v ⟨name, f.kernel, f.inputs⟩

/-- One event with a number and its copies under a systematic. -/
def shiftedNumber : VariedTable Recorder where
  table := ⟨1, 0, #[⟨"x", .stored #[1]⟩, ⟨"x_SUp", .stored #[2]⟩, ⟨"x_SDown", .stored #[0]⟩],
    [], [], [], 0⟩
  registry := Registry.empty.register "S" ["x"]

example : (define "y" (.scalar List.sum) ["x"]).answer shiftedNumber = .ok ["S"] := by cbv

end VariedTable

end VariHist
