import Mathlib
import VariHist.Proofs.Systematics.Outcomes

/-!
# Outcomes of filters

A filter on a table with shifted columns is two steps: a definition, and the filter on the column
that it adds.  The definition is carried out as a whole or not at all, but nothing asks beforehand
whether the second step can be done.  It cannot if the kernel makes vectors.

* `filter_of_scalar` — with a scalar kernel, the two steps are carried out together or not at all.
* `filter_of_vector` — with a vector kernel, a filter always fails; its definition stays.
* `VariedTable.outcome_of_filters` — what a filter does with any kernel, and what one by a formula
  does.
-/

namespace VariHist

variable {α : Type}

namespace EventTable

variable {t t' : EventTable α} {d : Definition} {ds : List Definition} {name : String}

/-- The first column that is added is found under its name. -/
theorem idOf?_of_appends (hfree : t.idOf? d.name = none) (h : t.Appends (d :: ds) t') :
    t'.idOf? d.name = some t.columns.size ∧
      kindIn t'.columns t.columns.size = some d.kernel.kind := by
  obtain ⟨cs, hcs, rfl⟩ := h
  cases hcs with
  | @cons _ c _ cs hc _ =>
    obtain ⟨ids, -, rfl⟩ := hc
    unfold idOf? at hfree ⊢
    constructor
    · rw [Array.findIdx?_append, hfree]
      simp [List.findIdx?_cons]
    · simp [kindIn, Column.kind, Source.kind]

theorem filterRows_of_vector (h : t.kindOf? name = some .vector) :
    t.filterRows name = .error (.columnKind name .scalar .vector) := by
  obtain ⟨id, hid⟩ := kindOf?_eq_some_iff.1 h
  have hfault : t.idOfKind .scalar name = .error (.columnKind name .scalar .vector) := by
    rw [idOfKind, (idOfKind_eq_ok_iff.1 hid).1, h]
    rfl
  rw [filterRows, hfault]
  rfl

end EventTable

namespace VariedTable

open EventTable

variable {v : VariedTable α} {e : Definition} {name : String} {id : Nat}

/-! ## The second step -/

theorem keepWhere_eq_ok (hid : v.table.idOfKind .scalar name = .ok id) :
    keepWhere name v = .ok ()
      { v with table := { v.table with filters := v.table.filters ++ [id] } } :=
  onTable_attempt_eq_ok_iff.2 ⟨_, filterRows_eq_ok_iff.2 ⟨id, hid, rfl⟩, rfl⟩

theorem keepWhere_of_vector (h : v.table.kindOf? name = some .vector) :
    keepWhere name v = .error (.columnKind name .scalar .vector) v := by
  unfold keepWhere onTable Step.within Step.attempt
  dsimp only
  rw [filterRows_of_vector h]

/-! ## Both steps -/

/-- Columns are added and registered, and then the rows are filtered by the first of them, which
stands behind all columns that there were. -/
def Filtered (v : VariedTable α) (ds : List Definition) (affected : List String) (name : String)
    (v' : VariedTable α) : Prop :=
  ∃ w, v.Expanded ds affected name w ∧ w.table.idOf? name = some v.table.columns.size ∧
    v' = { w with table :=
      { w.table with filters := v.table.filters ++ [v.table.columns.size] } }

/-- A filter fails where its definition fails. -/
theorem filter_of_error {fault : Error} {v' : VariedTable α} {kernel : Kernel}
    {inputs : List String} (h : define name kernel inputs v = .error fault v') :
    filter name kernel inputs v = .error fault v' :=
  Step.bind_eq_error_iff.2 (.inl h)

/-- With a scalar kernel, a filter is carried out as a whole or not at all. -/
theorem filter_of_scalar (v : VariedTable α) (h : e.kernel.kind = .scalar) :
    (filter e.name e.kernel e.inputs).AllOrNothing v (v.Plannable e) (v.affectingAny e.inputs)
      (v.Filtered (v.withCopies e) (v.affectingAny e.inputs) e.name) := by
  obtain ⟨hp, w, hdef, hexpanded⟩ | ⟨hp, fault, hdef⟩ := define_allOrNothing v e
  · obtain ⟨hid, hkind⟩ := idOf?_of_appends (hp.free e List.mem_cons_self) hexpanded.columns
    rw [h] at hkind
    have hkeep := keepWhere_eq_ok (idOfKind_eq_ok_iff.2 ⟨hid, hkind⟩)
    rw [hexpanded.columns.filters] at hkeep
    refine .inl ⟨hp, _, ?_, w, hexpanded, hid, rfl⟩
    exact Step.bind_eq_ok_iff.2 ⟨_, w, hdef, Step.bind_eq_ok_iff.2 ⟨(), _, hkeep, rfl⟩⟩
  · exact .inr ⟨hp, fault, filter_of_error hdef⟩

/-- With a vector kernel, a filter fails.  If its definition goes through, it stays. -/
theorem filter_of_vector (v : VariedTable α) (h : e.kernel.kind = .vector) :
    ∃ fault v', filter e.name e.kernel e.inputs v = .error fault v' ∧
      (¬v.Plannable e ∧ v' = v ∨
        v.Plannable e ∧ fault = .columnKind e.name .scalar .vector ∧
          v.Expanded (v.withCopies e) (v.affectingAny e.inputs) e.name v') := by
  obtain ⟨hp, w, hdef, hexpanded⟩ | ⟨hp, fault, hdef⟩ := define_allOrNothing v e
  · obtain ⟨hid, hkind⟩ := idOf?_of_appends (hp.free e List.mem_cons_self) hexpanded.columns
    rw [h] at hkind
    have hkeep := keepWhere_of_vector
      (kindOf?_eq_some_iff.2 ⟨_, idOfKind_eq_ok_iff.2 ⟨hid, hkind⟩⟩)
    refine ⟨_, w, ?_, .inr ⟨hp, rfl, hexpanded⟩⟩
    exact Step.bind_eq_error_iff.2 (.inr ⟨_, w, hdef, Step.bind_eq_error_iff.2 (.inl hkeep)⟩)
  · exact ⟨fault, v, filter_of_error hdef, .inl ⟨hp, rfl⟩⟩

theorem filterFormula_of_compile {source : String} {f : Formula}
    (h : Formula.compile source = .ok f) :
    (filterFormula name source : Step (VariedTable α) (List String)) =
      filter name f.kernel f.inputs := by
  rw [filterFormula, defineFormula_of_compile h]
  rfl

theorem filterFormula_of_compile_error {source : String} {fault : Formula.Fault}
    (h : Formula.compile source = .error fault) :
    filterFormula name source v = .error (.formula fault) v :=
  Step.bind_eq_error_iff.2 (.inl (defineFormula_of_compile_error h))

/-- Outcomes of filters.  With a scalar kernel, a filter is carried out as a whole or not at all:
the column and its copies are added and registered as by a definition, and one filter is set on the
column.  With a vector kernel it fails, and leaves the columns and the registry of its definition
behind if the definition goes through.  Formulas are scalar kernels, so that a filter by a formula
is carried out as a whole or not at all; it changes nothing if the formula cannot be read. -/
theorem outcome_of_filters (v : VariedTable α) :
    (∀ e : Definition,
      e.kernel.kind = .scalar ∧
        (filter e.name e.kernel e.inputs).AllOrNothing v (v.Plannable e)
          (v.affectingAny e.inputs)
          (v.Filtered (v.withCopies e) (v.affectingAny e.inputs) e.name) ∨
      e.kernel.kind = .vector ∧
        ∃ fault v', filter e.name e.kernel e.inputs v = .error fault v' ∧
          (¬v.Plannable e ∧ v' = v ∨
            v.Plannable e ∧ fault = .columnKind e.name .scalar .vector ∧
              v.Expanded (v.withCopies e) (v.affectingAny e.inputs) e.name v')) ∧
    ∀ name source,
      (∃ fault, Formula.compile source = .error fault ∧
        filterFormula name source v = .error (.formula fault) v) ∨
      ∃ f, Formula.compile source = .ok f ∧
        (filterFormula name source).AllOrNothing v (v.Plannable ⟨name, f.kernel, f.inputs⟩)
          (v.affectingAny f.inputs)
          (v.Filtered (v.withCopies ⟨name, f.kernel, f.inputs⟩) (v.affectingAny f.inputs)
            name) := by
  constructor
  · intro e
    cases hkind : e.kernel.kind with
    | scalar => exact .inl ⟨rfl, filter_of_scalar v hkind⟩
    | vector => exact .inr ⟨rfl, filter_of_vector v hkind⟩
  · intro name source
    cases hc : Formula.compile source with
    | error fault => exact .inl ⟨fault, rfl, filterFormula_of_compile_error hc⟩
    | ok f =>
      refine .inr ⟨f, rfl, ?_⟩
      rw [filterFormula_of_compile hc]
      exact filter_of_scalar (e := ⟨name, f.kernel, f.inputs⟩) v rfl

/-- A filter by a vector column is refused, and its columns and what was registered stay. -/
theorem refused_filter_leaves_columns :
    (filter "sel" .concat ["x"]).answer shiftedNumber =
      .error (.columnKind "sel" .scalar .vector) ∧
    ((filter "sel" .concat ["x"]).stateAfter shiftedNumber).table.columnNames =
      shiftedNumber.table.columnNames ++ ["sel", "sel_SUp", "sel_SDown"] ∧
    ((filter "sel" .concat ["x"]).stateAfter shiftedNumber).registry.affects "S" "sel" = true ∧
    shiftedNumber.registry.affects "S" "sel" = false := by
  refine ⟨by cbv, ?_, ?_, ?_⟩
  · decide +kernel
  · decide +kernel
  · decide +kernel

end VariedTable

end VariHist
