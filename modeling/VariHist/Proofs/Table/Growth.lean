import Mathlib
import VariHist.Proofs.Table.History
import VariHist.Proofs.Table.Values

/-!
# Tables only grow

Whatever is done to a table, columns and filters are added at the end, and the rows stay.

* `Grows` — a table has grown out of another; by `grows_afterAll` that is so after all operations.
* `Grows.passesOn` — the rows that are kept later are among those that are kept now.
* `vectorOn_of_keepsColumns` — a vector column keeps its values.
-/

namespace VariHist

namespace EventTable

variable {α : Type} {t t' t'' : EventTable α} {row id : Nat}

/-- Columns and filters are added at the end, and the rows stay. -/
structure Grows (t t' : EventTable α) : Prop extends KeepsColumns t t' where
  rows : t'.rows = t.rows
  filters : t.filters <+: t'.filters

theorem Grows.of_columns (hc : t'.columns = t.columns) (hrows : t'.rows = t.rows)
    (hfilters : t.filters <+: t'.filters) : t.Grows t' where
  idOf? n id h := by rw [EventTable.idOf?, hc]; exact h
  column id c h := by rw [hc]; exact h
  rows := hrows
  filters := hfilters

theorem Grows.refl (t : EventTable α) : t.Grows t :=
  .of_columns rfl rfl (List.prefix_refl _)

theorem Grows.trans (h : t.Grows t') (h' : t'.Grows t'') : t.Grows t'' where
  toKeepsColumns := h.toKeepsColumns.trans h'.toKeepsColumns
  rows := h'.rows.trans h.rows
  filters := h.filters.trans h'.filters

theorem Grows.push (c : Column) : t.Grows { t with columns := t.columns.push c } :=
  ⟨.push c, rfl, List.prefix_refl _⟩

theorem Grows.settle {r : Except Error (EventTable α)} (h : ∀ t', r = .ok t' → t.Grows t') :
    t.Grows (t.settle r) := by
  cases r with
  | error e => exact .refl t
  | ok t' => exact h t' rfl

theorem Grows.of_defineColumn {name : String} {kernel : Kernel} {inputs : List String}
    (h : t.defineColumn name kernel inputs = .ok t') : t.Grows t' := by
  obtain ⟨-, ids, -, rfl⟩ := defineColumn_eq_ok_iff.1 h
  exact .push _

/-- Every operation makes a table grow. -/
theorem grows_carryOut [Aggregation α] (op : Operation α) (t : EventTable α) :
    t.Grows (op.carryOut t) := by
  cases op with
  | addColumn name values =>
    refine .settle fun t' h => ?_
    obtain ⟨-, -, rfl⟩ := addColumn_eq_ok_iff.1 h
    exact .push _
  | defineColumn name kernel inputs => exact .settle fun t' => Grows.of_defineColumn
  | defineFormula name source =>
    refine .settle fun t' h => ?_
    obtain ⟨formula, -, h⟩ := exists_of_defineFormula h
    exact .of_defineColumn h
  | filterRows name =>
    refine .settle fun t' h => ?_
    obtain ⟨id, -, rfl⟩ := filterRows_eq_ok_iff.1 h
    exact .of_columns rfl rfl (List.prefix_append _ _)
  | withThreads threads => exact .of_columns rfl rfl (List.prefix_refl _)
  | subscribe name action =>
    refine .settle fun t' h => ?_
    obtain ⟨id, -, rfl⟩ := subscribe_eq_ok_iff.1 h
    exact .of_columns rfl rfl (List.prefix_refl _)
  | run =>
    show t.Grows (Step.stateAfter run t)
    obtain ⟨made, pending, runs, -, h⟩ := exists_stateAfter_run t
    rw [h]
    exact .of_columns rfl rfl (List.prefix_refl _)

/-- So does every sequence of operations. -/
theorem grows_afterAll [Aggregation α] (ops : List (Operation α)) (t : EventTable α) :
    t.Grows (t.afterAll ops) := by
  induction ops generalizing t with
  | nil => exact .refl t
  | cons op ops ih => exact (grows_carryOut op t).trans (ih (op.carryOut t))

/-- The rows that are kept later are kept now. -/
theorem Grows.passesOn (h : t.Grows t') (ht : t.WellFormed)
    (hp : VariHist.passesOn t'.columns t'.filters row = true) :
    VariHist.passesOn t.columns t.filters row = true := by
  obtain ⟨more, hmore⟩ := h.filters
  rw [← hmore, VariHist.passesOn, List.all_append, Bool.and_eq_true] at hp
  rw [← h.toKeepsColumns.passesOn ht.inputs ht.filters]
  exact hp.1

/-- Columns at the end change no vector column before them. -/
theorem vectorOn_of_keepsColumns (h : t.KeepsColumns t') (hc : InputsBefore t.columns)
    (hid : id < t.columns.size) : vectorOn t'.columns row id = vectorOn t.columns row id := by
  have hcol : t.columns[id]? = some t.columns[id] := Array.getElem?_eq_getElem hid
  have hcol' := h.column id _ hcol
  rw [vectorOn, vectorOn, hcol, hcol']
  rcases hsource : t.columns[id] with ⟨name, values | ⟨ids, f | f⟩⟩
  · rfl
  · rfl
  · refine congrArg f (List.map_congr_left fun i hi => ?_)
    have hlt := (hc id _ hcol i (by rw [hsource]; exact hi)).1
    exact scalarOn_of_keepsColumns h hc (hlt.trans hid)

end EventTable

end VariHist
