import Mathlib
import VariHist.Proofs.Table.Definitions
import VariHist.Proofs.Table.Evaluation

/-!
# Values by name

* `EventTable.evaluate` — what the event loop works out for a column on a row, scheduled alone;
  `evaluate_eq_of_kept` — scheduled with others it is the same.
* `Defines.evaluate` — a defined column holds what its kernel makes of the values of its inputs.
-/

namespace VariHist

/-- What a column holds on a row. -/
inductive ColumnValue where
  | scalar (x : Float)
  | vector (xs : List Float)

/-- What a kernel makes of the values of its inputs. -/
def Kernel.apply (kernel : Kernel) (inputs : List Float) : ColumnValue :=
  match kernel with
  | .scalar f => .scalar (f inputs)
  | .vector f => .vector (f inputs)

/-- The value that the buffers hold for a column of a kind. -/
def RowBuffers.value (b : RowBuffers) (id : Nat) : ColumnKind → ColumnValue
  | .scalar => .scalar (b.scalar id)
  | .vector => .vector (b.vector id)

namespace EventTable

variable {α : Type} {t t' : EventTable α} {d : Definition} {name : String} {kind : ColumnKind}
  {row id : Nat}

/-- What the event loop works out for a column on a row, if it is the only column asked for. -/
def evaluate (t : EventTable α) (name : String) (row : Nat) : Option ColumnValue :=
  (t.idOf? name).bind fun id => (kindIn t.columns id).map <|
    (RowBuffers.evalRow t.columns (Schedule.make t.columns [] [id])
      (.empty t.columns.size) row).1.value id

/-- The number that the event loop works out for a scalar column. -/
def numberOn (t : EventTable α) (row : Nat) (name : String) : Float :=
  match t.evaluate name row with
  | some (.scalar x) => x
  | _ => 0

theorem numberOn_of_evaluate {x : Float} (h : t.evaluate name row = some (.scalar x)) :
    t.numberOn row name = x := by
  rw [numberOn, h]

/-- The value of the column at a position. -/
def valueOn (columns : Array Column) (row id : Nat) : ColumnKind → ColumnValue
  | .scalar => .scalar (scalarOn columns row id)
  | .vector => .vector (vectorOn columns row id)

theorem value_eq_valueOn {columns : Array Column} {b : RowBuffers} {done : Nat → Prop}
    (h : b.Holds columns row done) (hid : done id) (hk : kindIn columns id = some kind) :
    b.value id kind = valueOn columns row id kind := by
  cases kind with
  | scalar => exact congrArg ColumnValue.scalar (h.scalar id hid hk)
  | vector => exact congrArg ColumnValue.vector (h.vector id hid hk)

/-- Whatever else is scheduled and whatever an earlier row left in the buffers, on a row that the
filters keep an asked for column gets its value. -/
theorem value_evalRow_of_kept {columns : Array Column} (hc : InputsBefore columns)
    {filters targets : List Nat} (hf : ∀ i ∈ filters, kindIn columns i = some .scalar)
    (ht : ∀ i ∈ targets, i < columns.size) {b : RowBuffers}
    (hb : b.Holds columns row fun _ => False) (hid : id ∈ targets)
    (hk : kindIn columns id = some kind)
    (hkept : (RowBuffers.evalRow columns (Schedule.make columns filters targets) b row).2 = true) :
    (RowBuffers.evalRow columns (Schedule.make columns filters targets) b row).1.value id kind =
      valueOn columns row id kind := by
  obtain ⟨hpass, hholds⟩ := hb.evalRow_make hc hf ht
  exact value_eq_valueOn hholds ⟨hpass ▸ hkept, hid⟩ hk

theorem evaluate_eq (hc : InputsBefore t.columns) (hid : t.idOfKind kind name = .ok id) :
    t.evaluate name row = some (valueOn t.columns row id kind) := by
  obtain ⟨hid, hk⟩ := idOfKind_eq_ok_iff.1 hid
  obtain ⟨-, hholds⟩ := @RowBuffers.Holds.evalRow_make _ row _ hc [] [id] (by simp)
    (by simpa using kindIn_eq_some_lt hk) (.empty t.columns row)
  have hdone : passesOn t.columns [] row = true ∧ id ∈ [id] := ⟨rfl, List.mem_singleton.2 rfl⟩
  rw [evaluate, hid, Option.bind_some, hk, Option.map_some]
  exact congrArg some (value_eq_valueOn hholds hdone hk)

/-- In every event loop that collects a column, on every row that is kept, the column has the value
that it has on its own. -/
theorem evaluate_eq_of_kept (hc : InputsBefore t.columns) {filters targets : List Nat}
    (hf : ∀ i ∈ filters, kindIn t.columns i = some .scalar)
    (ht : ∀ i ∈ targets, i < t.columns.size) {b : RowBuffers}
    (hb : b.Holds t.columns row fun _ => False) (hid : t.idOfKind kind name = .ok id)
    (hmem : id ∈ targets)
    (hkept : (RowBuffers.evalRow t.columns (Schedule.make t.columns filters targets) b row).2 =
      true) :
    t.evaluate name row = some ((RowBuffers.evalRow t.columns
      (Schedule.make t.columns filters targets) b row).1.value id kind) := by
  rw [value_evalRow_of_kept hc hf ht hb hmem (idOfKind_eq_ok_iff.1 hid).2 hkept]
  exact evaluate_eq hc hid

theorem exists_evaluate (hc : InputsBefore t.columns) (h : t.idOf? name = some id) (row : Nat) :
    ∃ x, t.evaluate name row = some x := by
  obtain ⟨c, hcol, -⟩ := exists_of_idOf? h
  have hk : kindIn t.columns id = some c.kind := by rw [kindIn, hcol, Option.map_some]
  exact ⟨_, evaluate_eq hc (idOfKind_eq_ok_iff.2 ⟨h, hk⟩)⟩

/-- A scalar column holds a number. -/
theorem evaluate_scalar (hc : InputsBefore t.columns) (h : t.kindOf? name = some .scalar)
    (row : Nat) : t.evaluate name row = some (.scalar (t.numberOn row name)) := by
  obtain ⟨id, hid⟩ := kindOf?_eq_some_iff.1 h
  rw [numberOn, evaluate_eq hc hid]
  rfl

theorem numberOn_of_idOfKind (hc : InputsBefore t.columns)
    (hid : t.idOfKind .scalar name = .ok id) :
    t.numberOn row name = scalarOn t.columns row id := by
  rw [numberOn, evaluate_eq hc hid]
  rfl

/-! ## Defined columns -/

theorem valueOn_derived {columns : Array Column} (hc : InputsBefore columns) {ids : List Nat}
    {kernel : Kernel} (h : columns[id]? = some ⟨name, .derived ids kernel⟩) :
    valueOn columns row id kernel.kind = kernel.apply (ids.map (scalarOn columns row)) := by
  cases kernel with
  | scalar f => exact congrArg ColumnValue.scalar (scalarOn_derived hc h)
  | vector f => exact congrArg ColumnValue.vector (vectorOn_derived h)

/-- A defined column holds what its kernel makes of the values of its inputs. -/
theorem Defines.evaluate (hc : InputsBefore t.columns) (h : t.Defines d) (row : Nat) :
    t.evaluate d.name row = some (d.kernel.apply (d.inputs.map (t.numberOn row))) := by
  obtain ⟨id, ids, hid, hcol, hids⟩ := h
  have hk : kindIn t.columns id = some d.kernel.kind := by
    rw [kindIn, hcol]
    rfl
  have hargs : ids.map (scalarOn t.columns row) = d.inputs.map (t.numberOn row) := by
    rw [← List.forall₂_eq_eq_eq, List.forall₂_map_left_iff, List.forall₂_map_right_iff]
    exact hids.flip.imp fun i c hi => (numberOn_of_idOfKind hc hi).symm
  rw [evaluate_eq hc (idOfKind_eq_ok_iff.2 ⟨hid, hk⟩), valueOn_derived hc hcol, hargs]

/-! ## Values in tables that grow -/

/-- Columns at the end change no value before them.  The induction is on the position. -/
theorem scalarOn_of_keepsColumns (h : t.KeepsColumns t') (hc : InputsBefore t.columns)
    (hid : id < t.columns.size) : scalarOn t'.columns row id = scalarOn t.columns row id := by
  induction id using Nat.strong_induction_on with
  | _ id ih =>
    have hcol : t.columns[id]? = some t.columns[id] := Array.getElem?_eq_getElem hid
    have hcol' := h.column id _ hcol
    rw [scalarOn, scalarOn, hcol, hcol', Option.map_some]
    rcases hsource : t.columns[id].source with values | ⟨ids, f | f⟩
    · rfl
    · refine congrArg f (List.map_congr_left fun i hi => ?_)
      have hlt := (hc id _ hcol i (by rw [hsource]; exact hi)).1
      rw [dif_pos hlt, dif_pos hlt, ih i hlt (hlt.trans hid)]
    · rfl

/-- Filters over columns that were there before keep the same rows. -/
theorem KeepsColumns.passesOn (h : t.KeepsColumns t') (hc : InputsBefore t.columns)
    {filters : List Nat} (hf : ∀ i ∈ filters, VariHist.kindIn t.columns i = some .scalar) :
    passesOn t'.columns filters row = passesOn t.columns filters row := by
  have hvalue : ∀ i ∈ filters, scalarOn t'.columns row i = scalarOn t.columns row i :=
    fun i hi => scalarOn_of_keepsColumns h hc (kindIn_eq_some_lt (hf i hi))
  rw [Bool.eq_iff_iff, VariHist.passesOn, VariHist.passesOn, List.all_eq_true, List.all_eq_true]
  exact forall₂_congr fun i hi => by rw [hvalue i hi]

theorem numberOn_of_keepsColumns (h : t.KeepsColumns t') (hc : InputsBefore t.columns)
    (hc' : InputsBefore t'.columns) (hname : t.kindOf? name = some .scalar) :
    t'.numberOn row name = t.numberOn row name := by
  obtain ⟨id, hid⟩ := kindOf?_eq_some_iff.1 hname
  rw [numberOn_of_idOfKind hc hid, numberOn_of_idOfKind hc' (h.idOfKind hid)]
  exact scalarOn_of_keepsColumns h hc (kindIn_eq_some_lt (idOfKind_eq_ok_iff.1 hid).2)

/-- In a well formed table a column is found under its name. -/
theorem WellFormed.idOf? (ht : t.WellFormed) {c : Column} (h : t.columns[id]? = some c) :
    t.idOf? c.name = some id := by
  have hnames : ∀ (i : Nat) (c : Column),
      t.columns[i]? = some c → t.columnNames[i]? = some c.name := by
    intro i c hc
    rw [columnNames, List.getElem?_map, Array.getElem?_toList, hc, Option.map_some]
  cases hfound : t.idOf? c.name with
  | none =>
    refine absurd ?_ (idOf?_eq_none_iff.1 hfound)
    exact List.mem_of_getElem? (hnames id c h)
  | some found =>
    obtain ⟨c', hc', hname⟩ := exists_of_idOf? hfound
    have hlt := (List.getElem?_eq_some_iff.1 (hnames found c' hc')).1
    refine congrArg some ((List.getElem?_inj hlt ht.names).1 ?_)
    rw [hnames found c' hc', hnames id c h, hname]

/-- Every derived column comes from a definition. -/
theorem WellFormed.exists_defines (ht : t.WellFormed) {ids : List Nat} {kernel : Kernel}
    (h : t.columns[id]? = some ⟨name, .derived ids kernel⟩) :
    ∃ inputs, t.Defines ⟨name, kernel, inputs⟩ := by
  have hids : ∀ i ∈ ids, ∃ c, t.idOfKind .scalar c = .ok i := by
    intro i hi
    have hk := (ht.inputs id _ h i hi).2
    obtain ⟨c, hcol, -⟩ := Option.map_eq_some_iff.1 hk
    exact ⟨c.name, idOfKind_eq_ok_iff.2 ⟨ht.idOf? hcol, hk⟩⟩
  choose! names hnames using hids
  refine ⟨ids.map names, id, ids, ht.idOf? h, h, ?_⟩
  rw [List.forall₂_map_left_iff, List.forall₂_same]
  exact hnames

end EventTable

end VariHist
