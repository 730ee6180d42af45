import Mathlib
import VariHist.Proofs.Table.Reachable
import VariHist.Events.Cast

/-!
# Batches as one table

Batches of one schema hold the rows of one table, cut somewhere.  Each column is put together batch
by batch through a search by name.  Where the names are distinct this finds the column at the same
position in every batch, so the columns keep step, and the cuts leave no trace.  Of the cast to
doubles nothing is used but that it casts the cells of numeric columns one by one.

* `CastsEach` — such a cast, with the double that it makes of each cell.
* `HasSchema` — what the batches of one source have in common.
* `toColumns_eq` — the columns that come out, by their positions in the schema.
* `SameRows` — the same table cut in two ways; `sameRows_cut`, `sameRows_join`, `sameRows_empty` are
  the ways to cut, `columnsOf_congr` says that none of them matters.
* `EventTable.ofColumns_eq_ok` — columns of one length with distinct names make a table.
* `columns_of_batches` — the statements together.
-/

namespace VariHist

namespace EventTable

variable {α : Type}

/-- A column of given values. -/
def storedColumn (c : String × Array Float) : Column where
  name := c.1
  source := .stored c.2

/-- Adding columns of the right length under names that are free and distinct goes through. -/
theorem foldlM_addColumn (columns : List (String × Array Float)) (t : EventTable α)
    (hnames : (t.columnNames ++ columns.map Prod.fst).Nodup)
    (hsize : ∀ c ∈ columns, c.2.size = t.rows) :
    columns.foldlM (fun t c => t.addColumn c.1 c.2) t =
      .ok { t with columns := t.columns ++ (columns.map storedColumn).toArray } := by
  induction columns generalizing t with
  | nil => simp [pure, Except.pure]
  | cons c columns ih =>
    have hfree : t.idOf? c.1 = none := by
      rw [idOf?_eq_none_iff]
      intro hc
      exact List.disjoint_of_nodup_append hnames hc (List.mem_map_of_mem List.mem_cons_self)
    have hadd := addColumn_eq_ok_iff.2 ⟨hsize c List.mem_cons_self, hfree, rfl⟩
    rw [List.foldlM_cons, hadd]
    change columns.foldlM _ { t with columns := t.columns.push (storedColumn c) } = _
    rw [ih]
    · simp
    · simpa [columnNames, storedColumn] using hnames
    · exact fun c' hc' => hsize c' (List.mem_cons_of_mem _ hc')

/-- Columns of one length with distinct names make a table with as many rows. -/
theorem ofColumns_eq_ok {columns : List (String × Array Float)} {rows : Nat}
    (hnames : (columns.map Prod.fst).Nodup) (hsize : ∀ c ∈ columns, c.2.size = rows)
    (hne : columns ≠ []) :
    ofColumns (α := α) columns =
      .ok { ofRows rows with columns := (columns.map storedColumn).toArray } := by
  have hrows : (columns.head?.map fun c => c.2.size).getD 0 = rows := by
    obtain ⟨c, columns, rfl⟩ := List.exists_cons_of_ne_nil hne
    exact hsize c List.mem_cons_self
  rw [ofColumns, hrows, foldlM_addColumn _ _ (by simpa [columnNames, ofRows] using hnames) hsize]
  simp [ofRows]

end EventTable

namespace EventBatch

variable {schema : List (String × CellType)} {b b' : EventBatch}
  {batches batches' : List EventBatch}

/-! ## Schemas -/

/-- The columns have these names and types, and equally many cells. -/
structure HasSchema (schema : List (String × CellType)) (b : EventBatch) : Prop where
  fields : b.columns.map (fun c => (c.name, c.type)) = schema
  aligned : ∀ c ∈ b.columns, c.cells.length = b.rows

/-- The cells of the column at a position. -/
def cellsAt (b : EventBatch) (k : Nat) : List Cell :=
  (b.columns[k]?.map BatchColumn.cells).getD []

/-- The fields that are taken over, with their positions. -/
def numericFields (schema : List (String × CellType)) : List ((String × CellType) × Nat) :=
  schema.zipIdx.filter fun f => f.1.2.isNumeric

theorem numericFields_map_fst (schema : List (String × CellType)) :
    (numericFields schema).map Prod.fst = schema.filter fun f => f.2.isNumeric := by
  conv_rhs => rw [← List.zipIdx_map_fst 0 schema]
  rw [List.filter_map]
  rfl

/-- The names of the numeric fields, in the order of the schema. -/
theorem numericFields_map_name (schema : List (String × CellType)) :
    (numericFields schema).map (fun f => f.1.1) =
      (schema.filter fun f => f.2.isNumeric).map Prod.fst := by
  rw [← numericFields_map_fst, List.map_map]
  rfl

theorem mem_numericFields_iff {f : (String × CellType) × Nat} :
    f ∈ numericFields schema ↔ schema[f.2]? = some f.1 ∧ f.1.2.isNumeric = true := by
  rw [numericFields, List.mem_filter, List.mem_zipIdx_iff_getElem?]

/-- The numeric fields have distinct names if all fields do. -/
theorem nodup_numericFields (hnames : (schema.map Prod.fst).Nodup) :
    ((numericFields schema).map fun f => f.1.1).Nodup := by
  rw [numericFields_map_name]
  exact hnames.sublist (List.filter_sublist.map _)

namespace HasSchema

theorem getElem? (h : b.HasSchema schema) (k : Nat) :
    schema[k]? = b.columns[k]?.map fun c => (c.name, c.type) := by
  rw [← h.fields, List.getElem?_map]

/-- With distinct names, the column of a field is found at its position. -/
theorem column?_eq (h : b.HasSchema schema) (hnames : (schema.map Prod.fst).Nodup) {k : Nat}
    {c : BatchColumn} (hc : b.columns[k]? = some c) : b.column? c.name = some c := by
  obtain ⟨hk, hget⟩ := List.getElem?_eq_some_iff.1 hc
  have hnodup : (b.columns.map BatchColumn.name).Nodup := by
    have : schema.map Prod.fst = b.columns.map BatchColumn.name := by
      rw [← h.fields, List.map_map]
      rfl
    exact this ▸ hnames
  rw [column?, List.find?_eq_some_iff_getElem]
  refine ⟨decide_eq_true rfl, k, hk, hget, fun j hj => ?_⟩
  -- an earlier column of that name would be the same one
  rw [Bool.not_eq_true', decide_eq_false_iff_not]
  intro heq
  have hj' : j < b.columns.length := hj.trans hk
  have hjk : j = k := by
    refine (List.getElem?_inj (by simpa using hj') hnodup).1 ?_
    rw [List.getElem?_map, List.getElem?_map, hc, List.getElem?_eq_getElem hj']
    exact congrArg some heq
  exact hj.ne hjk

/-- The cells at the position of a field are those of the column that is found by its name. -/
theorem exists_column? (h : b.HasSchema schema) (hnames : (schema.map Prod.fst).Nodup)
    {f : (String × CellType) × Nat} (hf : schema[f.2]? = some f.1) :
    ∃ c, b.column? f.1.1 = some c ∧ c.type = f.1.2 ∧ c.cells = b.cellsAt f.2 := by
  rw [h.getElem?, Option.map_eq_some_iff] at hf
  obtain ⟨c, hc, hfield⟩ := hf
  rw [← hfield]
  exact ⟨c, h.column?_eq hnames hc, rfl, by rw [cellsAt, hc]; rfl⟩

/-- Every column of the schema holds a cell for each row. -/
theorem length_cellsAt (h : b.HasSchema schema) {k : Nat} (hk : k < schema.length) :
    (b.cellsAt k).length = b.rows := by
  have hk' : k < b.columns.length := by
    rw [← h.fields, List.length_map] at hk
    exact hk
  rw [cellsAt, List.getElem?_eq_getElem hk']
  exact h.aligned _ (List.getElem_mem hk')

end HasSchema

/-! ## The cast -/

/-- The cells of numeric columns are cast one by one, those that are not missing to these values. -/
def CastsEach [CellCast] (value : CellType → Cell → Float) : Prop :=
  ∀ (type : CellType) (cells : List Cell), type.isNumeric = true →
    CellCast.cast type cells = .ok (cells.map (Cell.castBy (value type)))

/-- The double that a cell ends up as: its value, or NaN if it is missing. -/
def doubleOf (value : CellType → Cell → Float) (type : CellType) : Cell → Float
  | .missing => 0.0 / 0.0
  | cell => value type cell

variable {value : CellType → Cell → Float}

/-- A missing cell is not a number in a column of any type. -/
theorem isNaN_doubleOf_missing (value : CellType → Cell → Float) (type : CellType) :
    (doubleOf value type .missing).isNaN = true := by
  rw [doubleOf]
  decide +kernel

theorem CastsEach.toFloats_eq [CellCast] (hcast : CastsEach value) {c : BatchColumn}
    (hc : c.type.isNumeric = true) : c.toFloats = .ok (c.cells.map (doubleOf value c.type)) := by
  rw [BatchColumn.toFloats, hcast c.type c.cells hc]
  refine congrArg Except.ok ?_
  rw [List.map_map]
  refine List.map_congr_left fun cell _ => ?_
  cases cell <;> rfl

/-! ## The columns that come out -/

/-- The values of a field in one batch. -/
def valuesOf (value : CellType → Cell → Float) (b : EventBatch) (f : (String × CellType) × Nat) :
    List Float :=
  (b.cellsAt f.2).map (doubleOf value f.1.2)

/-- The numeric fields, each with its values of all batches. -/
def columnsOf (value : CellType → Cell → Float) (schema : List (String × CellType))
    (batches : List EventBatch) : List (String × List Float) :=
  (numericFields schema).map fun f => (f.1.1, batches.flatMap fun b => b.valuesOf value f)

/-- A list without repetitions has nothing to erase. -/
theorem eraseDups_of_nodup {l : List String} (h : l.Nodup) : l.eraseDups = l := by
  induction l with
  | nil => rfl
  | cons a l ih =>
    obtain ⟨ha, hl⟩ := List.nodup_cons.1 h
    have hfilter : l.filter (fun b => !b == a) = l := by
      refine List.filter_eq_self.2 fun b hb => ?_
      have hba : b ≠ a := fun heq => ha (heq ▸ hb)
      simpa using hba
    rw [List.eraseDups_cons, hfilter, ih hl]

/-- The names that are taken over are those of the numeric fields, in the order of the schema. -/
theorem HasSchema.numericNames_eq (h : b.HasSchema schema) (hnames : (schema.map Prod.fst).Nodup) :
    b.numericNames = (numericFields schema).map fun f => f.1.1 := by
  have hfields : (b.columns.filter fun c => c.type.isNumeric).map BatchColumn.name =
      (numericFields schema).map fun f => f.1.1 := by
    rw [numericFields_map_name, ← h.fields, List.filter_map, List.map_map]
    rfl
  rw [numericNames, hfields, eraseDups_of_nodup (nodup_numericFields hnames)]

/-- In every batch the values of the numeric fields are found, each at its position. -/
theorem HasSchema.floatsOf_eq [CellCast] (hcast : CastsEach value) (h : b.HasSchema schema)
    (hnames : (schema.map Prod.fst).Nodup) :
    b.floatsOf ((numericFields schema).map fun f => f.1.1) =
      .ok ((numericFields schema).map (b.valuesOf value)) := by
  rw [floatsOf, mapM_except_eq_ok_iff, List.forall₂_map_left_iff, List.forall₂_map_right_iff,
    List.forall₂_same]
  intro f hf
  obtain ⟨hpos, hnumeric⟩ := mem_numericFields_iff.1 hf
  obtain ⟨c, hc, htype, hcells⟩ := h.exists_column? hnames hpos
  rw [hc]
  change c.toFloats = _
  rw [hcast.toFloats_eq (htype ▸ hnumeric), htype, hcells]
  rfl

/-- Parts appended field by field, in the order of the parts. -/
theorem foldl_zipWith_append {β γ : Type} (fields : List β) (parts : List γ)
    (values : γ → β → List Float) (before : β → List Float) :
    (parts.map fun p => fields.map (values p)).foldl (List.zipWith (· ++ ·)) (fields.map before) =
      fields.map fun f => before f ++ parts.flatMap fun p => values p f := by
  induction parts generalizing before with
  | nil => simp
  | cons p parts ih =>
    rw [List.map_cons, List.foldl_cons, List.zipWith_map, List.zipWith_self, ih]
    simp only [List.flatMap_cons, List.append_assoc]

/-- Batches of one schema make up its numeric fields, in its order, each with its values of all
batches. -/
theorem toColumns_eq [CellCast] (hcast : CastsEach value) (hnames : (schema.map Prod.fst).Nodup)
    (hne : batches ≠ []) (h : ∀ b ∈ batches, b.HasSchema schema) :
    toColumns batches = .ok (columnsOf value schema batches) := by
  obtain ⟨first, rest, hbatches⟩ := List.exists_cons_of_ne_nil hne
  have hparts : batches.mapM (floatsOf ((numericFields schema).map fun f => f.1.1)) =
      .ok (batches.map fun b => (numericFields schema).map (b.valuesOf value)) := by
    rw [mapM_except_eq_ok_iff, List.forall₂_map_right_iff, List.forall₂_same]
    exact fun b hb => (h b hb).floatsOf_eq hcast hnames
  have hjoin := foldl_zipWith_append (numericFields schema) batches (valuesOf value) fun _ => []
  have hfirst := (h first (hbatches ▸ List.mem_cons_self)).numericNames_eq hnames
  subst hbatches
  rw [toColumns, hfirst, hparts]
  change Except.ok (List.zip _ (List.foldl _ (List.map _ (List.map _ _)) _)) = _
  rw [List.map_map, Function.comp_def, hjoin, List.zip_map']
  rfl

/-! ## Cuts -/

/-- The cells of every column changed alike. -/
def mapCells (g : List Cell → List Cell) (b : EventBatch) : EventBatch where
  columns := b.columns.map fun c => { c with cells := g c.cells }

/-- The first rows of a batch. -/
def take (n : Nat) (b : EventBatch) : EventBatch :=
  b.mapCells (List.take n)

/-- The rows of a batch after the first ones. -/
def drop (n : Nat) (b : EventBatch) : EventBatch :=
  b.mapCells (List.drop n)

/-- The rows of one batch and then those of another one. -/
def append (b b' : EventBatch) : EventBatch where
  columns := List.zipWith (fun c c' => { c with cells := c.cells ++ c'.cells }) b.columns b'.columns

theorem cellsAt_mapCells {g : List Cell → List Cell} (hg : g [] = []) (b : EventBatch) (k : Nat) :
    (b.mapCells g).cellsAt k = g (b.cellsAt k) := by
  rw [cellsAt, cellsAt, mapCells, List.getElem?_map]
  cases b.columns[k]? with
  | none => exact hg.symm
  | some c => rfl

/-- Batches with equally many columns are appended column by column. -/
theorem getElem?_append (hlength : b.columns.length = b'.columns.length) (k : Nat) :
    (b.append b').columns[k]? =
      b.columns[k]?.map fun c => { c with cells := c.cells ++ b'.cellsAt k } := by
  rw [append, List.getElem?_zipWith, cellsAt]
  cases hc : b.columns[k]? with
  | none => rfl
  | some c =>
    obtain ⟨hk, -⟩ := List.getElem?_eq_some_iff.1 hc
    rw [List.getElem?_eq_getElem (hlength ▸ hk)]
    rfl

theorem cellsAt_append (hlength : b.columns.length = b'.columns.length) (k : Nat) :
    (b.append b').cellsAt k = b.cellsAt k ++ b'.cellsAt k := by
  rw [cellsAt, getElem?_append hlength]
  cases hc : b.columns[k]? with
  | none =>
    have hc' : b'.columns[k]? = none := by
      rw [List.getElem?_eq_none_iff] at hc ⊢
      exact hlength ▸ hc
    rw [cellsAt, cellsAt, hc, hc']
    rfl
  | some c =>
    have hcells : b.cellsAt k = c.cells := by rw [cellsAt, hc]; rfl
    rw [hcells]
    rfl

namespace HasSchema

/-- Columns of one length have a cell for each row. -/
theorem of_length (hfields : b.columns.map (fun c => (c.name, c.type)) = schema) {n : Nat}
    (hn : ∀ c ∈ b.columns, c.cells.length = n) : b.HasSchema schema where
  fields := hfields
  aligned := by
    intro c hc
    obtain ⟨first, rest, hcolumns⟩ := List.exists_cons_of_ne_nil (List.ne_nil_of_mem hc)
    have hrows : b.rows = first.cells.length := by rw [rows, hcolumns]; rfl
    rw [hrows, hn c hc, hn first (hcolumns ▸ List.mem_cons_self)]

theorem mapCells (h : b.HasSchema schema) {g : List Cell → List Cell} {n : Nat}
    (hg : ∀ cells : List Cell, cells.length = b.rows → (g cells).length = n) :
    (b.mapCells g).HasSchema schema := by
  refine of_length (n := n) ?_ ?_
  · rw [EventBatch.mapCells, List.map_map]
    exact h.fields
  · rw [EventBatch.mapCells, List.forall_mem_map]
    exact fun c hc => hg c.cells (h.aligned c hc)

theorem take (h : b.HasSchema schema) (n : Nat) : (b.take n).HasSchema schema :=
  h.mapCells fun cells hcells => by rw [List.length_take, hcells]

theorem drop (h : b.HasSchema schema) (n : Nat) : (b.drop n).HasSchema schema :=
  h.mapCells fun cells hcells => by rw [List.length_drop, hcells]

theorem length_columns (h : b.HasSchema schema) : b.columns.length = schema.length := by
  rw [← h.fields, List.length_map]

theorem append (h : b.HasSchema schema) (h' : b'.HasSchema schema) :
    (b.append b').HasSchema schema := by
  have hlength : b.columns.length = b'.columns.length :=
    h.length_columns.trans h'.length_columns.symm
  refine of_length (n := b.rows + b'.rows) ?_ ?_
  · refine List.ext_getElem? fun k => ?_
    rw [List.getElem?_map, getElem?_append hlength, Option.map_map, h.getElem? k]
    rfl
  · intro c hc
    obtain ⟨k, hk⟩ := List.mem_iff_getElem?.1 hc
    rw [getElem?_append hlength, Option.map_eq_some_iff] at hk
    obtain ⟨c, hk, rfl⟩ := hk
    obtain ⟨hlt, -⟩ := List.getElem?_eq_some_iff.1 hk
    rw [List.length_append, h.aligned c (List.mem_of_getElem? hk),
      h'.length_cellsAt (h.length_columns ▸ hlt)]

end HasSchema

/-- The same rows in the same order, cut into batches in two ways. -/
def SameRows (schema : List (String × CellType)) (batches batches' : List EventBatch) : Prop :=
  ∀ k < schema.length,
    batches'.flatMap (fun b => b.cellsAt k) = batches.flatMap fun b => b.cellsAt k

variable {before after : List EventBatch}

theorem sameRows_cut (schema : List (String × CellType)) (n : Nat) :
    SameRows schema (before ++ b :: after) (before ++ b.take n :: b.drop n :: after) := by
  intro k _
  simp only [List.flatMap_append, List.flatMap_cons]
  rw [take, drop, cellsAt_mapCells List.take_nil, cellsAt_mapCells List.drop_nil,
    ← List.append_assoc (List.take n _), List.take_append_drop]

theorem sameRows_join (h : b.HasSchema schema) (h' : b'.HasSchema schema) :
    SameRows schema (before ++ b :: b' :: after) (before ++ b.append b' :: after) := by
  intro k _
  simp only [List.flatMap_append, List.flatMap_cons]
  rw [cellsAt_append (h.length_columns.trans h'.length_columns.symm), List.append_assoc]

theorem sameRows_empty (h : b.HasSchema schema) (hrows : b.rows = 0) :
    SameRows schema (before ++ after) (before ++ b :: after) := by
  intro k hk
  have hcells : b.cellsAt k = [] :=
    List.eq_nil_of_length_eq_zero ((h.length_cellsAt hk).trans hrows)
  simp only [List.flatMap_append, List.flatMap_cons, hcells, List.nil_append]

/-- Batches without rows may be left out. -/
theorem sameRows_filter (h : ∀ b ∈ batches, b.HasSchema schema) :
    SameRows schema batches (batches.filter fun b => b.rows ≠ 0) := by
  intro k hk
  induction batches with
  | nil => rfl
  | cons b batches ih =>
    have ih := ih fun b' hb' => h b' (List.mem_cons_of_mem _ hb')
    by_cases hrows : b.rows = 0
    · have hcells : b.cellsAt k = [] :=
        List.eq_nil_of_length_eq_zero (((h b List.mem_cons_self).length_cellsAt hk).trans hrows)
      rw [List.filter_cons_of_neg (by simp [hrows]), List.flatMap_cons, hcells, List.nil_append, ih]
    · rw [List.filter_cons_of_pos (by simp [hrows]), List.flatMap_cons, List.flatMap_cons, ih]

theorem lt_of_mem_numericFields {f : (String × CellType) × Nat} (hf : f ∈ numericFields schema) :
    f.2 < schema.length :=
  (List.getElem?_eq_some_iff.1 (mem_numericFields_iff.1 hf).1).1

/-- Where a source is cut into batches makes no difference to its columns. -/
theorem columnsOf_congr (hrows : SameRows schema batches batches') :
    columnsOf value schema batches' = columnsOf value schema batches := by
  refine List.map_congr_left fun f hf => ?_
  simp only [valuesOf, ← List.map_flatMap, hrows f.2 (lt_of_mem_numericFields hf)]

theorem toColumns_of_sameRows [CellCast] (hcast : CastsEach value)
    (hnames : (schema.map Prod.fst).Nodup) (hne' : batches' ≠ [])
    (h' : ∀ b ∈ batches', b.HasSchema schema) (hrows : SameRows schema batches batches') :
    toColumns batches' = .ok (columnsOf value schema batches) := by
  rw [toColumns_eq hcast hnames hne' h', columnsOf_congr hrows]

/-! ## The table -/

theorem map_fst_columnsOf (value : CellType → Cell → Float) (schema : List (String × CellType))
    (batches : List EventBatch) : (columnsOf value schema batches).map Prod.fst =
      (schema.filter fun f => f.2.isNumeric).map Prod.fst := by
  rw [columnsOf, List.map_map, ← numericFields_map_name]
  rfl

theorem columnsOf_ne_nil (hnumeric : ∃ f ∈ schema, f.2.isNumeric = true) :
    columnsOf value schema batches ≠ [] := by
  obtain ⟨f, hf, hf'⟩ := hnumeric
  obtain ⟨k, hk⟩ := List.mem_iff_getElem?.1 hf
  have hmem : (f, k) ∈ numericFields schema := mem_numericFields_iff.2 ⟨hk, hf'⟩
  exact List.map_eq_nil_iff.not.2 (List.ne_nil_of_mem hmem)

/-- Every column that comes out has a value for each row of the batches. -/
theorem length_of_mem_columnsOf (h : ∀ b ∈ batches, b.HasSchema schema) :
    ∀ c ∈ columnsOf value schema batches, c.2.length = (batches.map rows).sum := by
  rw [columnsOf, List.forall_mem_map]
  intro f hf
  rw [List.length_flatMap]
  refine congrArg List.sum (List.map_congr_left fun b hb => ?_)
  rw [valuesOf, List.length_map, (h b hb).length_cellsAt (lt_of_mem_numericFields hf)]

/-- The columns that come out are accepted as a table. -/
theorem ofColumns_columnsOf {α : Type} (hnames : (schema.map Prod.fst).Nodup)
    (hnumeric : ∃ f ∈ schema, f.2.isNumeric = true) (h : ∀ b ∈ batches, b.HasSchema schema) :
    EventTable.ofColumns ((columnsOf value schema batches).map fun c => (c.1, c.2.toArray)) =
      .ok { (EventTable.ofRows (batches.map rows).sum : EventTable α) with columns :=
        (((columnsOf value schema batches).map fun c => (c.1, c.2.toArray)).map
          EventTable.storedColumn).toArray } := by
  refine EventTable.ofColumns_eq_ok ?_ ?_ (List.map_eq_nil_iff.not.2 (columnsOf_ne_nil hnumeric))
  · rw [List.map_map]
    have hfst := map_fst_columnsOf value schema batches
    exact hfst ▸ hnames.sublist (List.filter_sublist.map _)
  · rw [List.forall_mem_map]
    exact length_of_mem_columnsOf h

/-- Whatever cast treats the cells of numeric columns one by one, batches of one schema with
distinct names, some of them numeric, make up the numeric fields in its order, each with its cells
of all batches in order, cast to doubles, and NaN for a missing one.  Other cuts of the same rows
make up the same columns: a batch may be cut in two, two may be joined, and one without rows may be
put in anywhere.  The columns are of one length, and they are accepted as a table with all the
rows. -/
theorem columns_of_batches {α : Type} [CellCast] (hcast : CastsEach value)
    (hnames : (schema.map Prod.fst).Nodup)
    (hnumeric : ∃ f ∈ schema, f.2.isNumeric = true) (hne : batches ≠ [])
    (h : ∀ b ∈ batches, b.HasSchema schema) :
    ∃ columns, toColumns batches = .ok columns ∧
      columns.map Prod.fst = (schema.filter fun f => f.2.isNumeric).map Prod.fst ∧
      columns = (numericFields schema).map (fun f => (f.1.1,
        batches.flatMap fun b => (b.cellsAt f.2).map (doubleOf value f.1.2))) ∧
      (∀ type, (doubleOf value type .missing).isNaN = true) ∧
      (∀ batches', batches' ≠ [] → (∀ b ∈ batches', b.HasSchema schema) →
        SameRows schema batches batches' → toColumns batches' = .ok columns) ∧
      (∀ before b after n, batches = before ++ b :: after →
        toColumns (before ++ b.take n :: b.drop n :: after) = .ok columns) ∧
      (∀ before b b' after, batches = before ++ b :: b' :: after →
        toColumns (before ++ b.append b' :: after) = .ok columns) ∧
      (∀ before b after, batches = before ++ after → b.HasSchema schema → b.rows = 0 →
        toColumns (before ++ b :: after) = .ok columns) ∧
      (∀ c ∈ columns, c.2.length = (batches.map rows).sum) ∧
      ∃ t : EventTable α,
        EventTable.ofColumns (columns.map fun c => (c.1, c.2.toArray)) = .ok t ∧
        t.rows = (batches.map rows).sum ∧
        t.columns.toList = columns.map (fun c => ⟨c.1, .stored c.2.toArray⟩) ∧
        ((∃ b ∈ batches, b.rows ≠ 0) → EventTable.ofBatches batches = .ok t) := by
  have hcongr : ∀ batches', batches' ≠ [] → (∀ b ∈ batches', b.HasSchema schema) →
      SameRows schema batches batches' →
        toColumns batches' = .ok (columnsOf value schema batches) :=
    fun _ hne' h' hrows => toColumns_of_sameRows hcast hnames hne' h' hrows
  refine ⟨columnsOf value schema batches, toColumns_eq hcast hnames hne h,
    map_fst_columnsOf value schema batches, rfl, isNaN_doubleOf_missing value, hcongr, ?cut, ?join,
    ?empty, length_of_mem_columnsOf h, _, ofColumns_columnsOf hnames hnumeric h, rfl, ?stored,
    ?read⟩
  case cut =>
    rintro before b after n rfl
    refine hcongr _ (by simp) ?_ (sameRows_cut schema n)
    simp only [List.forall_mem_append, List.forall_mem_cons] at h ⊢
    exact ⟨h.1, h.2.1.take n, h.2.1.drop n, h.2.2⟩
  case join =>
    rintro before b b' after rfl
    refine hcongr _ (by simp) ?_ (sameRows_join (h b (by simp)) (h b' (by simp)))
    simp only [List.forall_mem_append, List.forall_mem_cons] at h ⊢
    exact ⟨h.1, h.2.1.append h.2.2.1, h.2.2.2⟩
  case empty =>
    rintro before b after rfl hb hrows
    refine hcongr _ (by simp) ?_ (sameRows_empty hb hrows)
    rw [List.forall_mem_append] at h
    rw [List.forall_mem_append, List.forall_mem_cons]
    exact ⟨h.1, hb, h.2⟩
  case stored => simp [EventTable.storedColumn]
  case read =>
    rintro ⟨b, hb, hrows⟩
    have hkept : batches.filter (fun b => b.rows ≠ 0) ≠ [] :=
      List.ne_nil_of_mem (List.mem_filter.2 ⟨hb, decide_eq_true hrows⟩)
    rw [EventTable.ofBatches, hcongr _ hkept (fun b hb => h b (List.mem_of_mem_filter hb))
      (sameRows_filter h)]
    exact ofColumns_columnsOf hnames hnumeric h

section PlainCast

attribute [local instance] Events.plainCast

theorem castsEach_valueOf : CastsEach Events.valueOf := by
  intro type cells htype
  refine if_neg ?_
  rintro rfl
  cases htype

/-- Two events, none, and one more, with missing cells, numbers of single precision and a column of
texts. -/
def sampleBatches : List EventBatch :=
  [⟨[⟨"nj", .int32, [.integer 3, .missing]⟩, ⟨"tag", .utf8, [.text "a", .text "b"]⟩,
      ⟨"pt", .float32, [.number 0.1, .number 2.5]⟩, ⟨"ok", .bool, [.truth true, .truth false]⟩]⟩,
    ⟨[⟨"nj", .int32, []⟩, ⟨"tag", .utf8, []⟩, ⟨"pt", .float32, []⟩, ⟨"ok", .bool, []⟩]⟩,
    ⟨[⟨"nj", .int32, [.integer 5]⟩, ⟨"tag", .utf8, [.text "c"]⟩, ⟨"pt", .float32, [.missing]⟩,
      ⟨"ok", .bool, [.truth true]⟩]⟩]

/-- Three events in three batches.  A tenth is not what it was once it is stored in single
precision. -/
theorem columns_of_sampleBatches :
    ∃ columns, toColumns sampleBatches = .ok columns ∧
      columns = [("nj", [Float.ofInt 3, 0.0 / 0.0, Float.ofInt 5]),
        ("pt", [0.10000000149011612, 2.5, 0.0 / 0.0]), ("ok", [1, 0, 1])] ∧
      ∃ t : EventTable Unit, EventTable.ofBatches sampleBatches = .ok t ∧ t.rows = 3 := by
  have hschema : ∀ b ∈ sampleBatches,
      b.HasSchema [("nj", .int32), ("tag", .utf8), ("pt", .float32), ("ok", .bool)] := by
    simp only [sampleBatches, List.forall_mem_cons]
    exact ⟨⟨rfl, by decide +kernel⟩, ⟨rfl, by decide +kernel⟩, ⟨rfl, by decide +kernel⟩, by simp⟩
  obtain ⟨columns, hok, -, heq, -, -, -, -, -, -, t, -, hrows, -, hread⟩ :=
    columns_of_batches (α := Unit) castsEach_valueOf (by decide +kernel)
      ⟨("nj", .int32), by decide +kernel, rfl⟩ (List.cons_ne_nil _ _) hschema
  refine ⟨columns, hok, heq.trans (by decide +kernel), t, ?_, hrows⟩
  exact hread ⟨_, List.mem_cons_self, by decide +kernel⟩

end PlainCast

end EventBatch

end VariHist
