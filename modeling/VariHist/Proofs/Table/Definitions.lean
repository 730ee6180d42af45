import Mathlib
import VariHist.Proofs.Table.Reachable

/-!
# Tables that grow by definitions

* `EventTable.KeepsColumns`, `EventTable.Extends` — columns are added and none is touched.
* `EventTable.Defines` — the table has the column that a definition makes.
* `EventTable.Added` — what adding derived columns does to a table; by `defineColumn_added` a column
  with a free name and scalar inputs can be added.
-/

namespace VariHist

variable {α : Type}

/-- A column to be computed by a kernel from other columns. -/
structure Definition where
  name : String
  kernel : Kernel
  inputs : List String

namespace EventTable

variable {t t' t'' : EventTable α} {d : Definition} {name : String} {kind : ColumnKind}

theorem kindOf?_eq_some_iff :
    t.kindOf? name = some kind ↔ ∃ id, t.idOfKind kind name = .ok id := by
  rw [kindOf?_eq]
  simp only [idOfKind_eq_ok_iff]
  cases t.idOf? name with
  | none => simp
  | some id => simp

/-! ## Tables that grow -/

/-- The columns of a table are found in another one, where they were. -/
structure KeepsColumns (t t' : EventTable α) : Prop where
  idOf? : ∀ (n : String) (id : Nat), t.idOf? n = some id → t'.idOf? n = some id
  column : ∀ (id : Nat) (c : Column), t.columns[id]? = some c → t'.columns[id]? = some c

theorem KeepsColumns.refl (t : EventTable α) : t.KeepsColumns t :=
  ⟨fun _ _ h => h, fun _ _ h => h⟩

theorem KeepsColumns.trans (h : t.KeepsColumns t') (h' : t'.KeepsColumns t'') :
    t.KeepsColumns t'' where
  idOf? n id hid := h'.idOf? n id (h.idOf? n id hid)
  column id c hc := h'.column id c (h.column id c hc)

theorem KeepsColumns.push (c : Column) : t.KeepsColumns { t with columns := t.columns.push c } where
  idOf? n id hid := by rw [idOf?_push, hid, Option.some_or]
  column id c' hc := by
    rw [Array.getElem?_push, if_neg (Array.getElem?_eq_some_iff.1 hc).1.ne]
    exact hc

theorem KeepsColumns.kindIn (h : t.KeepsColumns t') {id : Nat}
    (hk : kindIn t.columns id = some kind) : kindIn t'.columns id = some kind := by
  obtain ⟨c, hc, rfl⟩ := Option.map_eq_some_iff.1 hk
  rw [VariHist.kindIn, h.column id c hc, Option.map_some]

theorem KeepsColumns.idOfKind (h : t.KeepsColumns t') {id : Nat}
    (hid : t.idOfKind kind name = .ok id) : t'.idOfKind kind name = .ok id := by
  obtain ⟨hid, hkind⟩ := idOfKind_eq_ok_iff.1 hid
  exact idOfKind_eq_ok_iff.2 ⟨h.idOf? name id hid, h.kindIn hkind⟩

theorem KeepsColumns.kindOf? (h : t.KeepsColumns t') (hk : t.kindOf? name = some kind) :
    t'.kindOf? name = some kind := by
  obtain ⟨id, hid⟩ := kindOf?_eq_some_iff.1 hk
  exact kindOf?_eq_some_iff.2 ⟨id, h.idOfKind hid⟩

/-- Columns are added at the end, and none is touched. -/
structure Extends (t t' : EventTable α) : Prop extends KeepsColumns t t' where
  rows : t'.rows = t.rows
  threads : t'.threads = t.threads
  finished : t'.finished = t.finished
  pending : t'.pending = t.pending
  runs : t'.runs = t.runs

theorem Extends.refl (t : EventTable α) : t.Extends t :=
  ⟨.refl t, rfl, rfl, rfl, rfl, rfl⟩

theorem Extends.trans (h : t.Extends t') (h' : t'.Extends t'') : t.Extends t'' where
  toKeepsColumns := h.toKeepsColumns.trans h'.toKeepsColumns
  rows := h'.rows.trans h.rows
  threads := h'.threads.trans h.threads
  finished := h'.finished.trans h.finished
  pending := h'.pending.trans h.pending
  runs := h'.runs.trans h.runs

theorem Extends.push (c : Column) : t.Extends { t with columns := t.columns.push c } :=
  ⟨.push c, rfl, rfl, rfl, rfl, rfl⟩

/-- The table has the column that a definition makes. -/
def Defines (t : EventTable α) (d : Definition) : Prop :=
  ∃ id ids, t.idOf? d.name = some id ∧
    t.columns[id]? = some ⟨d.name, .derived ids d.kernel⟩ ∧
    List.Forall₂ (fun c i => t.idOfKind .scalar c = .ok i) d.inputs ids

theorem Defines.extend (h : t.Defines d) (hk : t.KeepsColumns t') : t'.Defines d := by
  obtain ⟨id, ids, hid, hcol, hids⟩ := h
  exact ⟨id, ids, hk.idOf? _ _ hid, hk.column _ _ hcol, hids.imp fun _ _ hi => hk.idOfKind hi⟩

theorem Defines.kindOf? (h : t.Defines d) : t.kindOf? d.name = some d.kernel.kind := by
  obtain ⟨id, ids, hid, hcol, -⟩ := h
  rw [kindOf?_eq, hid, Option.bind_some, kindIn, hcol]
  rfl

theorem Defines.inputs (h : t.Defines d) {c : String} (hc : c ∈ d.inputs) :
    t.kindOf? c = some .scalar := by
  obtain ⟨id, ids, -, -, hids⟩ := h
  obtain ⟨i, hi, hr⟩ := forall₂_exists_of_mem_right hids.flip hc
  exact kindOf?_eq_some_iff.2 ⟨i, hr⟩

/-- What adding derived columns does. -/
structure Added (t : EventTable α) (ds : List Definition) (t' : EventTable α) : Prop where
  ext : t.Extends t'
  filters : t'.filters = t.filters
  defines : ∀ d ∈ ds, t'.Defines d
  free : ∀ n, t'.idOf? n = none ↔ t.idOf? n = none ∧ n ∉ ds.map Definition.name
  reachable : ∀ [Aggregation α], t.Reachable → t'.Reachable

theorem Added.nil (t : EventTable α) : t.Added [] t :=
  ⟨.refl t, rfl, by simp, by simp, fun h => h⟩

theorem Added.cons {ds : List Definition} (h : t.Added [d] t') (h' : t'.Added ds t'') :
    t.Added (d :: ds) t'' where
  ext := h.ext.trans h'.ext
  filters := h'.filters.trans h.filters
  defines e he := by
    rcases List.mem_cons.1 he with rfl | he
    · exact (h.defines e List.mem_cons_self).extend h'.ext.toKeepsColumns
    · exact h'.defines e he
  free n := by
    rw [h'.free, h.free]
    simp only [List.map_cons, List.map_nil, List.mem_cons, List.not_mem_nil, or_false, not_or,
      and_assoc]
  reachable ht := h'.reachable (h.reachable ht)

/-- A column with a free name and scalar inputs can be defined. -/
theorem defineColumn_added (hname : t.idOf? d.name = none)
    (hin : ∀ c ∈ d.inputs, t.kindOf? c = some .scalar) :
    ∃ t', t.defineColumn d.name d.kernel d.inputs = .ok t' ∧ t.Added [d] t' := by
  have hids : ∃ ids, List.Forall₂ (fun c i => t.idOfKind .scalar c = .ok i) d.inputs ids := by
    generalize d.inputs = inputs at hin
    induction inputs with
    | nil => exact ⟨[], .nil⟩
    | cons c inputs ih =>
      obtain ⟨i, hi⟩ := kindOf?_eq_some_iff.1 (hin c List.mem_cons_self)
      obtain ⟨ids, hids⟩ := ih fun c hc => hin c (List.mem_cons_of_mem _ hc)
      exact ⟨i :: ids, .cons hi hids⟩
  obtain ⟨ids, hids⟩ := hids
  have hdef : t.defineColumn d.name d.kernel d.inputs = .ok _ :=
    defineColumn_eq_ok_iff.2 ⟨hname, ids, hids, rfl⟩
  have hext : t.Extends _ := Extends.push ⟨d.name, .derived ids d.kernel⟩
  refine ⟨_, hdef, hext, rfl, ?_, ?_, fun ht => ht.defineColumn _ _ _ hdef⟩
  · intro e he
    rw [List.mem_singleton.1 he]
    refine ⟨t.columns.size, ids, ?_, Array.getElem?_push_size, hids.imp fun c i hi => ?_⟩
    · rw [idOf?_push, hname, Option.none_or, if_pos rfl]
    · exact hext.idOfKind hi
  · intro n
    rw [idOf?_push, Option.or_eq_none_iff]
    simp [eq_comm]

/-- A definition that goes through reads scalar columns. -/
theorem kindOf?_of_defineColumn {kernel : Kernel} {inputs : List String}
    (h : t.defineColumn name kernel inputs = .ok t') {c : String} (hc : c ∈ inputs) :
    t.kindOf? c = some .scalar := by
  obtain ⟨-, ids, hids, -⟩ := defineColumn_eq_ok_iff.1 h
  obtain ⟨i, -, hi⟩ := forall₂_exists_of_mem_right hids.flip hc
  exact kindOf?_eq_some_iff.2 ⟨i, hi⟩

/-- A definition that goes through adds its column. -/
theorem added_of_defineColumn (h : t.defineColumn d.name d.kernel d.inputs = .ok t') :
    t.Added [d] t' := by
  obtain ⟨t'', hdef, hadded⟩ := defineColumn_added (defineColumn_eq_ok_iff.1 h).1
    fun c hc => kindOf?_of_defineColumn h hc
  rw [h] at hdef
  cases hdef
  exact hadded

end EventTable

end VariHist
