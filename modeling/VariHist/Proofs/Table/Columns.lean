import Mathlib
import VariHist.Table.Basic

/-!
# Looking up and adding columns

* `idOfKind_eq_ok_iff` — a column is found at the first position that carries its name.
* `insert_eq_ok_iff`, `defineColumn_eq_ok_iff` — a column is added exactly when its name is free
  and its inputs are scalar columns, and then it stands at the end.
* `idOf?_push` — the columns before keep their positions.
-/

namespace VariHist

/-- A list is worked out element by element, and fails with the first element that does. -/
theorem mapM_except_eq_ok_iff {ε β γ : Type} {f : β → Except ε γ} {l : List β} {l' : List γ} :
    l.mapM f = .ok l' ↔ List.Forall₂ (fun a b => f a = .ok b) l l' := by
  induction l generalizing l' with
  | nil => cases l' <;> simp [pure, Except.pure]
  | cons a l ih =>
    rw [List.mapM_cons]
    cases ha : f a with
    | error e => cases l' <;> simp [bind, Except.bind, ha]
    | ok b =>
      cases hl : l.mapM f with
      | error e => cases l' <;> simp [bind, Except.bind, ← ih, hl]
      | ok bs => cases l' <;> simp [bind, Except.bind, pure, Except.pure, ← ih, hl, ha]

theorem forall₂_exists_of_mem_right {β γ : Type} {r : β → γ → Prop} {l : List β} {l' : List γ}
    (h : List.Forall₂ r l l') {b : γ} (hb : b ∈ l') : ∃ a ∈ l, r a b := by
  induction h with
  | nil => cases hb
  | cons hab _ ih =>
    rcases List.mem_cons.1 hb with rfl | hb
    · exact ⟨_, List.mem_cons_self, hab⟩
    · obtain ⟨a, ha, hr⟩ := ih hb
      exact ⟨a, List.mem_cons_of_mem _ ha, hr⟩

theorem forall₂_exists_getElem? {β γ : Type} {r : β → γ → Prop} {l : List β} {l' : List γ}
    (h : List.Forall₂ r l l') {i : Nat} {c : γ} (hc : l'[i]? = some c) :
    ∃ b, l[i]? = some b ∧ r b c := by
  obtain ⟨hi', rfl⟩ := List.getElem?_eq_some_iff.1 hc
  have hi : i < l.length := h.length_eq ▸ hi'
  exact ⟨l[i], List.getElem?_eq_getElem hi, h.get hi hi'⟩

/-- The kind of the column at a position. -/
def kindIn (columns : Array Column) (id : Nat) : Option ColumnKind :=
  columns[id]?.map Column.kind

theorem kindIn_eq_some_lt {columns : Array Column} {kind : ColumnKind} {id : Nat}
    (h : kindIn columns id = some kind) : id < columns.size := by
  obtain ⟨c, hc, -⟩ := Option.map_eq_some_iff.1 h
  exact (Array.getElem?_eq_some_iff.1 hc).1

theorem kindIn_push (columns : Array Column) (c : Column) (id : Nat) :
    kindIn (columns.push c) id = if id = columns.size then some c.kind else kindIn columns id := by
  rw [kindIn, Array.getElem?_push]
  by_cases h : id = columns.size
  · simp [h]
  · simp [h, kindIn]

/-- A column at the end changes no kind before it. -/
theorem kindIn_push_of_some {columns : Array Column} {kind : ColumnKind} {id : Nat} (c : Column)
    (h : kindIn columns id = some kind) : kindIn (columns.push c) id = some kind := by
  rw [kindIn_push, if_neg (kindIn_eq_some_lt h).ne]
  exact h

namespace EventTable

variable {α : Type} {t t' : EventTable α} {name : String} {id : Nat} {kind : ColumnKind}

/-! ## Positions and names -/

theorem column?_eq (t : EventTable α) (name : String) :
    t.column? name = (t.idOf? name).bind fun id => t.columns[id]? :=
  Array.find?_eq_bind_findIdx?_getElem?

theorem kindOf?_eq (t : EventTable α) (name : String) :
    t.kindOf? name = (t.idOf? name).bind (kindIn t.columns) := by
  rw [kindOf?, column?_eq, Option.map_bind]
  rfl

/-- The column that is found carries the name. -/
theorem exists_of_idOf? (h : t.idOf? name = some id) :
    ∃ c, t.columns[id]? = some c ∧ c.name = name := by
  obtain ⟨hid, hname, -⟩ := Array.findIdx?_eq_some_iff_getElem.1 h
  exact ⟨t.columns[id], Array.getElem?_eq_getElem hid, of_decide_eq_true hname⟩

theorem hasColumn_eq (t : EventTable α) (name : String) :
    t.hasColumn name = (t.idOf? name).isSome := by
  rw [hasColumn, column?_eq]
  cases h : t.idOf? name with
  | none => rfl
  | some id =>
    obtain ⟨c, hc, -⟩ := exists_of_idOf? h
    rw [Option.bind_some, hc]
    rfl

theorem hasColumn_eq_false_iff : t.hasColumn name = false ↔ t.idOf? name = none := by
  rw [hasColumn_eq, Option.isSome_eq_false_iff, Option.isNone_iff_eq_none]

theorem idOf?_eq_none_iff : t.idOf? name = none ↔ name ∉ t.columnNames := by
  rw [idOf?, Array.findIdx?_eq_none_iff, columnNames]
  simp

/-- A column is found at the first position that carries its name, if it is of the right kind. -/
theorem idOfKind_eq_ok_iff :
    t.idOfKind kind name = .ok id ↔ t.idOf? name = some id ∧ kindIn t.columns id = some kind := by
  unfold idOfKind
  rw [kindOf?_eq]
  cases hid : t.idOf? name with
  | none => simp
  | some found =>
    obtain ⟨c, hc, -⟩ := exists_of_idOf? hid
    have hkind : kindIn t.columns found = some c.kind := by rw [kindIn, hc, Option.map_some]
    rw [Option.bind_some, hkind]
    change (if c.kind = kind then _ else _) = _ ↔ _
    by_cases hk : c.kind = kind
    · rw [if_pos hk, Option.some_inj, Except.ok.injEq]
      constructor
      · rintro rfl
        exact ⟨rfl, hkind.trans (congrArg some hk)⟩
      · exact fun h => h.1
    · rw [if_neg hk]
      constructor
      · intro h
        cases h
      · rintro ⟨h, h'⟩
        rw [← Option.some.inj h, hkind] at h'
        exact absurd (Option.some.inj h') hk

/-! ## Adding columns -/

/-- A column is added exactly when its name is free. -/
theorem insert_eq_ok_iff {source : Source} :
    t.insert name source = .ok t' ↔
      t.idOf? name = none ∧ t' = { t with columns := t.columns.push ⟨name, source⟩ } := by
  rw [insert, ← hasColumn_eq_false_iff]
  cases t.hasColumn name with
  | true => simp
  | false => simp [eq_comm]

theorem addColumn_eq_ok_iff {values : Array Float} :
    t.addColumn name values = .ok t' ↔ values.size = t.rows ∧ t.idOf? name = none ∧
      t' = { t with columns := t.columns.push ⟨name, .stored values⟩ } := by
  unfold addColumn
  by_cases hsize : values.size = t.rows
  · simp [hsize, insert_eq_ok_iff]
  · simp [hsize]

/-- A column is defined exactly when its name is free and its inputs are scalar columns. -/
theorem defineColumn_eq_ok_iff {kernel : Kernel} {inputs : List String} :
    t.defineColumn name kernel inputs = .ok t' ↔ t.idOf? name = none ∧
      ∃ ids, List.Forall₂ (fun c id => t.idOfKind .scalar c = .ok id) inputs ids ∧
        t' = { t with columns := t.columns.push ⟨name, .derived ids kernel⟩ } := by
  rw [defineColumn, ← hasColumn_eq_false_iff]
  cases hname : t.hasColumn name with
  | true => simp
  | false =>
    rw [if_neg Bool.false_ne_true]
    simp only [← mapM_except_eq_ok_iff]
    cases hids : inputs.mapM (t.idOfKind .scalar) with
    | error e => simp [bind, Except.bind]
    | ok ids =>
      rw [hasColumn_eq_false_iff] at hname
      simp [bind, Except.bind, insert_eq_ok_iff, hname]

/-- A column of a formula is the column of its kernel. -/
theorem exists_of_defineFormula {source : String} (h : t.defineFormula name source = .ok t') :
    ∃ formula, Formula.compile source = .ok formula ∧
      t.defineColumn name formula.kernel formula.inputs = .ok t' := by
  unfold defineFormula at h
  cases hc : Formula.compile source with
  | error fault =>
    rw [hc] at h
    cases h
  | ok formula =>
    rw [hc] at h
    exact ⟨formula, rfl, h⟩

/-- A column added at the end takes no other name with it. -/
theorem idOf?_push (t : EventTable α) (c : Column) (n : String) :
    ({ t with columns := t.columns.push c } : EventTable α).idOf? n =
      (t.idOf? n).or (if c.name = n then some t.columns.size else none) := by
  rw [idOf?, Array.findIdx?_push]
  simp [idOf?]

/-! ## Filters and subscriptions -/

theorem filterRows_eq_ok_iff :
    t.filterRows name = .ok t' ↔ ∃ id, t.idOfKind .scalar name = .ok id ∧
      t' = { t with filters := t.filters ++ [id] } := by
  unfold filterRows
  cases hid : t.idOfKind .scalar name with
  | error e => simp [bind, Except.bind]
  | ok id => simp [bind, Except.bind, pure, Except.pure, eq_comm]

theorem subscribe_eq_ok_iff {action : α} :
    t.subscribe name action = .ok t' ↔ ∃ id, t.idOfKind .vector name = .ok id ∧
      t' = { t with pending := t.pending ++ [⟨id, action⟩] } := by
  unfold subscribe
  cases hid : t.idOfKind .vector name with
  | error e => simp [bind, Except.bind]
  | ok id => simp [bind, Except.bind, pure, Except.pure, eq_comm]

end EventTable

end VariHist
