import Mathlib
import VariHist.Proofs.Double
import VariHist.Proofs.Table.Outcome
import VariHist.Proofs.Table.Values

/-!
# The values of columns by their definitions

What a column holds on a row is fixed by recursion over the definitions: a stored column holds what
is stored, a derived column what its kernel makes of the values of its inputs.  The event loop and
the listing of a column work on buffers that are reused from row to row, and stop at the first
filter that rejects a row; they come to the same values.

* `HasValue` — the value of a column on a row, by name and without buffers.
* `passesOn_iff`, `survivors_eq`, `callsFor_eq` — which rows are kept, what a listing holds and what
  an event loop fills in, in terms of these values.
* `HasValue.of_dependencies` — what a value depends on.
* `Reachable.lazy_evaluation` — the statements together, for every table that can be reached.
-/

namespace VariHist

open Aggregation

namespace EventTable

variable {α β : Type} {t : EventTable α} {name : String} {row : Nat} {v : ColumnValue}

/-! ## Values by definition -/

/-- The column of this name stores these values. -/
def Stores (t : EventTable α) (name : String) (values : Array Float) : Prop :=
  ∃ id, t.idOf? name = some id ∧ t.columns[id]? = some ⟨name, .stored values⟩

/-- The value of a column on a row by its definition: a stored column has the value that is stored
for the row, and a derived column has what its kernel makes of the values of its inputs, in the
order in which they were declared. -/
inductive HasValue (t : EventTable α) (row : Nat) : String → ColumnValue → Prop
  | stored {name : String} {values : Array Float} {x : Float} (h : t.Stores name values)
      (hx : values[row]? = some x) : HasValue t row name (.scalar x)
  | derived {d : Definition} {x : String → Float} (h : t.Defines d)
      (inputs : ∀ c ∈ d.inputs, HasValue t row c (.scalar (x c))) :
      HasValue t row d.name (d.kernel.apply (d.inputs.map x))

/-- The rows are filtered by the column of this name. -/
def Filters (t : EventTable α) (name : String) : Prop :=
  ∃ id ∈ t.filters, t.idOf? name = some id

/-- A row is kept if every filter is greater than zero on it. -/
def Keeps (t : EventTable α) (row : Nat) : Prop :=
  ∀ name, t.Filters name → ∃ x, t.HasValue row name (.scalar x) ∧ 0 < x

open Classical in
/-- Those of some rows that are kept, in order. -/
noncomputable def keptOf (t : EventTable α) (rows : List Nat) : List Nat :=
  rows.filter fun row => t.Keeps row

theorem Stores.evaluate (ht : t.WellFormed) {values : Array Float} {x : Float}
    (h : t.Stores name values) (hx : values[row]? = some x) :
    t.evaluate name row = some (.scalar x) := by
  obtain ⟨id, hid, hcol⟩ := h
  have hkind : t.idOfKind .scalar name = .ok id := by
    refine idOfKind_eq_ok_iff.2 ⟨hid, ?_⟩
    rw [kindIn, hcol]
    rfl
  rw [evaluate_eq ht.inputs hkind, valueOn, scalarOn_stored hcol, Array.getD_eq_getD_getElem?, hx]
  rfl

/-- What the event loop works out for a column is its value. -/
theorem HasValue.evaluate (ht : t.WellFormed) (h : t.HasValue row name v) :
    t.evaluate name row = some v := by
  induction h with
  | stored hstores hx => exact hstores.evaluate ht hx
  | @derived d x hdefines _ ih =>
    rw [hdefines.evaluate ht.inputs row]
    refine congrArg (fun xs => some (d.kernel.apply xs)) (List.map_congr_left ?_)
    intro c hc
    exact numberOn_of_evaluate (ih c hc)

/-- Every column has a value on every row.  The induction is on the position of the column. -/
theorem hasValue_valueOn (ht : t.WellFormed) (hrow : row < t.rows) {kind : ColumnKind} {id : Nat}
    (hid : t.idOfKind kind name = .ok id) :
    t.HasValue row name (valueOn t.columns row id kind) := by
  induction id using Nat.strong_induction_on generalizing name kind with
  | _ id ih =>
    obtain ⟨hname, hkind⟩ := idOfKind_eq_ok_iff.1 hid
    obtain ⟨⟨cname, source⟩, hcol, rfl⟩ := exists_of_idOf? hname
    have hk : source.kind = kind := by
      rw [kindIn, hcol] at hkind
      exact Option.some.inj hkind
    subst hk
    cases source with
    | stored values =>
      have hx : values[row]? = some (values.getD row 0) := by
        have hsize := ht.stored id _ values hcol rfl
        rw [Array.getD_eq_getD_getElem?, Array.getElem?_eq_getElem (hsize ▸ hrow)]
        rfl
      have hvalue := HasValue.stored ⟨id, hname, hcol⟩ hx
      rw [← scalarOn_stored hcol] at hvalue
      exact hvalue
    | derived ids kernel =>
      obtain ⟨inputs, hdefines⟩ := ht.exists_defines hcol
      have hdefines' := hdefines
      obtain ⟨id', ids', hid', hcol', hids⟩ := hdefines
      obtain rfl : id' = id := Option.some.inj (hid'.symm.trans hname)
      obtain rfl : ids' = ids := by
        rw [hcol] at hcol'
        cases hcol'
        rfl
      have hinputs : ∀ c ∈ inputs, t.HasValue row c (.scalar (t.numberOn row c)) := by
        intro c hc
        obtain ⟨i, hi, hci⟩ := forall₂_exists_of_mem_right hids.flip hc
        have hlt := (ht.inputs _ _ hcol i hi).1
        rw [numberOn_of_idOfKind ht.inputs hci]
        exact ih i hlt hci
      have hvalue := HasValue.derived hdefines' hinputs
      rwa [← Option.some.inj ((evaluate_eq ht.inputs hid).symm.trans
        (hdefines'.evaluate ht.inputs row))] at hvalue

/-- A scalar column has one value on a row, the number that the event loop works out. -/
theorem hasValue_scalar_iff (ht : t.WellFormed) (hrow : row < t.rows)
    (hname : t.kindOf? name = some .scalar) :
    t.HasValue row name v ↔ v = .scalar (t.numberOn row name) := by
  obtain ⟨id, hid⟩ := kindOf?_eq_some_iff.1 hname
  have hvalue := hasValue_valueOn ht hrow hid
  rw [valueOn, ← numberOn_of_idOfKind ht.inputs hid] at hvalue
  constructor
  · intro h
    exact Option.some.inj ((h.evaluate ht).symm.trans (hvalue.evaluate ht))
  · rintro rfl
    exact hvalue

/-- A vector column has one value on a row, the one that the event loop collects. -/
theorem hasValue_vector_iff (ht : t.WellFormed) (hrow : row < t.rows) {id : Nat}
    (hid : t.idOfKind .vector name = .ok id) :
    t.HasValue row name v ↔ v = .vector (vectorOn t.columns row id) := by
  have hvalue := hasValue_valueOn ht hrow hid
  rw [valueOn] at hvalue
  constructor
  · intro h
    exact Option.some.inj ((h.evaluate ht).symm.trans (hvalue.evaluate ht))
  · rintro rfl
    exact hvalue

/-! ## Filters -/

/-- The filters pass a row exactly when it is kept. -/
theorem passesOn_iff (ht : t.WellFormed) (hrow : row < t.rows) :
    passesOn t.columns t.filters row = true ↔ t.Keeps row := by
  rw [passesOn, List.all_eq_true]
  constructor
  · rintro h name ⟨id, hmem, hname⟩
    have hid := idOfKind_eq_ok_iff.2 ⟨hname, ht.filters id hmem⟩
    exact ⟨_, hasValue_valueOn ht hrow hid, of_decide_eq_true (h id hmem)⟩
  · intro h id hmem
    obtain ⟨c, hcol, -⟩ := Option.map_eq_some_iff.1 (ht.filters id hmem)
    obtain ⟨x, hx, hpos⟩ := h c.name ⟨id, hmem, ht.idOf? hcol⟩
    have hid := idOfKind_eq_ok_iff.2 ⟨ht.idOf? hcol, ht.filters id hmem⟩
    have hvalue := (hx.evaluate ht).symm.trans (evaluate_eq ht.inputs hid)
    simp only [valueOn, Option.some.injEq, ColumnValue.scalar.injEq] at hvalue
    rw [← hvalue]
    exact decide_eq_true hpos

theorem filter_passesOn (ht : t.WellFormed) {rows : List Nat} (hrows : ∀ row ∈ rows, row < t.rows) :
    rows.filter (passesOn t.columns t.filters) = t.keptOf rows := by
  classical
  rw [keptOf]
  refine List.filter_congr fun row hrow => ?_
  rw [Bool.eq_iff_iff, passesOn_iff ht (hrows row hrow), decide_eq_true_iff]

/-- A row on which a filter is not a number is not kept. -/
theorem not_keeps_of_isNaN (ht : t.WellFormed) (hname : t.Filters name) {x : Float}
    (hx : t.HasValue row name (.scalar x)) (hnan : x.isNaN = true) : ¬ t.Keeps row := by
  intro h
  obtain ⟨y, hy, hpos⟩ := h name hname
  have heq := Option.some.inj ((hx.evaluate ht).symm.trans (hy.evaluate ht))
  rw [ColumnValue.scalar.injEq] at heq
  rw [← heq] at hpos
  exact Double.not_lt_of_isNaN hnan hpos

/-! ## Listing a column -/

/-- Working through rows lists the numbers of the rows that pass, whatever is in the buffers at
first. -/
theorem foldl_survivors (ht : t.WellFormed) {id : Nat} (hid : t.idOfKind .scalar name = .ok id)
    (rows : List Nat) (values : Array Float) {b : RowBuffers}
    (hb : b.Holds t.columns row fun _ => False) :
    (rows.foldl (fun (values, buffers) row =>
        let (buffers, kept) :=
          RowBuffers.evalRow t.columns (.make t.columns t.filters [id]) buffers row
        (if kept then values.push (buffers.scalar id) else values, buffers)) (values, b)).1.toList =
      values.toList ++ (rows.filter (passesOn t.columns t.filters)).map fun row =>
        t.numberOn row name := by
  induction rows generalizing values b row with
  | nil => simp
  | cons r rows ih =>
    have htargets : ∀ i ∈ [id], i < t.columns.size := by
      simpa using kindIn_eq_some_lt (idOfKind_eq_ok_iff.1 hid).2
    obtain ⟨hkept, hvalues⟩ := (hb.forget r).evalRow_make ht.inputs ht.filters htargets
    have hvalue := evaluate_eq_of_kept ht.inputs ht.filters htargets (hb.forget r) hid
      (List.mem_singleton.2 rfl)
    rw [List.foldl_cons]
    dsimp only
    cases hrow : RowBuffers.evalRow t.columns (.make t.columns t.filters [id]) b r with
    | mk b' kept =>
      rw [hrow] at hkept hvalues hvalue
      obtain rfl : kept = passesOn t.columns t.filters r := hkept
      rw [ih _ (hvalues.forget r)]
      cases hpass : passesOn t.columns t.filters r with
      | false => rw [List.filter_cons_of_neg (by simp [hpass]), if_neg (by simp)]
      | true =>
        have hnumber : t.numberOn r name = b'.scalar id := numberOn_of_evaluate (hvalue hpass)
        rw [List.filter_cons_of_pos hpass, if_pos rfl, Array.toList_push, List.map_cons, hnumber,
          List.append_assoc]
        rfl

/-- A scalar column is listed by its values on the rows that are kept, in order. -/
theorem survivors_eq (ht : t.WellFormed) (hname : t.kindOf? name = some .scalar) :
    t.survivors name = .ok ((t.keptOf (List.range t.rows)).map fun row => t.numberOn row name) := by
  obtain ⟨id, hid⟩ := kindOf?_eq_some_iff.1 hname
  have hlist := foldl_survivors ht hid (List.range t.rows) #[] (.empty t.columns 0)
  rw [List.nil_append, filter_passesOn ht (fun _ => List.mem_range.1)] at hlist
  unfold survivors
  rw [hid]
  exact congrArg Except.ok hlist

/-! ## The event loop -/

/-- The calls that hand values of kept rows to an aggregation: slot after slot, an opening and then
one fill for each row of the slot that is kept. -/
noncomputable def callsWith [Machine] (t : EventTable α) (value : Nat → List Float) :
    List (Nat × SlotCall) :=
  (List.range t.slotCount).flatMap fun slot =>
    (slot, .openSlot) :: (t.keptOf (RowRange.ofSlot t.rows t.slotCount slot).rows).map fun row =>
      (slot, .fill (value row))

theorem callsFor_eq [Machine] (ht : t.WellFormed) (column : Nat) :
    t.callsFor column = t.callsWith fun row => vectorOn t.columns row column := by
  refine List.flatMap_congr fun slot hslot => ?_
  rw [filter_passesOn ht fun row => mem_rows_ofSlot_lt (List.mem_range.1 hslot)]

/-! ## What a value depends on -/

/-- The column `c` is defined as a function of the column `c'`, among others. -/
def Reads (t : EventTable α) (c c' : String) : Prop :=
  ∃ d, t.Defines d ∧ d.name = c ∧ c' ∈ d.inputs

/-- What a table says about a column and a row, another table says about it and another row. -/
structure SameOn (t : EventTable α) (row : Nat) (u : EventTable β) (row' : Nat) (name : String) :
    Prop where
  stored : ∀ values x, t.Stores name values → values[row]? = some x →
    ∃ values', u.Stores name values' ∧ values'[row']? = some x
  defined : ∀ d, t.Defines d → d.name = name → u.Defines d

/-- The value of a column on a row is fixed by the definitions of the columns that it depends on,
and by what those of them that are stored hold on the row. -/
theorem HasValue.of_dependencies {u : EventTable β} {row' : Nat} (h : t.HasValue row name v)
    (hsame : ∀ c, Relation.ReflTransGen t.Reads name c → t.SameOn row u row' c) :
    u.HasValue row' name v := by
  induction h with
  | stored hstores hx =>
    obtain ⟨values', hstores', hx'⟩ := (hsame _ .refl).stored _ _ hstores hx
    exact .stored hstores' hx'
  | @derived d x hdefines _ ih =>
    refine .derived ((hsame _ .refl).defined d hdefines rfl) fun c hc => ih c hc ?_
    intro c' hc'
    exact hsame c' (.head ⟨d, hdefines, rfl, hc⟩ hc')

theorem Stores.extend {u : EventTable α} {values : Array Float} (h : t.Stores name values)
    (hk : t.KeepsColumns u) : u.Stores name values := by
  obtain ⟨id, hid, hcol⟩ := h
  exact ⟨id, hk.idOf? _ _ hid, hk.column _ _ hcol⟩

/-- Columns that are added later change nothing. -/
theorem SameOn.of_keepsColumns {u : EventTable α} (h : t.KeepsColumns u) (row : Nat)
    (name : String) : t.SameOn row u row name where
  stored values _ hstores hx := ⟨values, hstores.extend h, hx⟩
  defined _ hdefines _ := hdefines.extend h

/-! ## Lazy evaluation -/

/-- Lazy evaluation.  In every table that can be reached: a scalar column has one value on every
row and is listed by its values on the rows that are kept, in order; an event loop fills an
aggregation with the values of its column on the rows that are kept, slot by slot; and a row is not
kept if a filter is not a number on it.  A value depends on nothing but the definitions that it
goes back to and what is stored for its row. -/
theorem Reachable.lazy_evaluation [Aggregation α] [Machine] (ht : t.Reachable) :
    (∀ name, t.kindOf? name = some .scalar → ∃ value : Nat → Float,
      (∀ row < t.rows, ∀ v, t.HasValue row name v ↔ v = .scalar (value row)) ∧
      t.survivors name = .ok ((t.keptOf (List.range t.rows)).map value)) ∧
    (∀ t' (k : Nat) s, EventTable.run t = .ok () t' → t.pending[k]? = some s →
      ∃ (name : String) (value : Nat → List Float), t.idOf? name = some s.column ∧
        (∀ row < t.rows, ∀ v, t.HasValue row name v ↔ v = .vector (value row)) ∧
        t'.finished[t.finished.length + k]? = some { s with
          action := finish (driven (prepare t.slotCount s.action) (t.callsWith value)) }) ∧
    (∀ row name x, t.Filters name → t.HasValue row name (.scalar x) → x.isNaN = true →
      ¬ t.Keeps row) ∧
    ∀ (β : Type) (u : EventTable β) row row' name v, t.HasValue row name v →
      (∀ c, Relation.ReflTransGen t.Reads name c → t.SameOn row u row' c) →
      u.HasValue row' name v := by
  have hwf := ht.wellFormed
  refine ⟨?_, ?_, fun row name x hname hx hnan => not_keeps_of_isNaN hwf hname hx hnan,
    fun β u row row' name v h => h.of_dependencies⟩
  · intro name hname
    exact ⟨fun row => t.numberOn row name,
      fun row hrow v => hasValue_scalar_iff hwf hrow hname, survivors_eq hwf hname⟩
  · intro t' k s hrun hs
    have hkind := hwf.subscriptions s (List.mem_of_getElem? hs)
    obtain ⟨c, hcol, -⟩ := Option.map_eq_some_iff.1 hkind
    have hid := idOfKind_eq_ok_iff.2 ⟨hwf.idOf? hcol, hkind⟩
    refine ⟨c.name, fun row => vectorOn t.columns row s.column, hwf.idOf? hcol,
      fun row hrow v => hasValue_vector_iff hwf hrow hid, ?_⟩
    rw [finished_of_run hwf hrun hs, callsFor_eq hwf]

section Negated

attribute [local instance] Machine.oneThread

/-- Three rows with a column `x`, the column `y` of its negatives and a vector column `v` of them. -/
def negatedEvents (filters : List Nat) (pending : List (Subscription Recorder)) :
    EventTable Recorder :=
  ⟨3, 0, #[⟨"x", .stored #[1, 0 / 0, 3]⟩, ⟨"y", .derived [0] (.scalar fun xs => -xs.headD 0)⟩,
    ⟨"v", .derived [1] .concat⟩], filters, [], pending, 0⟩

theorem negatedEvents_reachable :
    (negatedEvents [0] [⟨2, Recorder.make "r" 0⟩]).Reachable := by
  have hx : (⟨3, 0, #[⟨"x", .stored #[1, 0 / 0, 3]⟩], [], [], [], 0⟩ :
      EventTable Recorder).Reachable :=
    (Reachable.ofRows 3).addColumn "x" #[1, 0 / 0, 3]
      (addColumn_eq_ok_iff.2 ⟨rfl, by decide +kernel, rfl⟩)
  have hy : (⟨3, 0, #[⟨"x", .stored #[1, 0 / 0, 3]⟩,
      ⟨"y", .derived [0] (.scalar fun xs => -xs.headD 0)⟩], [], [], [], 0⟩ :
      EventTable Recorder).Reachable :=
    hx.defineColumn "y" (.scalar fun xs => -xs.headD 0) ["x"] (defineColumn_eq_ok_iff.2
      ⟨by decide +kernel, [0],
        .cons (idOfKind_eq_ok_iff.2 ⟨by decide +kernel, by decide +kernel⟩) .nil, rfl⟩)
  have hv : (negatedEvents [] []).Reachable :=
    hy.defineColumn "v" .concat ["y"] (defineColumn_eq_ok_iff.2 ⟨by decide +kernel, [1],
      .cons (idOfKind_eq_ok_iff.2 ⟨by decide +kernel, by decide +kernel⟩) .nil, rfl⟩)
  have hfilter : (negatedEvents [0] []).Reachable :=
    hv.filterRows "x" (filterRows_eq_ok_iff.2
      ⟨0, idOfKind_eq_ok_iff.2 ⟨by decide +kernel, by decide +kernel⟩, rfl⟩)
  exact hfilter.subscribe "v" (Recorder.make "r" 0) (subscribe_eq_ok_iff.2
    ⟨2, idOfKind_eq_ok_iff.2 ⟨by decide +kernel, by decide +kernel⟩, rfl⟩)

/-- Three rows, on one of which the filter is not a number. -/
theorem lazy_evaluation_of_negated :
    ∃ t u : EventTable Recorder, t.Reachable ∧ u.filters ≠ t.filters ∧
      t.kindOf? "y" = some .scalar ∧ t.HasValue 0 "y" (.scalar (-1)) ∧
      u.HasValue 0 "y" (.scalar (-1)) ∧ ¬ t.Keeps 1 ∧
      (∃ value : Nat → Float, value 0 = -1 ∧
        t.survivors "y" = .ok ((t.keptOf (List.range 3)).map value)) ∧
      ∃ t' s, run t = .ok () t' ∧ t.pending[0]? = some s ∧
        ∃ value, t'.finished[0]? = some { s with
          action := finish (driven (prepare 1 s.action) (t.callsWith value)) } := by
  have ht := negatedEvents_reachable
  have hx : (negatedEvents [0] [⟨2, Recorder.make "r" 0⟩]).Stores "x" #[1, 0 / 0, 3] :=
    ⟨0, by decide +kernel, rfl⟩
  have hdefines : (negatedEvents [0] [⟨2, Recorder.make "r" 0⟩]).Defines
      ⟨"y", .scalar fun xs => -xs.headD 0, ["x"]⟩ :=
    ⟨1, [0], by decide +kernel, rfl,
      .cons (idOfKind_eq_ok_iff.2 ⟨by decide +kernel, by decide +kernel⟩) .nil⟩
  have hy : (negatedEvents [0] [⟨2, Recorder.make "r" 0⟩]).HasValue 0 "y" (.scalar (-1)) := by
    refine .derived (x := fun _ => 1) hdefines fun c hc => ?_
    rw [List.mem_singleton.1 hc]
    exact .stored hx rfl
  have hkeeps : (negatedEvents [0] [⟨2, Recorder.make "r" 0⟩]).KeepsColumns (negatedEvents [] []) :=
    ⟨fun _ _ h => h, fun _ _ h => h⟩
  have hprep : AllPrepare (negatedEvents [0] [⟨2, Recorder.make "r" 0⟩]) := fun s hs => by
    rw [List.mem_singleton.1 hs]
    rfl
  obtain ⟨t', hrun, -⟩ := run_of_allPrepare (fun _ => rfl) hprep
  obtain ⟨hlist, hloop, hnan, hsame⟩ := ht.lazy_evaluation
  obtain ⟨value, hvalue, hsurvivors⟩ := hlist "y" (by decide +kernel)
  obtain ⟨-, value', -, -, hfinished⟩ := hloop t' 0 _ hrun rfl
  have hvalue0 := ((hvalue 0 (by decide) _).1 hy)
  rw [ColumnValue.scalar.injEq] at hvalue0
  refine ⟨_, negatedEvents [] [], ht, by decide, by decide +kernel, hy, ?_, ?_,
    ⟨value, hvalue0.symm, hsurvivors⟩, t', _, hrun, rfl, value', hfinished⟩
  · exact hsame _ _ 0 0 "y" _ hy fun c _ => .of_keepsColumns hkeeps 0 c
  · exact hnan 1 "x" (0 / 0) ⟨0, by decide, by decide +kernel⟩ (.stored hx rfl) (by decide +kernel)

end Negated

end EventTable

end VariHist
