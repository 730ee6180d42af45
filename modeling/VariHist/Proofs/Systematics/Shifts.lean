import Mathlib
import VariHist.Proofs.Systematics.Operations
import VariHist.Proofs.Table.Values
import VariHist.Table.Recorder

/-!
# Shifts are carried along chains of definitions

Each definition looks one step back only: it reads the shifted copies of its affected inputs.  What
comes out is the shift of the whole chain, down to the columns whose copies were given.

* `VariedTable.ShiftedValue` — the value of a column under a shift, worked out down the chain.
* `Tracks.evaluate_of_shiftedValue` — the table has it, under the name of the shifted copy.
* `shifted_columns` — so it is after every sequence of operations.
-/

namespace VariHist.VariedTable

variable {α : Type} {v : VariedTable α} {log : List Definition} {s : String} {d : Direction}
  {row : Nat} {c : String} {x : ColumnValue}

/-- The value of a column on a row under a shift.  A column that the systematic does not affect
keeps its value, an affected column that was defined along the way has what its kernel makes of the
shifted values of its inputs, and any other affected column has the value of its copy. -/
inductive ShiftedValue (v : VariedTable α) (log : List Definition) (s : String) (d : Direction)
    (row : Nat) : String → ColumnValue → Prop
  | unaffected {c : String} {x : ColumnValue} (haff : v.registry.affects s c = false)
    (hx : v.table.evaluate c row = some x) : ShiftedValue v log s d row c x
  | defined {e : Definition} (he : e ∈ log) (haff : v.registry.affects s e.name = true)
    (x : String → Float) (hin : ∀ c ∈ e.inputs, ShiftedValue v log s d row c (.scalar (x c))) :
    ShiftedValue v log s d row e.name (e.kernel.apply (e.inputs.map x))
  | given {c : String} {x : ColumnValue} (haff : v.registry.affects s c = true)
    (hlog : ∀ e ∈ log, e.name ≠ c) (hx : v.table.evaluate (variationColumn c s d) row = some x) :
    ShiftedValue v log s d row c x

theorem shiftedName_of_affects (h : v.registry.affects s c = true) :
    v.shiftedName s d c = variationColumn c s d :=
  if_pos h

theorem shiftedName_of_not_affects (h : v.registry.affects s c = false) :
    v.shiftedName s d c = c :=
  if_neg (by simp [h])

/-- What is worked out down the chain is what the table has. -/
theorem Tracks.evaluate_of_shiftedValue [Aggregation α] (h : v.Tracks log)
    (hx : v.ShiftedValue log s d row c x) :
    v.table.evaluate (v.shiftedName s d c) row = some x := by
  have hc := h.reachable.wellFormed.inputs
  induction hx with
  | unaffected haff hx => rwa [shiftedName_of_not_affects haff]
  | @defined e he haff x hin ih =>
    rw [shiftedName_of_affects haff]
    refine ((h.copies e he s d haff).evaluate hc row).trans ?_
    rw [copyOf, List.map_map]
    refine congrArg (fun l => some (e.kernel.apply l)) (List.map_congr_left fun c hmem => ?_)
    exact EventTable.numberOn_of_evaluate (ih c hmem)
  | given haff hlog hx => rwa [shiftedName_of_affects haff]

theorem Tracks.kindOf?_shiftedName [Aggregation α] (h : v.Tracks log) {kind : ColumnKind}
    (hk : v.table.kindOf? c = some kind) : v.table.kindOf? (v.shiftedName s d c) = some kind := by
  cases haff : v.registry.affects s c with
  | false => rwa [shiftedName_of_not_affects haff]
  | true =>
    obtain ⟨kind', hk', hcopies⟩ := h.consistent s c haff
    rw [shiftedName_of_affects haff, hcopies d, ← hk', hk]

/-- Every column has a value under every shift.  The induction is on the position of the column:
inputs stand before it. -/
theorem Tracks.exists_shiftedValue [Aggregation α] (h : v.Tracks log) (s : String) (d : Direction)
    (row : Nat) {id : Nat} (hid : v.table.idOf? c = some id) :
    ∃ x, v.ShiftedValue log s d row c x := by
  have hwf := h.reachable.wellFormed
  induction id using Nat.strong_induction_on generalizing c with
  | _ id ih =>
    cases haff : v.registry.affects s c with
    | false =>
      obtain ⟨x, hx⟩ := EventTable.exists_evaluate hwf.inputs hid row
      exact ⟨x, .unaffected haff hx⟩
    | true =>
      by_cases hlog : ∃ e ∈ log, e.name = c
      · obtain ⟨e, he, rfl⟩ := hlog
        obtain ⟨id', ids, hid', hcol, hids⟩ := h.defines e he
        obtain rfl := Option.some.inj (hid.symm.trans hid')
        have hin : ∀ c ∈ e.inputs, v.ShiftedValue log s d row c
            (.scalar (v.table.numberOn row (v.shiftedName s d c))) := by
          intro c hmem
          obtain ⟨i, hi, hci⟩ := forall₂_exists_of_mem_right hids.flip hmem
          obtain ⟨hci, hk⟩ := EventTable.idOfKind_eq_ok_iff.1 hci
          obtain ⟨x, hx⟩ := ih i (hwf.inputs id _ hcol i hi).1 hci
          have hscalar := h.kindOf?_shiftedName (s := s) (d := d) ((h.defines e he).inputs hmem)
          have hval := h.evaluate_of_shiftedValue hx
          rw [EventTable.evaluate_scalar hwf.inputs hscalar] at hval
          rwa [Option.some.inj hval]
        exact ⟨_, .defined he haff _ hin⟩
      · obtain ⟨kind, -, hcopies⟩ := h.consistent s c haff
        obtain ⟨copy, hcopy⟩ := EventTable.kindOf?_eq_some_iff.1 (hcopies d)
        obtain ⟨x, hx⟩ := EventTable.exists_evaluate hwf.inputs
          (EventTable.idOfKind_eq_ok_iff.1 hcopy).1 row
        exact ⟨x, .given haff (fun e he hn => hlog ⟨e, he, hn⟩) hx⟩

/-- The one value that a column has under a shift is what the table has under the name of its
copy. -/
theorem Tracks.shiftedValue_iff [Aggregation α] (h : v.Tracks log) {id : Nat}
    (hid : v.table.idOf? c = some id) :
    v.ShiftedValue log s d row c x ↔ v.table.evaluate (v.shiftedName s d c) row = some x := by
  refine ⟨h.evaluate_of_shiftedValue, fun hx => ?_⟩
  obtain ⟨y, hy⟩ := h.exists_shiftedValue s d row hid
  rw [h.evaluate_of_shiftedValue hy] at hx
  rwa [← Option.some.inj hx]

/-- After every sequence of operations, an affected column has exactly one value under each shift
that affects it, which is the value of its copy; and a derived column has the value that its kernel
makes of the values of its inputs. -/
theorem shifted_columns [Aggregation α] {start : VariedTable α} (ht : start.table.Reachable)
    (hr : start.registry.Reachable) (hc : start.Consistent) (ops : List Operation) :
    (∀ s c, (start.afterAll ops).registry.affects s c = true → ∀ d row,
      ∃ x, (start.afterAll ops).table.evaluate (variationColumn c s d) row = some x ∧
        ∀ y, (start.afterAll ops).ShiftedValue (start.definedBy ops) s d row c y ↔ y = x) ∧
    (∀ e ∈ start.definedBy ops, (start.afterAll ops).table.Defines e) ∧
    ∀ e, (start.afterAll ops).table.Defines e → ∀ row,
      (start.afterAll ops).table.evaluate e.name row =
        some (e.kernel.apply (e.inputs.map ((start.afterAll ops).table.numberOn row))) ∧
      ∀ c ∈ e.inputs, (start.afterAll ops).table.evaluate c row =
        some (.scalar ((start.afterAll ops).table.numberOn row c)) := by
  have hstart : start.Tracks [] :=
    ⟨ht, hr.nodup, hc, by simp, by simp⟩
  have h := hstart.afterAll ops
  rw [List.nil_append] at h
  have hin := h.reachable.wellFormed.inputs
  refine ⟨fun s c haff d row => ?_, h.defines, fun e he row => ⟨he.evaluate hin row, ?_⟩⟩
  · obtain ⟨kind, hk, -⟩ := h.consistent s c haff
    obtain ⟨id, hid⟩ := EventTable.kindOf?_eq_some_iff.1 hk
    have hid := (EventTable.idOfKind_eq_ok_iff.1 hid).1
    obtain ⟨x, hx⟩ := h.exists_shiftedValue s d row hid
    have hx' := h.evaluate_of_shiftedValue hx
    rw [shiftedName_of_affects haff] at hx'
    refine ⟨x, hx', fun y => ?_⟩
    rw [h.shiftedValue_iff hid, shiftedName_of_affects haff, hx', Option.some_inj, eq_comm]
  · exact fun c hmem => EventTable.evaluate_scalar hin (he.inputs hmem) row

/-- One row with a column and its two copies, and a chain of two definitions on it. -/
theorem shifted_columns_of_chain :
    ∃ start : VariedTable Recorder, start.table.Reachable ∧ start.registry.Reachable ∧
      start.Consistent ∧ ∃ ops : List Operation,
        (start.afterAll ops).registry.affects "S" "z" = true ∧
        ∃ x, (start.afterAll ops).table.evaluate "z_SUp" 0 = some x ∧
          (start.afterAll ops).ShiftedValue (start.definedBy ops) "S" .up 0 "z" x := by
  have h1 : (⟨1, 0, #[⟨"x", .stored #[1]⟩], [], [], [], 0⟩ : EventTable Recorder).Reachable :=
    (EventTable.Reachable.ofRows 1).addColumn "x" #[1]
      (EventTable.addColumn_eq_ok_iff.2 ⟨rfl, by decide +kernel, rfl⟩)
  have h2 : (⟨1, 0, #[⟨"x", .stored #[1]⟩, ⟨"x_SUp", .stored #[2]⟩], [], [], [], 0⟩ :
      EventTable Recorder).Reachable :=
    h1.addColumn "x_SUp" #[2] (EventTable.addColumn_eq_ok_iff.2 ⟨rfl, by decide +kernel, rfl⟩)
  have h3 : (⟨1, 0, #[⟨"x", .stored #[1]⟩, ⟨"x_SUp", .stored #[2]⟩, ⟨"x_SDown", .stored #[0]⟩],
      [], [], [], 0⟩ : EventTable Recorder).Reachable :=
    h2.addColumn "x_SDown" #[0] (EventTable.addColumn_eq_ok_iff.2 ⟨rfl, by decide +kernel, rfl⟩)
  have hr : (Registry.empty.register "S" ["x"]).Reachable := .register "S" ["x"] .empty
  have hc : Consistent (⟨⟨1, 0, #[⟨"x", .stored #[1]⟩, ⟨"x_SUp", .stored #[2]⟩,
      ⟨"x_SDown", .stored #[0]⟩], [], [], [], 0⟩, Registry.empty.register "S" ["x"]⟩ :
        VariedTable Recorder) := by
    intro s c haff
    have hx : s = "S" ∧ c ∈ ["x"] := (Registry.affects_register.1 haff).resolve_left (by
      intro hempty
      cases hempty)
    obtain ⟨rfl, hc⟩ := hx
    rw [List.mem_singleton.1 hc]
    refine ⟨.scalar, by decide +kernel, fun d => ?_⟩
    cases d with
    | up => decide +kernel
    | down => decide +kernel
  refine ⟨_, h3, hr, hc, [.define "y" (.scalar List.sum) ["x", "x"], .define "z" .concat ["y"]],
    ?_, ?_⟩
  · decide +kernel
  · obtain ⟨hall, -, -⟩ := shifted_columns h3 hr hc
      [.define "y" (.scalar List.sum) ["x", "x"], .define "z" .concat ["y"]]
    obtain ⟨x, hx, huniq⟩ := hall "S" "z" (by decide +kernel) .up 0
    exact ⟨x, hx, (huniq x).2 rfl⟩

end VariHist.VariedTable
