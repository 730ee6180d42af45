import Mathlib
import VariHist.Proofs.Systematics.Outcomes
import VariHist.Proofs.Systematics.Registrations

/-!
# What a definition reports

A definition answers with the systematics that affect an input.  A column can be registered before
it is there, and then the registry may list more systematics for it than its definition reports.

* `EventTable.Appends.columnNames` — the names of the columns after some were added.
* `Expanded.affecting_eq` — the systematics of a column after it was registered.
* `VariedTable.report_of_definition` — what a definition reports, and what it leaves out.
* `VariedTable.registered_column_not_reported` — one that leaves something out.
-/

namespace VariHist

variable {α : Type}

/-- The names of the columns after some were added. -/
theorem EventTable.Appends.columnNames {t t' : EventTable α} {ds : List Definition}
    (h : t.Appends ds t') : t'.columnNames = t.columnNames ++ ds.map Definition.name := by
  obtain ⟨cs, hcs, rfl⟩ := h
  have hnames : cs.map Column.name = ds.map Definition.name := by
    induction hcs with
    | nil => rfl
    | cons hc _ ih =>
      obtain ⟨ids, -, rfl⟩ := hc
      rw [List.map_cons, List.map_cons, ih]
  rw [← hnames]
  simp [EventTable.columnNames]

namespace VariedTable

variable {v v' : VariedTable α} {e : Definition} {name : String} {affected answer : List String}

/-- The systematics of a column after it was registered: those that affected it before, and those
for which it was registered. -/
theorem Expanded.affecting_eq {ds : List Definition} (h : v.Expanded ds affected name v') :
    v'.registry.affecting name = v.registry.systematics.filter fun s =>
      v.registry.affects s name || affected.contains s := by
  rw [Registry.affecting_eq, h.systematics]
  refine List.filter_congr fun s _ => ?_
  rw [Bool.eq_iff_iff, h.affects, Bool.or_eq_true, List.contains_iff_mem]
  simp

/-- The names of a column and of its copies. -/
theorem map_name_withCopies (v : VariedTable α) (e : Definition) :
    (v.withCopies e).map Definition.name =
      e.name :: (shiftsOf (v.affectingAny e.inputs)).map fun shift =>
        variationColumn e.name shift.1 shift.2 := by
  rw [withCopies, List.map_cons, List.map_map]
  rfl

/-- What a definition reports.  The answer lists the systematics that affect an input, and the
column gets its copies under these.  Afterwards the registry lists them for the column, in the same
order, and with them those for which the column was registered before.  So the answer is the list of
the registry exactly if the column was not registered for any other systematic.  A systematic that
is listed but not reported affected the column before and affects no input. -/
theorem report_of_definition (h : define e.name e.kernel e.inputs v = .ok answer v') :
    (∀ s, s ∈ answer ↔ ∃ c ∈ e.inputs, v.registry.affects s c = true) ∧
    v'.table.columnNames = v.table.columnNames ++
      e.name :: (shiftsOf answer).map (fun shift => variationColumn e.name shift.1 shift.2) ∧
    v'.registry.affecting e.name = v.registry.systematics.filter
      (fun s => v.registry.affects s e.name || answer.contains s) ∧
    answer.Sublist (v'.registry.affecting e.name) ∧
    (answer = v'.registry.affecting e.name ↔
      ∀ s, v.registry.affects s e.name = true → s ∈ answer) ∧
    ∀ s, s ∈ v'.registry.affecting e.name ∧ s ∉ answer ↔
      v.registry.affects s e.name = true ∧ ∀ c ∈ e.inputs, v.registry.affects s c = false := by
  obtain ⟨-, w, hok, hexpanded⟩ | ⟨-, fault, herror⟩ := define_allOrNothing v e
  · obtain ⟨rfl, rfl⟩ := EStateM.Result.ok.inj (h.symm.trans hok)
    have haffecting := hexpanded.affecting_eq
    have hlisted : ∀ s, s ∈ v'.registry.affecting e.name ↔
        v.registry.affects s e.name = true ∨ s ∈ v.affectingAny e.inputs := by
      intro s
      rw [Registry.mem_affecting, hexpanded.affects]
      simp
    have hreported : ∀ s, e.inputs.any (v.registry.affects s) = true ↔
        s ∈ v.affectingAny e.inputs := by
      intro s
      rw [List.any_eq_true, mem_affectingAny]
    have hsublist : (v.affectingAny e.inputs).Sublist (v'.registry.affecting e.name) := by
      rw [haffecting]
      refine List.monotone_filter_right _ fun s hs => ?_
      rw [Bool.or_eq_true, List.contains_iff_mem]
      exact .inr ((hreported s).1 hs)
    refine ⟨fun s => mem_affectingAny, ?_, haffecting, hsublist, ⟨fun heq s hs => ?_, ?_⟩,
      fun s => ?_⟩
    · rw [hexpanded.columns.columnNames, map_name_withCopies]
    · rw [heq, hlisted]
      exact .inl hs
    · intro hall
      refine hsublist.antisymm ?_
      rw [haffecting]
      refine List.monotone_filter_right _ fun s hs => (hreported s).2 ?_
      rw [Bool.or_eq_true, List.contains_iff_mem] at hs
      exact hs.elim (hall s) id
    · rw [hlisted, mem_affectingAny]
      simp only [not_exists, not_and, Bool.not_eq_true]
      constructor
      · rintro ⟨hs | ⟨c, hc, hs⟩, hnone⟩
        · exact ⟨hs, hnone⟩
        · rw [hnone c hc] at hs
          cases hs
      · exact fun ⟨hs, hnone⟩ => ⟨.inl hs, hnone⟩
  · cases h.symm.trans herror

/-- An event with a number that a systematic shifts, and a second systematic that is registered for
a column which is not there yet. -/
def announcedNumber : VariedTable Recorder :=
  { shiftedNumber with registry := shiftedNumber.registry.register "T" ["y"] }

/-- The definition reports one systematic and leaves the other one out. -/
theorem report_of_announced_column :
    define "y" (.scalar List.sum) ["x"] announcedNumber =
      .ok ["S"] ((define "y" (.scalar List.sum) ["x"]).stateAfter announcedNumber) ∧
    ["S"] ≠
      ((define "y" (.scalar List.sum) ["x"]).stateAfter announcedNumber).registry.affecting "y" ∧
    "T" ∈ ((define "y" (.scalar List.sum) ["x"]).stateAfter
      announcedNumber).registry.affecting "y" := by
  have hanswer : (define "y" (.scalar List.sum) ["x"]).answer announcedNumber = .ok ["S"] := by cbv
  have h := Step.eq_ok_of_answer hanswer
  obtain ⟨-, -, -, -, hsame, hleft⟩ :=
    report_of_definition (e := ⟨"y", .scalar List.sum, ["x"]⟩) h
  have hbefore : announcedNumber.registry.affects "T" "y" = true := by decide +kernel
  have hinputs : ∀ c ∈ ["x"], announcedNumber.registry.affects "T" c = false := by decide +kernel
  refine ⟨h, fun heq => ?_, ((hleft "T").2 ⟨hbefore, hinputs⟩).1⟩
  exact absurd (hsame.1 heq "T" hbefore) (by decide)

/-- A column that was registered before it is defined stays registered, without being reported and
without copies. -/
theorem registered_column_not_reported :
    (define "y" (.scalar List.sum) ["x"]).answer announcedNumber = .ok ["S"] ∧
    ((define "y" (.scalar List.sum) ["x"]).stateAfter announcedNumber).registry.affecting "y" =
      ["S", "T"] ∧
    ((define "y" (.scalar List.sum) ["x"]).stateAfter announcedNumber).table.columnNames =
      announcedNumber.table.columnNames ++ ["y", "y_SUp", "y_SDown"] := by
  refine ⟨by cbv, ?_, ?_⟩
  · rw [Registry.affecting_eq]
    decide +kernel
  · decide +kernel

end VariedTable

end VariHist
