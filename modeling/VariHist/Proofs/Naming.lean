import Mathlib
import VariHist.Naming

/-!
# Names of variations are told apart

* `variationLabel_inj` — a label says the systematic and the direction.
* `variationColumn_inj`, `variationColumn_ne` — so do the shifted copies of a column, and none of
  them is the column itself.
* `beforeSuffix?_eq_some_iff` — a name ends in a suffix exactly when it is put together with it.
* `nodup_variationLabels` — the labels of distinct systematics are distinct.
-/

namespace VariHist

variable {s s' c : String} {d d' : Direction}

/-- A label says the systematic and the direction. -/
theorem variationLabel_inj :
    variationLabel s d = variationLabel s' d' ↔ s = s' ∧ d = d' := by
  constructor
  · intro h
    have hl : s.toList ++ d.suffix.toList = s'.toList ++ d'.suffix.toList := by
      rw [← String.toList_append, ← String.toList_append]
      exact congrArg String.toList h
    have hd : d = d' := by
      have hlast := congrArg List.getLast? hl
      cases d <;> cases d' <;> simp [Direction.suffix] at hlast ⊢
    subst hd
    exact ⟨String.toList_inj.1 (List.append_cancel_right hl), rfl⟩
  · rintro ⟨rfl, rfl⟩
    rfl

theorem nominalLabel_ne_variationLabel : nominalLabel ≠ variationLabel s d := by
  intro h
  have hl : nominalLabel.toList = s.toList ++ d.suffix.toList := by
    rw [← String.toList_append]
    exact congrArg String.toList h
  have hlast := congrArg List.getLast? hl
  cases d <;> simp [Direction.suffix, nominalLabel] at hlast

theorem labelledColumn_inj {l l' : String} : labelledColumn c l = labelledColumn c l' ↔ l = l' := by
  unfold labelledColumn
  constructor
  · intro h
    have hl := congrArg String.toList h
    simp only [String.toList_append] at hl
    exact String.toList_inj.1 (List.append_cancel_left hl)
  · intro h
    rw [h]

theorem labelledColumn_ne {l : String} : labelledColumn c l ≠ c := by
  intro h
  have hlen := congrArg (fun t => t.toList.length) h
  simp [labelledColumn] at hlen

/-- The shifted copies of a column are told apart. -/
theorem variationColumn_inj :
    variationColumn c s d = variationColumn c s' d' ↔ s = s' ∧ d = d' := by
  rw [variationColumn, variationColumn, labelledColumn_inj, variationLabel_inj]

theorem variationColumn_ne : variationColumn c s d ≠ c :=
  labelledColumn_ne

/-- A suffix is matched exactly, whatever stands before it. -/
theorem beforeSuffix?_eq_some_iff {ending text : String} :
    beforeSuffix? ending text = some s ↔ text = s ++ ending := by
  unfold beforeSuffix?
  constructor
  · intro h
    by_cases hsuffix : ending.toList.isSuffixOf text.toList = true
    · rw [if_pos hsuffix] at h
      obtain ⟨front, hfront⟩ := List.isSuffixOf_iff_suffix.1 hsuffix
      obtain rfl : text = String.ofList front ++ ending := by
        rw [← String.toList_inj, String.toList_append, String.toList_ofList, hfront]
      rw [String.length_append, Nat.add_sub_cancel, String.toList_append, ← String.length_toList,
        List.take_left, String.ofList_toList, Option.some_inj] at h
      rw [h]
    · rw [if_neg hsuffix] at h
      cases h
  · rintro rfl
    have hsuffix : ending.toList.isSuffixOf (s ++ ending).toList = true := by
      rw [List.isSuffixOf_iff_suffix, String.toList_append]
      exact List.suffix_append _ _
    rw [if_pos hsuffix, String.length_append, Nat.add_sub_cancel, String.toList_append,
      ← String.length_toList, List.take_left, String.ofList_toList]

/-! ## The shifts of a list of systematics -/

/-- The shifts of some systematics. -/
def shiftsOf (systematics : List String) : List (String × Direction) :=
  systematics.flatMap fun s => Direction.all.map fun d => (s, d)

theorem mem_shiftsOf {systematics : List String} :
    (s, d) ∈ shiftsOf systematics ↔ s ∈ systematics := by
  cases d <;> simp [shiftsOf, Direction.all]

theorem nodup_shiftsOf {systematics : List String} (h : systematics.Nodup) :
    (shiftsOf systematics).Nodup := by
  induction systematics with
  | nil => exact List.nodup_nil
  | cons s systematics ih =>
    rw [List.nodup_cons] at h
    have hrest := ih h.2
    have hup : (s, Direction.up) ∉ shiftsOf systematics := fun hm => h.1 (mem_shiftsOf.1 hm)
    have hdown : (s, Direction.down) ∉ shiftsOf systematics := fun hm => h.1 (mem_shiftsOf.1 hm)
    change ((s, Direction.up) :: (s, Direction.down) :: shiftsOf systematics).Nodup
    refine List.nodup_cons.2 ⟨?_, List.nodup_cons.2 ⟨hdown, hrest⟩⟩
    rw [List.mem_cons]
    rintro (hm | hm)
    · cases hm
    · exact hup hm

/-- The names of a column's copies under distinct shifts are distinct, and none is the column. -/
theorem nodup_shiftedNames {shifts : List (String × Direction)} (h : shifts.Nodup) :
    (c :: shifts.map fun shift => variationColumn c shift.1 shift.2).Nodup := by
  refine List.nodup_cons.2 ⟨fun hm => ?_, h.map fun shift shift' heq => ?_⟩
  · obtain ⟨shift, -, hshift⟩ := List.mem_map.1 hm
    exact variationColumn_ne hshift
  · obtain ⟨h1, h2⟩ := variationColumn_inj.1 heq
    exact Prod.ext h1 h2

theorem variationLabels_eq (systematics : List String) :
    variationLabels systematics =
      nominalLabel :: (shiftsOf systematics).map fun shift => variationLabel shift.1 shift.2 := by
  rw [variationLabels, shiftsOf, List.map_flatMap]
  rfl

theorem length_variationLabels (systematics : List String) :
    (variationLabels systematics).length = 2 * systematics.length + 1 := by
  rw [variationLabels_eq, List.length_cons, List.length_map, shiftsOf, List.length_flatMap]
  simp [Direction.all, Nat.mul_comm]

/-- The labels of distinct systematics are distinct. -/
theorem nodup_variationLabels {systematics : List String} (h : systematics.Nodup) :
    (variationLabels systematics).Nodup := by
  rw [variationLabels_eq]
  refine List.nodup_cons.2 ⟨fun hm => ?_, (nodup_shiftsOf h).map fun shift shift' heq => ?_⟩
  · obtain ⟨shift, -, hshift⟩ := List.mem_map.1 hm
    exact nominalLabel_ne_variationLabel hshift.symm
  · obtain ⟨h1, h2⟩ := variationLabel_inj.1 heq
    exact Prod.ext h1 h2

end VariHist
