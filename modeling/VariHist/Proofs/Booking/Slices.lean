import Mathlib
import VariHist.Booking.Basic
import VariHist.Proofs.Naming
import VariHist.Proofs.Systematics.Registering

/-!
# The slices of a histogram

* `Shift` — a shift up or down by a systematic, or none.
* `splitLabel?_variationLabel` — the label of a shift tells the systematic and the direction.
* `fillSlices_eq` — a histogram has a slice for each shift that changes what it is filled with, and
  the slice reads the columns under this shift.
-/

namespace VariHist

/-- A shift of the columns by a systematic, up or down; `none` leaves them as they are. -/
abbrev Shift : Type :=
  Option (String × Direction)

/-- The label of a shift. -/
def Shift.label : Shift → String
  | none => nominalLabel
  | some (s, d) => variationLabel s d

namespace Registry

variable {r : Registry} {columns others : List String} {base c : String}

/-- The column that is read for a column under a shift. -/
def under (r : Registry) : Shift → String → String
  | none, c => c
  | some (s, d), c => if r.affects s c then variationColumn c s d else c

/-- Does the shift change one of the columns?  No shift at all counts as one that does. -/
def varies (r : Registry) (columns : List String) : Shift → Bool
  | none => true
  | some (s, _) => columns.any (r.affects s)

/-- All shifts, in the order of their labels. -/
def shifts (r : Registry) : List Shift :=
  none :: (shiftsOf r.systematics).map some

theorem nodup_shifts (h : r.systematics.Nodup) : r.shifts.Nodup := by
  refine List.nodup_cons.2 ⟨by simp, (nodup_shiftsOf h).map (Option.some_injective _)⟩

theorem map_label_shifts (r : Registry) :
    r.shifts.map Shift.label = variationLabels r.systematics := by
  rw [variationLabels_eq, shifts, List.map_cons, List.map_map]
  rfl

end Registry

theorem Shift.label_injective : Function.Injective Shift.label := by
  intro a b h
  cases a with
  | none =>
    cases b with
    | none => rfl
    | some b => exact absurd h nominalLabel_ne_variationLabel
  | some a =>
    cases b with
    | none => exact absurd h.symm nominalLabel_ne_variationLabel
    | some b =>
      obtain ⟨h1, h2⟩ := variationLabel_inj.1 h
      exact congrArg some (Prod.ext h1 h2)

/-! ## Labels -/

theorem beforeSuffix?_append (s ending : String) : beforeSuffix? ending (s ++ ending) = some s :=
  beforeSuffix?_eq_some_iff.2 rfl

theorem beforeSuffix?_up_down (s : String) : beforeSuffix? "Up" (s ++ "Down") = none := by
  refine if_neg fun h => ?_
  rw [List.isSuffixOf_iff_suffix, String.toList_append] at h
  obtain ⟨p, hp⟩ := h
  have hlast := congrArg List.getLast? hp
  simp at hlast

/-- The label of a shift tells the systematic and the direction. -/
theorem splitLabel?_variationLabel {s : String} (hs : s ≠ "") (d : Direction) :
    splitLabel? (variationLabel s d) = some (s, d) := by
  rw [splitLabel?, if_neg nominalLabel_ne_variationLabel.symm]
  cases d with
  | up =>
    rw [variationLabel, beforeSuffix?_append]
    simp [Option.filter, hs]
  | down =>
    rw [variationLabel, Direction.suffix, Direction.suffix, beforeSuffix?_up_down,
      beforeSuffix?_append]
    simp [Option.filter, hs]

theorem splitLabel?_nominalLabel : splitLabel? nominalLabel = none :=
  if_pos rfl

/-! ## Slices -/

/-- What the nominal label and the labels of the shifts make of the columns of a histogram. -/
def sliceOf (r : Registry) (columns : List String) (shift : Shift) : Slice :=
  ⟨shift.label, columns.map (r.under shift)⟩

variable {r : Registry} {before after : List String} {base : String}

/-- A slice reads as many columns as there are, and its label is nominal or one of the catalog. -/
theorem of_mem_fillSlices {columns catalog : List String} {s : Slice}
    (hs : s ∈ fillSlices r columns catalog) :
    s.columns.length = columns.length ∧ (s.label = nominalLabel ∨ s.label ∈ catalog) := by
  rcases List.mem_cons.1 hs with rfl | hs
  · exact ⟨rfl, .inl rfl⟩
  · obtain ⟨label, hlabel, hs⟩ := List.mem_filterMap.1 hs
    obtain ⟨⟨systematic, direction⟩, -, hs⟩ := Option.bind_eq_some_iff.1 hs
    dsimp only at hs
    split_ifs at hs
    obtain rfl := Option.some.inj hs
    exact ⟨List.length_map _, .inr hlabel⟩

/-- A slice reads the columns in their order, each as it is or under the label of the slice. -/
theorem exists_columns_of_mem_fillSlices {columns catalog : List String} {s : Slice}
    (hs : s ∈ fillSlices r columns catalog) : ∃ shifted : String → Bool,
      s.columns = columns.map fun c => if shifted c then labelledColumn c s.label else c := by
  rcases List.mem_cons.1 hs with rfl | hs
  · exact ⟨fun _ => false, (List.map_id'' (fun _ => rfl) columns).symm⟩
  · obtain ⟨label, -, hs⟩ := List.mem_filterMap.1 hs
    obtain ⟨⟨systematic, direction⟩, -, hs⟩ := Option.bind_eq_some_iff.1 hs
    dsimp only at hs
    split_ifs at hs
    obtain rfl := Option.some.inj hs
    exact ⟨r.affects systematic, rfl⟩

/-- A systematic that affects the index column affects more than one column exactly when it affects
another one. -/
theorem length_filter_affects_le_one_iff {s : String} (hbase : r.affects s base = true) :
    ((before ++ base :: after).filter (r.affects s)).length ≤ 1 ↔
      (before ++ after).any (r.affects s) = false := by
  rw [List.filter_append, List.filter_cons_of_pos hbase, List.length_append, List.length_cons,
    List.any_eq_false]
  constructor
  · intro hle c hc haff
    rcases List.mem_append.1 hc with hc | hc
    · have := List.length_pos_of_mem (List.mem_filter.2 ⟨hc, haff⟩)
      omega
    · have := List.length_pos_of_mem (List.mem_filter.2 ⟨hc, haff⟩)
      omega
  · intro hnone
    rw [List.filter_eq_nil_iff.2 fun c hc => hnone c (List.mem_append_left _ hc),
      List.filter_eq_nil_iff.2 fun c hc => hnone c (List.mem_append_right _ hc)]
    rfl

/-- A histogram has a slice for each shift that changes a column other than the index column, and
the slice reads the columns under this shift. -/
theorem fillSlices_eq (hnames : ∀ s ∈ r.systematics, s ≠ "")
    (hbase : ∀ s ∈ r.systematics, r.affects s base = true) :
    fillSlices r (before ++ base :: after) (variationLabels r.systematics) =
      (r.shifts.filter (r.varies (before ++ after))).map
        (sliceOf r (before ++ base :: after)) := by
  have hnominal : sliceOf r (before ++ base :: after) none =
      ⟨nominalLabel, before ++ base :: after⟩ := by
    have hid : (before ++ base :: after).map (r.under none) = before ++ base :: after :=
      List.map_id'' (fun _ => rfl) _
    rw [sliceOf, hid]
    rfl
  have hlabel : ∀ shift ∈ shiftsOf r.systematics,
      ((splitLabel? (variationLabel shift.1 shift.2)).bind fun label =>
        let affected := (before ++ base :: after).filter (r.affects label.1)
        if affected.length ≤ 1 then none
        else some (⟨variationLabel shift.1 shift.2, (before ++ base :: after).map fun c =>
          if r.affects label.1 c then labelledColumn c (variationLabel shift.1 shift.2)
          else c⟩ : Slice)) =
      if r.varies (before ++ after) (some shift) then
        some (sliceOf r (before ++ base :: after) (some shift)) else none := by
    rintro ⟨s, d⟩ hshift
    have hs := mem_shiftsOf.1 hshift
    rw [splitLabel?_variationLabel (hnames s hs), Option.bind_some]
    dsimp only
    have hone := @length_filter_affects_le_one_iff r before after base s (hbase s hs)
    by_cases hvaries : r.varies (before ++ after) (some (s, d)) = true
    · rw [if_pos hvaries, if_neg fun hle => by
        rw [Registry.varies, hone.1 hle] at hvaries
        cases hvaries]
      rfl
    · rw [if_neg hvaries, if_pos (hone.2 (by simpa [Registry.varies] using hvaries))]
  rw [fillSlices, variationLabels_eq, List.filterMap_cons, splitLabel?_nominalLabel,
    Registry.shifts, List.filter_cons_of_pos rfl, List.map_cons, hnominal]
  refine congrArg (List.cons _) ?_
  rw [List.filterMap_map, List.filter_map, List.map_map, ← List.filterMap_eq_map,
    List.filterMap_filter]
  exact List.filterMap_congr hlabel

end VariHist
